import Mathlib.Data.List.Perm.Basic
import ScalarLang.IR.Verifier
import ScalarLang.Proofs.Fallible

/-! What the check of a function accepts, said without the order in which it looks at things. -/

namespace ScalarLang.IR.Func

/-- The operand exists and has this type. -/
def Fits (f : Func) (v : Operand) (type : Ty) : Prop :=
  match v with
  | .inst i => i ∈ f.live ∧ i < f.insts.size ∧ (f.op i).type? = some type
  | .arg n => n < f.arity ∧ type = .double
  | .const _ => type = .double
  | .bool _ => type = .bit

/-- A function that is well put together. -/
structure Verified (f : Func) : Prop where
  block_lt {b : BlockId} : b ∈ f.layout → b < f.blocks.size
  terminated {b : BlockId} : b ∈ f.layout → (f.block b).terminator.isSome
  successor_mem {b c : BlockId} : b ∈ f.layout → c ∈ f.successors b → c ∈ f.layout
  inst_lt {b : BlockId} {i : InstId} : b ∈ f.layout → i ∈ (f.block b).insts → i < f.insts.size
  phis_first {b : BlockId} : b ∈ f.layout →
    (f.block b).insts.Pairwise fun i j => (f.op j).isPhi → (f.op i).isPhi
  phi_sources {b : BlockId} {i : InstId} {incoming : List (Operand × BlockId)} : b ∈ f.layout →
    i ∈ (f.block b).insts → f.op i = .phi incoming → (incoming.map (·.2)).Perm (f.preds b)
  slot_lt {b : BlockId} {i : InstId} {s : SlotId} : b ∈ f.layout → i ∈ (f.block b).insts →
    (f.op i).slot? = some s → s < f.slots.size
  fits_inst {b : BlockId} {i : InstId} {v : Operand} {type : Ty} : b ∈ f.layout →
    i ∈ (f.block b).insts → (v, type) ∈ (f.op i).typedOperands → f.Fits v type
  fits_terminator {b : BlockId} {t : Terminator} {v : Operand} {type : Ty} : b ∈ f.layout →
    (f.block b).terminator = some t → (v, type) ∈ t.typedOperands → f.Fits v type

/-! ### Operands -/

theorem mem_live {f : Func} {i : InstId} :
    i ∈ f.live ↔ ∃ b ∈ f.layout, i ∈ (f.block b).insts := by
  simp [live, List.mem_flatMap]

theorem placedMarks_getD (f : Func) (i : InstId) :
    f.placedMarks.getD i false = true ↔ i ∈ f.live ∧ i < f.insts.size := by
  have marks (l : List InstId) (m : Array Bool) :
      ((l.foldl (fun marks i => marks.setIfInBounds i true) m).getD i false = true ↔
        (i ∈ l ∧ i < m.size) ∨ m.getD i false = true) := by
    induction l generalizing m with
    | nil => simp
    | cons j l ih =>
      rw [List.foldl_cons, ih]
      by_cases hj : i = j <;> by_cases hi : i < m.size <;>
        simp [Array.getD, Array.getElem_setIfInBounds, hj, hi] <;> grind
  rw [placedMarks, marks]
  simp [Array.getD]

theorem verifyOperand_eq_ok {f : Func} {block : String} {v : Operand} {type : Ty} :
    f.verifyOperand f.placedMarks block v type = .ok () ↔ f.Fits v type := by
  unfold verifyOperand
  cases v with
  | inst i =>
    simp only [isAttached, Fits, argExists, operandType]
    have := f.placedMarks_getD i
    grind
  | arg n => simp [isAttached, Fits, argExists, operandType]; grind
  | const v => simp [isAttached, Fits, argExists, operandType]; grind
  | bool b => simp [isAttached, Fits, argExists, operandType]; grind

theorem verifyOperands_eq_ok {f : Func} {block : String} {operands : List (Operand × Ty)} :
    f.verifyOperands f.placedMarks block operands = .ok () ↔
      ∀ p ∈ operands, f.Fits p.1 p.2 := by
  rw [verifyOperands, forM_eq_ok]
  exact forall₂_congr fun p _ => verifyOperand_eq_ok

/-! ### Instructions and blocks -/

/-- What an instruction of block `b` demands, apart from its place. -/
def InstFits (f : Func) (b : BlockId) (i : InstId) : Prop :=
  i < f.insts.size ∧
    (∀ incoming, f.op i = .phi incoming → (incoming.map (·.2)).Perm (f.preds b)) ∧
    (∀ s, (f.op i).slot? = some s → s < f.slots.size) ∧
    ∀ p ∈ (f.op i).typedOperands, f.Fits p.1 p.2

theorem verifyPlace_eq_ok {f : Func} {b : BlockId} {past : Bool} {op : Operation} :
    f.verifyPlace b past op = .ok () ↔ (past → ¬op.isPhi) ∧
      (∀ incoming, op = .phi incoming → (incoming.map (·.2)).Perm (f.preds b)) ∧
      ∀ s, op.slot? = some s → s < f.slots.size := by
  cases op with
  | phi incoming =>
    cases past <;> simp [verifyPlace, Operation.isPhi, Operation.slot?, List.isPerm_iff]
  | load s => simp [verifyPlace, Operation.isPhi, Operation.slot?]
  | store s v => simp [verifyPlace, Operation.isPhi, Operation.slot?]
  | _ => simp [verifyPlace, Operation.isPhi, Operation.slot?]

theorem verifyInsts_eq_ok {f : Func} {b : BlockId} {past : Bool} {insts : List InstId} :
    f.verifyInsts f.placedMarks b past insts = .ok () ↔
      (past → ∀ i ∈ insts, ¬(f.op i).isPhi) ∧
      (insts.Pairwise fun i j => (f.op j).isPhi → (f.op i).isPhi) ∧
      ∀ i ∈ insts, f.InstFits b i := by
  induction insts generalizing past with
  | nil => simp [verifyInsts]
  | cons i rest ih =>
    rw [verifyInsts, guard_eq_ok, seq_eq_ok, seq_eq_ok, ih, verifyPlace_eq_ok,
      verifyOperands_eq_ok, List.pairwise_cons]
    simp only [List.forall_mem_cons, InstFits]
    cases past <;> cases (f.op i).isPhi <;> simp <;> grind

theorem verifyBlock_eq_ok {f : Func} {b : BlockId} :
    f.verifyBlock f.placedMarks b = .ok () ↔
      ∃ t, (f.block b).terminator = some t ∧ (∀ c ∈ t.successors, c ∈ f.layout) ∧
        ((f.block b).insts.Pairwise fun i j => (f.op j).isPhi → (f.op i).isPhi) ∧
        (∀ i ∈ (f.block b).insts, f.InstFits b i) ∧ ∀ p ∈ t.typedOperands, f.Fits p.1 p.2 := by
  unfold verifyBlock
  cases (f.block b).terminator with
  | none => simp
  | some t =>
    simp only [Option.some.injEq, exists_eq_left']
    rw [guard_eq_ok, seq_eq_ok, verifyInsts_eq_ok, verifyOperands_eq_ok]
    simp [and_assoc]

theorem verify_eq_ok {f : Func} : f.verify = .ok () ↔ f.Verified := by
  have successors {b : BlockId} {t : Terminator} (ht : (f.block b).terminator = some t) :
      f.successors b = t.successors := by simp [Func.successors, ht]
  unfold verify
  constructor
  · intro h
    split at h
    · next hl =>
      rw [forM_eq_ok] at h
      simp only [verifyBlock_eq_ok, InstFits] at h
      simp only [layoutExists, List.all_eq_true, decide_eq_true_eq] at hl
      exact {
        block_lt := hl _
        terminated := fun hb => by
          obtain ⟨t, ht, -⟩ := h _ hb
          simp [ht]
        successor_mem := fun hb hc => by
          obtain ⟨t, ht, hs, -⟩ := h _ hb
          exact hs _ (successors ht ▸ hc)
        inst_lt := fun hb hi => by
          obtain ⟨-, -, -, -, h, -⟩ := h _ hb
          exact (h _ hi).1
        phis_first := fun hb => by
          obtain ⟨-, -, -, h, -⟩ := h _ hb
          exact h
        phi_sources := fun hb hi ho => by
          obtain ⟨-, -, -, -, h, -⟩ := h _ hb
          exact (h _ hi).2.1 _ ho
        slot_lt := fun hb hi hs => by
          obtain ⟨-, -, -, -, h, -⟩ := h _ hb
          exact (h _ hi).2.2.1 _ hs
        fits_inst := fun hb hi hv => by
          obtain ⟨-, -, -, -, h, -⟩ := h _ hb
          exact (h _ hi).2.2.2 _ hv
        fits_terminator := fun hb ht hv => by
          obtain ⟨t, ht', -, -, -, h⟩ := h _ hb
          cases ht.symm.trans ht'
          exact h _ hv }
    · cases h
  · intro h
    rw [if_pos (by simpa [layoutExists] using fun b hb => h.block_lt hb), forM_eq_ok]
    intro b hb
    obtain ⟨t, ht⟩ := Option.isSome_iff_exists.1 (h.terminated hb)
    exact verifyBlock_eq_ok.2 ⟨t, ht, fun c hc => h.successor_mem hb (successors ht ▸ hc),
      h.phis_first hb, fun i hi => ⟨h.inst_lt hb hi, fun _ => h.phi_sources hb hi,
        fun _ => h.slot_lt hb hi, fun _ => h.fits_inst hb hi⟩, fun _ => h.fits_terminator hb ht⟩

end ScalarLang.IR.Func
