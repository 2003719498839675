import ScalarLang.Proofs.Bytecode.Completeness

/-! The way from one block to another. The moves on it give each phi of the second block what its
operand for the first one held before the first move, also where phis read each other, and besides
these they change only scratch registers, which hold no other value. -/

namespace ScalarLang

open Bytecode (Copy Line codeSize maxOperand runMoves toNat_toUInt16)

namespace Machine

/-! ### Moves one after the other -/

/-- The machine after `n` steps, unless the run stops before. -/
def steps (image : Image) (maxDepth : Nat) : (n : Nat) → Machine → Step
  | 0, m => .next m
  | n + 1, m =>
    match m.step image maxDepth with
    | .next m => steps image maxDepth n m
    | .stop s => .stop s

/-- The current frame goes on with these lines and has room for `width` registers. -/
structure Faces (m : Machine) (lines : List Line) (width : Nat) : Prop where
  code : ∃ before after, m.frame.fn.chunk.code.toList =
    before ++ lines.flatMap (Line.bytes fun _ => none) ++ after ∧ m.frame.ip = before.length
  room : m.frame.base + width ≤ m.registers.size

/-- The values from the first register of the current frame on. -/
def held (m : Machine) (k : Nat) : Float := m.registers.getD (m.frame.base + k) 0.0

/-- The machine behind a move. -/
def afterMove (m : Machine) (c : Copy) : Machine :=
  { m with
    registers := m.registers.setIfInBounds (m.frame.base + c.1) (m.held c.2)
    frame := { m.frame with ip := m.frame.ip + 5 } }

/-- The machine behind moves. -/
def afterMoves (m : Machine) (moves : List Copy) : Machine := moves.foldl afterMove m

variable {image : Image} {maxDepth width : Nat} {m : Machine} {c : Copy} {moves : List Copy}
  {rest : List Line}

theorem afterMoves_cons (m : Machine) (c : Copy) (moves : List Copy) :
    m.afterMoves (c :: moves) = (m.afterMove c).afterMoves moves := rfl

theorem getElem?_registers {k : Nat} (hk : m.frame.base + k < m.registers.size) :
    m.registers[m.frame.base + k]? = some (m.held k) := by
  rw [held, Array.getD_eq_getD_getElem?, Array.getElem?_eq_getElem hk, Option.getD_some]

/-- A move takes one step, and then the lines behind it are to be carried out. -/
theorem Faces.step (h : m.Faces (Line.mov c.1 c.2 :: rest) width) (hwidth : width ≤ maxOperand)
    (hdst : c.1 < width) (hsrc : c.2 < width) :
    m.step image maxDepth = .next (m.afterMove c) ∧ (m.afterMove c).Faces rest width := by
  obtain ⟨before, after, hcode, hip⟩ := h.code
  have hroom := h.room
  have hdst' : c.1.toUInt16.toNat = c.1 := toNat_toUInt16 (by omega)
  have hsrc' : c.2.toUInt16.toNat = c.2 := toNat_toUInt16 (by omega)
  have hbytes : m.frame.fn.chunk.code.toList =
      before ++ (Bytecode.Instr.mov c.1.toUInt16 c.2.toUInt16).bytes ++
        (rest.flatMap (Line.bytes fun _ => none) ++ after) := by
    rw [hcode, List.flatMap_cons, List.append_assoc, List.append_assoc, List.append_assoc]
    rfl
  have hfetch : Bytecode.fetch m.frame.fn.chunk.code m.frame.ip =
      .instr (.mov c.1.toUInt16 c.2.toUInt16) := by
    rw [hip]
    exact Bytecode.fetch_eq hbytes
  have hread : m.register? c.2.toUInt16 = some (m.held c.2) := by
    rw [register?, hsrc']
    exact getElem?_registers (by omega)
  have hwrite : m.frame.base + c.1 < m.registers.size := by omega
  constructor
  · simp only [Machine.step, hfetch, exec, hread, assign, hdst', if_pos hwrite, afterMove]
  · refine ⟨⟨before ++ (Bytecode.Instr.mov c.1.toUInt16 c.2.toUInt16).bytes, after, ?_, ?_⟩, ?_⟩
    · show m.frame.fn.chunk.code.toList = _
      rw [hbytes, List.append_assoc, List.append_assoc, List.append_assoc]
    · show m.frame.ip + 5 = _
      rw [List.length_append, Bytecode.length_bytes, hip]
      rfl
    · show m.frame.base + width ≤ (m.registers.setIfInBounds _ _).size
      rw [Array.size_setIfInBounds]
      exact hroom

/-- As many steps as there are moves carry all of them out. -/
theorem Faces.steps (h : m.Faces (moves.map fun (dst, src) => Line.mov dst src) width)
    (hwidth : width ≤ maxOperand) (hlt : ∀ c ∈ moves, c.1 < width ∧ c.2 < width) :
    m.steps image maxDepth moves.length = .next (m.afterMoves moves) := by
  induction moves generalizing m with
  | nil => rfl
  | cons c moves ih =>
    obtain ⟨hc, hlt⟩ := List.forall_mem_cons.1 hlt
    have hfaces : m.Faces (Line.mov c.1 c.2 :: moves.map fun (dst, src) => Line.mov dst src)
      width := h
    obtain ⟨hstep, hrest⟩ : m.step image maxDepth = .next (m.afterMove c) ∧
        (m.afterMove c).Faces (moves.map fun (dst, src) => Line.mov dst src) width :=
      hfaces.step hwidth hc.1 hc.2
    rw [List.length_cons, Machine.steps, hstep]
    exact ih hrest hlt

theorem frame_afterMoves (m : Machine) (moves : List Copy) :
    (m.afterMoves moves).frame = { m.frame with ip := m.frame.ip + 5 * moves.length } := by
  induction moves generalizing m with
  | nil => rfl
  | cons c moves ih =>
    rw [afterMoves_cons, ih, List.length_cons, afterMove]
    simp only [Frame.mk.injEq, true_and, and_true]
    omega

theorem size_afterMoves (m : Machine) (moves : List Copy) :
    (m.afterMoves moves).registers.size = m.registers.size := by
  induction moves generalizing m with
  | nil => rfl
  | cons c moves ih =>
    rw [afterMoves_cons, ih, afterMove, Array.size_setIfInBounds]

/-- A move changes the values as its registers say. -/
theorem held_afterMove (h : m.frame.base + c.1 < m.registers.size) :
    (m.afterMove c).held = Function.update m.held c.1 (m.held c.2) := by
  funext k
  simp only [held, afterMove, Array.getD_eq_getD_getElem?, Array.getElem?_setIfInBounds]
  by_cases hk : k = c.1
  · subst hk
    rw [if_pos rfl, if_pos h, Function.update_self, Option.getD_some]
  · rw [if_neg (by omega), Function.update_of_ne hk, held, Array.getD_eq_getD_getElem?]

/-- Moves change the values as they would one after the other. -/
theorem held_afterMoves (hroom : m.frame.base + width ≤ m.registers.size)
    (hlt : ∀ c ∈ moves, c.1 < width) : (m.afterMoves moves).held = runMoves moves m.held := by
  induction moves generalizing m with
  | nil => rfl
  | cons c moves ih =>
    obtain ⟨hc, hlt⟩ := List.forall_mem_cons.1 hlt
    have hsize : (m.afterMove c).frame.base + width ≤ (m.afterMove c).registers.size := by
      simp only [afterMove, Array.size_setIfInBounds]
      exact hroom
    rw [afterMoves_cons, ih hsize hlt, held_afterMove (by omega), Bytecode.runMoves_cons]

/-- Registers that no move writes keep their values, also those of other frames. -/
theorem getElem?_afterMoves {k : Nat} (h : ∀ c ∈ moves, k ≠ m.frame.base + c.1) :
    (m.afterMoves moves).registers[k]? = m.registers[k]? := by
  induction moves generalizing m with
  | nil => rfl
  | cons c moves ih =>
    obtain ⟨hc, h⟩ := List.forall_mem_cons.1 h
    rw [afterMoves_cons, ih (m := m.afterMove c) h]
    exact Array.getElem?_setIfInBounds_ne hc.symm

theorem callers_afterMoves (m : Machine) (moves : List Copy) :
    (m.afterMoves moves).callers = m.callers ∧ (m.afterMoves moves).effects = m.effects := by
  induction moves generalizing m with
  | nil => exact ⟨rfl, rfl⟩
  | cons c moves ih => exact ih (m.afterMove c)

end Machine

namespace Bytecode

open IR (BlockId Func InstId Operand)

/-! ### Registers -/

/-- The registers of arguments, slots, constants and results, and those in which the functions that
are called find their arguments. -/
inductive Serves (f : Func) : Nat → Prop where
  | arg {n : Nat} (hn : n < f.arity) : Serves f n
  | slot {s : IR.SlotId} {n : Nat} (hn : (Registers.allocate f).slots.getD s none = some n) :
      Serves f n
  | constant {v : Float} (hv : v ∈ (Registers.allocate f).constants) :
      Serves f ((Registers.allocate f).constant v)
  | result {i : InstId} {n : Nat} (hn : (Registers.allocate f).results.getD i none = some n) :
      Serves f n
  | callArg {i : InstId} {callee : String} {args : List Operand} {k : Nat} (hi : i ∈ f.live)
      (ho : f.op i = .call callee args) (hk : k < args.length) :
      Serves f ((Registers.allocate f).callScratch + k)

variable {f : Func} {source target : BlockId} {copies : List Copy}

/-- The scratch registers of the moves come after all others. -/
theorem Serves.lt_phiScratch {n : Nat} (h : Serves f n) :
    n < (Registers.allocate f).phiScratch := by
  have harity := Registers.arity_le f
  have hresults := (Registers.numbered_results f).le
  have hscratch := Registers.callScratch_le f
  cases h with
  | arg hn => omega
  | slot hn =>
    have := ((Registers.numbered_slots f).range hn).2
    omega
  | constant hv =>
    have := Registers.constant_lt hv
    omega
  | result hn =>
    have := ((Registers.numbered_results f).range hn).2
    omega
  | @callArg i callee args k hi ho hk =>
    have hargs := length_le_maxCallArgs hi ho
    show (Registers.allocate f).callScratch + k < (Registers.allocate f).callScratch + maxCallArgs f
    omega

/-! ### Copies -/

/-- Machine `m'` is `m` after the copies on the way from `source` to `target`, all made at once:
each phi has the value that its operand for `source` had, and only scratch registers of the frame
have changed besides. -/
structure Transfers (f : Func) (source target : BlockId) (m m' : Machine) : Prop where
  frame : m'.frame = { m.frame with ip := m'.frame.ip }
  callers : m'.callers = m.callers
  effects : m'.effects = m.effects
  size : m'.registers.size = m.registers.size
  phi {i : InstId} {incoming : List (Operand × BlockId)} : i ∈ (f.block target).insts →
    f.op i = .phi incoming → ∃ v dst src x, (∀ w, (w, source) ∈ incoming ↔ w = v) ∧
      (Registers.allocate f).results.getD i none = some dst ∧
      (Registers.allocate f).operand? v = some src ∧
      m.registers[m.frame.base + src]? = some x ∧ m'.registers[m.frame.base + dst]? = some x
  other {k : Nat} : (∀ i ∈ f.phis target, ∀ dst,
      (Registers.allocate f).results.getD i none = some dst → k ≠ m.frame.base + dst) →
    ¬(m.frame.base + (Registers.allocate f).phiScratch ≤ k ∧
      k < m.frame.base + (Registers.allocate f).count) → m'.registers[k]? = m.registers[k]?

/-- Moves write the registers of the copies and scratch registers. -/
theorem dst_schedule {scratch : Nat} {c : Copy} (hc : c ∈ schedule scratch copies) :
    (∃ d ∈ copies, c.1 = d.1) ∨ scratch ≤ c.1 ∧ c.1 < scratch + copies.length := by
  unfold schedule at hc
  split at hc
  · rcases List.mem_append.1 hc with hc | hc
    · right
      obtain ⟨k, d, hd, rfl⟩ := mem_saves.1 hc
      have := (List.getElem?_eq_some_iff.1 hd).1
      omega
    · left
      obtain ⟨k, d, hd, rfl⟩ := mem_restores.1 hc
      exact ⟨d, List.mem_of_getElem? hd, rfl⟩
  · exact .inl ⟨c, (List.mem_filter.1 hc).1, rfl⟩

theorem codeSize_moves (moves : List Copy) :
    codeSize (moves.map fun (dst, src) => Line.mov dst src) = 5 * moves.length := by
  induction moves with
  | nil => rfl
  | cons c moves ih =>
    rw [List.map_cons, codeSize_cons, ih, List.length_cons]
    show 5 + _ = _
    omega

section

variable (hf : f.Verified) (hcount : (Registers.allocate f).count ≤ maxOperand)
  (hs : source ∈ f.layout) (ht : target ∈ f.successors source)
  (hcopies : edgeCopies f (.allocate f) source target = .ok copies)
include hf hs ht

/-- A phi has one operand for each block that leads to it. -/
theorem incoming_eq_iff {i : InstId} {incoming : List (Operand × BlockId)} {v : Operand}
    (hi : i ∈ (f.block target).insts) (ho : f.op i = .phi incoming)
    (hv : IR.incoming? incoming source = some v) (w : Operand) :
    (w, source) ∈ incoming ↔ w = v := by
  have hmem := Func.mem_of_incoming? hv
  have hnodup : (incoming.map (·.2)).Nodup :=
    (hf.phi_sources (hf.successor_mem hs ht) hi ho).nodup_iff.2 (f.preds_nodup target)
  constructor
  · intro hw
    exact congrArg Prod.fst (List.inj_on_of_nodup_map hnodup hw hmem rfl)
  · rintro rfl
    exact hmem

include hcount hcopies

theorem schedule_lt_count {c : Copy}
    (hc : c ∈ schedule (Registers.allocate f).phiScratch copies) :
    c.1 < (Registers.allocate f).count ∧ c.2 < (Registers.allocate f).count := by
  obtain ⟨env, regs, hh⟩ := Holds.exists_env f
  have htl := hf.successor_mem hs ht
  have hlt := copies_lt hf (Nat.lt_succ_of_le hcount) hh htl hcopies
  have hlength := (length_edgeCopies hcopies).trans (countP_le_maxPhis htl)
  have hsize : (Registers.allocate f).count =
    (Registers.allocate f).phiScratch + maxPhis f := rfl
  have := schedule_lt hlt hc
  omega

/-- Each phi has the value that its operand had. -/
theorem phi_afterMoves {m : Machine}
    (hroom : m.frame.base + (Registers.allocate f).count ≤ m.registers.size) {i : InstId}
    {incoming : List (Operand × BlockId)} (hi : i ∈ (f.block target).insts)
    (ho : f.op i = .phi incoming) :
    ∃ v dst src x, (∀ w, (w, source) ∈ incoming ↔ w = v) ∧
      (Registers.allocate f).results.getD i none = some dst ∧
      (Registers.allocate f).operand? v = some src ∧
      m.registers[m.frame.base + src]? = some x ∧
      (m.afterMoves (schedule (Registers.allocate f).phiScratch copies)).registers[
        m.frame.base + dst]? = some x := by
  obtain ⟨env, regs, hh⟩ := Holds.exists_env f
  have htl := hf.successor_mem hs ht
  have hlimit : (Registers.allocate f).count < Registers.limit := Nat.lt_succ_of_le hcount
  have hcopy := copies_lt hf hlimit hh htl hcopies
  have hscratch := Registers.phiScratch_le f
  have hmem {c : Copy} := mem_edgeCopies (c := c) hcopies
  have hsame : ∀ c ∈ copies, ∀ d ∈ copies, c.1 = d.1 → c.2 = d.2 := by
    intro c hc d hd he
    obtain ⟨i, -, hc⟩ := hmem.1 hc
    obtain ⟨j, -, hd⟩ := hmem.1 hd
    rw [hc.inj hd he]
  have hheld := m.held_afterMoves hroom fun c hc =>
    (schedule_lt_count hf hcount hs ht hcopies hc).1
  have hbase : (m.afterMoves (schedule (Registers.allocate f).phiScratch copies)).frame.base =
    m.frame.base := by rw [m.frame_afterMoves]
  have hphi : i ∈ f.phis target := Func.mem_phis.2 ⟨hi, by rw [ho]; rfl⟩
  have hlive : i ∈ f.live := Func.mem_live.2 ⟨target, htl, hi⟩
  obtain ⟨dst, hdst⟩ := Registers.exists_result hf hlive (by rw [ho]; rfl)
  obtain ⟨src, hreceives⟩ := exists_receives hf hlimit hh hs ht hphi hdst
  have hc : (dst, src) ∈ copies := hmem.2 ⟨i, hi, hreceives⟩
  obtain ⟨hdlt, hslt⟩ := hcopy _ hc
  obtain @⟨_, v, dst, src, ho', hdst, hv, hsrc⟩ := hreceives
  cases ho.symm.trans ho'
  refine ⟨v, dst, src, m.held src, incoming_eq_iff hf hs ht hi ho hv, hdst, hsrc, ?_, ?_⟩
  · exact Machine.getElem?_registers (by omega)
  · rw [← hbase, Machine.getElem?_registers (by rw [hbase, m.size_afterMoves]; omega), hheld,
      runMoves_schedule hcopy hsame hc]

/-- Registers that are neither those of phis nor scratch registers keep their values. -/
theorem other_afterMoves {m : Machine} {k : Nat} (hk : ∀ i ∈ f.phis target, ∀ dst,
      (Registers.allocate f).results.getD i none = some dst → k ≠ m.frame.base + dst)
    (hother : ¬(m.frame.base + (Registers.allocate f).phiScratch ≤ k ∧
      k < m.frame.base + (Registers.allocate f).count)) :
    (m.afterMoves (schedule (Registers.allocate f).phiScratch copies)).registers[k]? =
      m.registers[k]? := by
  obtain ⟨env, regs, hh⟩ := Holds.exists_env f
  apply Machine.getElem?_afterMoves
  intro c hc
  rcases dst_schedule hc with ⟨d, hd, he⟩ | ⟨hle, hlt⟩
  · obtain ⟨i, hi, hd⟩ := (mem_edgeCopies hcopies).1 hd
    obtain ⟨hphi, hdst, -⟩ :=
      hd.spec hf (Nat.lt_succ_of_le hcount) hh (hf.successor_mem hs ht) hi
    rw [he]
    exact hk i hphi d.1 hdst
  · have := (schedule_lt_count hf hcount hs ht hcopies hc).1
    omega

theorem transfers_afterMoves {m : Machine}
    (hroom : m.frame.base + (Registers.allocate f).count ≤ m.registers.size) :
    Transfers f source target m
      (m.afterMoves (schedule (Registers.allocate f).phiScratch copies)) where
  frame := by rw [m.frame_afterMoves]
  callers := (m.callers_afterMoves _).1
  effects := (m.callers_afterMoves _).2
  size := m.size_afterMoves _
  phi hi ho := phi_afterMoves hf hcount hs ht hcopies hroom hi ho
  other hk hother := other_afterMoves hf hcount hs ht hcopies hk hother

end

/-- The moves on a way between blocks are a parallel assignment. They are as many steps of any
machine that comes to them in a frame with the registers of the function; each phi of `target` then
has the value that its operand for `source` had before the first of them, and nothing else changes
but scratch registers of that frame, which are those of no argument, slot, constant, result or
argument of a call. -/
theorem edge_moves_parallel (f : Func) (hf : f.verify = .ok ())
    (hcount : (Registers.allocate f).count ≤ maxOperand) (source target : BlockId)
    (hs : source ∈ f.preds target) :
    ∃ copies, edgeCopies f (.allocate f) source target = .ok copies ∧
      (∀ (m : Machine) (image : Image) (maxDepth : Nat),
        m.Faces (copyMoves (Registers.allocate f).phiScratch copies) (Registers.allocate f).count →
        ∃ m', m.steps image maxDepth
            (copyMoves (Registers.allocate f).phiScratch copies).length = .next m' ∧
          m'.frame.ip =
            m.frame.ip + codeSize (copyMoves (Registers.allocate f).phiScratch copies) ∧
          Transfers f source target m m') ∧
      ∀ n, (Registers.allocate f).phiScratch ≤ n → ¬Serves f n := by
  have hf := Func.verify_eq_ok.1 hf
  obtain ⟨hs, ht⟩ := Func.mem_preds.1 hs
  obtain ⟨copies, hcopies⟩ := exists_edgeCopies hf source (hf.successor_mem hs ht)
  refine ⟨copies, hcopies, fun m image maxDepth hm => ?_, fun n hn h => ?_⟩
  · rw [copyMoves_eq] at hm ⊢
    rw [List.length_map, codeSize_moves]
    refine ⟨_, hm.steps hcount fun c => schedule_lt_count hf hcount hs ht hcopies, ?_,
      transfers_afterMoves hf hcount hs ht hcopies hm.room⟩
    rw [m.frame_afterMoves]
  · have := h.lt_phiScratch
    omega

/-- Three values that go round in a loop, and one that stays. -/
def rotate : Func where
  name := "rotate"
  params := ["x"]
  insts := #[⟨.phi [(.arg 0, 0), (.inst 1, 1)], "a"⟩, ⟨.phi [(.const 1.0, 0), (.inst 2, 1)], "b"⟩,
    ⟨.phi [(.const 2.0, 0), (.inst 0, 1)], "c"⟩, ⟨.phi [(.const 3.0, 0), (.inst 3, 1)], "d"⟩,
    ⟨.compare .one (.inst 0) (.inst 3), "test"⟩]
  blocks := #[⟨"entry", [], some (.br 1)⟩, ⟨"loop", [0, 1, 2, 3, 4], some (.condBr (.inst 4) 1 2)⟩,
    ⟨"done", [], some (.ret (.inst 0))⟩]
  layout := [0, 1, 2]

/-- The copies of the loop: the phis have the registers from the fourth on. -/
def rotateCopies : List Copy := [(4, 5), (5, 6), (6, 4), (7, 7)]

/-- A machine at the end of the loop, above two registers of another frame. -/
def rotating : Machine where
  frame :=
    { fn :=
        { name := "rotate"
          arity := 1
          chunk :=
            { name := "rotate"
              registers := 13
              code := ((copyMoves 9 rotateCopies).flatMap (Line.bytes fun _ => none)).toArray }
          imports := #[] }
      ip := 0
      base := 2
      dst := 0 }
  callers := #[]
  registers := #[0.5, 0.5, 7.0, 1.0, 2.0, 3.0, 10.0, 20.0, 30.0, 40.0, 1.0, 0.0, 0.0, 0.0, 0.0]
  effects := #[]

theorem edge_moves_parallel_rotate : rotate.verify = .ok () ∧
    (Registers.allocate rotate).count ≤ maxOperand ∧ 1 ∈ rotate.preds 1 ∧
    edgeCopies rotate (.allocate rotate) 1 1 = .ok rotateCopies ∧
    rotating.Faces (copyMoves (Registers.allocate rotate).phiScratch rotateCopies)
      (Registers.allocate rotate).count ∧
    ∃ m', rotating.steps {} 0 8 = .next m' ∧ Transfers rotate 1 1 rotating m' := by
  have hverify : rotate.verify = .ok () := by rfl
  have hcount : (Registers.allocate rotate).count ≤ maxOperand := by decide +kernel
  have hpred : 1 ∈ rotate.preds 1 := by decide
  have hcopies : edgeCopies rotate (.allocate rotate) 1 1 = .ok rotateCopies := by rfl
  have hfaces : rotating.Faces (copyMoves (Registers.allocate rotate).phiScratch rotateCopies)
      (Registers.allocate rotate).count :=
    ⟨⟨[], [], by decide +kernel, rfl⟩, by decide +kernel⟩
  obtain ⟨copies, hcopies', hrun, -⟩ := edge_moves_parallel rotate hverify hcount 1 1 hpred
  cases hcopies.symm.trans hcopies'
  obtain ⟨m', hsteps, -, htransfers⟩ := hrun rotating {} 0 hfaces
  exact ⟨hverify, hcount, hpred, hcopies, hfaces, m', hsteps, htransfers⟩

end Bytecode

end ScalarLang
