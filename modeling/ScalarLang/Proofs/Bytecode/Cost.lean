import ScalarLang.Proofs.Bytecode.Completeness

/-! What the code of a function costs. The registers that it needs are counted from the function
alone, and so are its bytes if no copy at the end of a block reads what another one writes;
otherwise the code has more bytes. -/

namespace ScalarLang.Bytecode

open IR (BlockId Func InstId Operand Operation SlotId Terminator)

/-! ### Sums -/

/-- The sum of a measure over a list. -/
def total {α : Type} (w : α → Nat) (l : List α) : Nat := l.foldr (fun a n => w a + n) 0

section

variable {α β : Type} {w w' : α → Nat} {l l' : List α}

@[simp] theorem total_nil (w : α → Nat) : total w [] = 0 := rfl

@[simp] theorem total_cons (w : α → Nat) (a : α) (l : List α) :
    total w (a :: l) = w a + total w l := rfl

theorem total_append (w : α → Nat) (l l' : List α) :
    total w (l ++ l') = total w l + total w l' := by
  induction l with
  | nil => simp
  | cons a l ih => simp [ih, Nat.add_assoc]

theorem total_flatMap (w : α → Nat) (k : β → List α) (l : List β) :
    total w (l.flatMap k) = total (fun b => total w (k b)) l := by
  induction l with
  | nil => rfl
  | cons b l ih => rw [List.flatMap_cons, total_append, ih, total_cons]

theorem total_add (w w' : α → Nat) (l : List α) :
    total (fun a => w a + w' a) l = total w l + total w' l := by
  induction l with
  | nil => rfl
  | cons a l ih =>
    simp only [total_cons, ih]
    omega

theorem total_le (h : ∀ a ∈ l, w' a ≤ w a) : total w' l ≤ total w l := by
  induction l with
  | nil => exact Nat.le_refl 0
  | cons a l ih =>
    rw [List.forall_mem_cons] at h
    exact Nat.add_le_add h.1 (ih h.2)

theorem total_perm (h : l'.Perm l) : total w l' = total w l := by
  induction h with
  | nil => rfl
  | cons a _ ih => rw [total_cons, total_cons, ih]
  | swap a b l =>
    simp only [total_cons]
    omega
  | trans _ _ ih ih' => exact ih.trans ih'

theorem total_sublist (h : l'.Sublist l) : total w l' ≤ total w l := by
  induction h with
  | slnil => exact Nat.le_refl 0
  | cons a _ ih => exact ih.trans (Nat.le_add_left _ _)
  | cons_cons a _ ih => exact Nat.add_le_add_left ih _

theorem total_subperm (h : l'.Subperm l) : total w l' ≤ total w l := by
  obtain ⟨k, hk, hs⟩ := h
  rw [← total_perm hk]
  exact total_sublist hs

theorem total_const {n : Nat} (h : ∀ a ∈ l, w a = n) : total w l = l.length * n := by
  induction l with
  | nil => simp
  | cons a l ih =>
    rw [List.forall_mem_cons] at h
    rw [total_cons, h.1, ih h.2, List.length_cons, Nat.succ_mul, Nat.add_comm]

end

theorem codeSize_eq_total (lines : List Line) : codeSize lines = total Line.size lines := rfl

/-! ### Bytes -/

/-- The bytes of an operation. A call copies its arguments first; a phi has no code of its own. -/
def operationBytes : Operation → Nat
  | .binary .. => Opcode.add.size
  | .compare .. => Opcode.lt.size
  | .toDouble _ | .load _ | .store .. => Opcode.mov.size
  | .call _ args => args.length * Opcode.mov.size + Opcode.call.size
  | .phi _ => 0

/-- The bytes of the way to a block: a copy for each of its phis, and a jump. -/
def edgeBytes (f : Func) (target : BlockId) : Nat :=
  (f.phis target).length * Opcode.mov.size + Opcode.jmp.size

/-- The bytes of the end of a block. The second way of a branch has code of its own only if there
is something to copy. -/
def terminatorBytes (f : Func) : Terminator → Nat
  | .br target => edgeBytes f target
  | .condBr _ yes no => Opcode.jmpIfFalse.size + edgeBytes f yes +
      if f.phis no = [] then 0 else edgeBytes f no
  | .ret _ => Opcode.ret.size

def endBytes (f : Func) (b : BlockId) : Nat :=
  ((f.block b).terminator.map (terminatorBytes f)).getD 0

/-- The bytes of a function: those that load its constants, those of its instructions and those of
the ends of its blocks. -/
def codeBytes (f : Func) : Nat :=
  (constantsOf f).length * Opcode.ldc.size + total (fun i => operationBytes (f.op i)) f.live +
    total (endBytes f) f.layout

/-- No copy at the end of a block reads what another one writes. -/
def Direct (f : Func) : Prop :=
  ∀ b ∈ f.layout, ∀ c ∈ f.successors b, ∀ copies, edgeCopies f (.allocate f) b c = .ok copies →
    ∀ x ∈ copies, ∀ y ∈ copies, y.1 ≠ x.2

variable {f : Func}

theorem codeSize_lowerInst {r : Registers} {imports : List Import} {dst : UInt16} {op : Operation}
    {lines : List Line} (h : lowerInst r imports dst op = .ok lines) :
    codeSize lines = operationBytes op := by
  cases op with
  | call name args =>
    simp only [lowerInst, guard_eq_ok, bind_eq_ok, pure_eq_ok] at h
    obtain ⟨-, sources, hsources, rfl⟩ := h
    have hlength : args.length = sources.length := (mapM_eq_ok.1 hsources).length_eq
    rw [codeSize_append, codeSize_eq_total, total_const (n := Opcode.mov.size), List.length_map,
      List.length_zipIdx, ← hlength]
    · rfl
    · intro l hl
      obtain ⟨x, -, rfl⟩ := List.mem_map.1 hl
      rfl
  | binary op left right =>
    simp only [lowerInst, bind_eq_ok, pure_eq_ok] at h
    obtain ⟨_, -, _, -, rfl⟩ := h
    cases op <;> rfl
  | compare test left right =>
    simp only [lowerInst, bind_eq_ok, pure_eq_ok] at h
    obtain ⟨_, -, _, -, rfl⟩ := h
    cases test <;> rfl
  | toDouble v | store s v =>
    simp only [lowerInst, bind_eq_ok, pure_eq_ok] at h
    obtain ⟨_, -, rfl⟩ := h
    rfl
  | load s | phi incoming =>
    cases h
    rfl

theorem codeSize_lowersInsts {insts : List InstId} {lines : List (List Line)}
    (h : LowersInsts f insts lines) :
    codeSize lines.flatten = total (fun i => operationBytes (f.op i)) insts := by
  induction h with
  | nil => rfl
  | cons hi _ ih => rw [List.flatten_cons, codeSize_append, codeSize_lowerInst hi, ih, total_cons]

/-! ### Ends of blocks -/

theorem schedule_of_separate {copies : List Copy} (scratch : Nat)
    (h : ∀ x ∈ copies, ∀ y ∈ copies, y.1 ≠ x.2) : schedule scratch copies = copies := by
  unfold schedule
  split
  · next hany =>
    obtain ⟨x, hx, hany⟩ := List.any_eq_true.1 hany
    obtain ⟨y, hy, he⟩ := List.any_eq_true.1 hany
    exact absurd (of_decide_eq_true he) (h x hx y hy)
  · exact List.filter_eq_self.2 fun x hx => decide_eq_true (h x hx x hx)

theorem length_le_schedule (scratch : Nat) (copies : List Copy) :
    copies.length ≤ (schedule scratch copies).length := by
  by_cases h : ∀ x ∈ copies, ∀ y ∈ copies, y.1 ≠ x.2
  · exact (schedule_of_separate scratch h).symm ▸ Nat.le_refl _
  · unfold schedule
    split
    · rw [List.length_append, saves, List.length_map, List.length_zipIdx]
      exact Nat.le_add_right _ _
    · next hany =>
      refine absurd (fun x hx y hy he => hany ?_) h
      exact List.any_eq_true.2 ⟨x, hx, List.any_eq_true.2 ⟨y, hy, decide_eq_true he⟩⟩

section

variable (hf : f.Verified)
include hf

/-- Every phi of a block receives something from each block that leads there. -/
theorem length_edgeCopies_eq {b c : BlockId} (hb : b ∈ f.layout) (hc : c ∈ f.successors b)
    {copies : List Copy} (h : edgeCopies f (.allocate f) b c = .ok copies) :
    copies.length = (f.phis c).length := by
  have hcl := hf.successor_mem hb hc
  obtain ⟨cs, hcs, rfl⟩ := edgeCopies_eq_ok h
  have hphi {i : InstId} {x : Option Copy} (hi : i ∈ (f.block c).insts)
      (hx : edgeCopy f (.allocate f) b i = .ok x) : x.isSome = f.isPhiInst i := by
    rw [Func.isPhiInst]
    cases x with
    | some copy =>
      obtain ⟨ho, -, -, -⟩ := edgeCopy_eq_some.1 hx
      rw [ho]
      rfl
    | none =>
      cases ho : f.op i with
      | phi incoming =>
        have hl : i ∈ f.live := Func.mem_live.2 ⟨c, hcl, hi⟩
        obtain ⟨n, hn⟩ := Registers.exists_result hf hl (by rw [ho]; rfl)
        have hsource := (hf.mem_sources hcl hi ho).2 ⟨hb, hc⟩
        obtain ⟨y, hy, hyb⟩ := List.mem_map.1 hsource
        simp only [edgeCopy, ho, hn] at hx
        split at hx
        · split at hx <;> cases hx
        · next hnone => exact absurd (List.find?_eq_none.1 hnone y hy) (by simp [hyb])
      | _ => rfl
  rw [Func.phis]
  generalize (f.block c).insts = insts at hcs hphi
  clear h
  induction hcs with
  | nil => rfl
  | @cons i x insts cs hx _ ih =>
    have ih := ih fun hi => hphi (.tail _ hi)
    have hi := hphi (List.mem_cons_self ..) hx
    cases x with
    | none => rwa [List.filter_cons_of_neg (by simp [← hi])]
    | some copy =>
      rw [List.filter_cons_of_pos (by simp [← hi])]
      exact congrArg (· + 1) ih

theorem codeSize_edgeLines {b c : BlockId} (hb : b ∈ f.layout) (hc : c ∈ f.successors b)
    {lines : List Line} (h : edgeLines f (.allocate f) b c = .ok lines) :
    edgeBytes f c ≤ codeSize lines ∧ (Direct f → codeSize lines = edgeBytes f c) := by
  obtain ⟨copies, hcopies, rfl⟩ := edgeLines_eq_ok.1 h
  have hlength := length_edgeCopies_eq hf hb hc hcopies
  have hsize : codeSize (copyMoves (Registers.allocate f).phiScratch copies ++
      [.jmp (.block c)]) =
      (schedule (Registers.allocate f).phiScratch copies).length * Opcode.mov.size +
        Opcode.jmp.size := by
    rw [codeSize_append, copyMoves_eq, codeSize_eq_total, total_const (n := Opcode.mov.size),
      List.length_map]
    · rfl
    · intro l hl
      obtain ⟨x, -, rfl⟩ := List.mem_map.1 hl
      rfl
  rw [hsize, edgeBytes, ← hlength]
  constructor
  · exact Nat.add_le_add_right (Nat.mul_le_mul_right _ (length_le_schedule _ copies)) _
  · intro hd
    rw [schedule_of_separate _ (hd b hb c hc copies hcopies)]

end

theorem hasPhis_eq_ok {b : BlockId} {phis : Bool} (h : hasPhis f b = .ok phis) :
    phis = true ↔ f.phis b ≠ [] := by
  unfold hasPhis at h
  split at h
  · rw [← Except.ok.inj h, List.any_eq_true, ne_eq, Func.phis, List.filter_eq_nil_iff]
    simp [Func.isPhiInst]
  · cases h

theorem codeSize_lowerTerminator (hf : f.Verified) {b : BlockId} (hb : b ∈ f.layout) {n : Nat}
    {t : Terminator} (ht : (f.block b).terminator = some t) {lines : List Line}
    (h : lowerTerminator f (.allocate f) n b t = .ok lines) :
    terminatorBytes f t ≤ codeSize lines ∧
      (Direct f → codeSize lines = terminatorBytes f t) := by
  have hsucc : f.successors b = t.successors := by simp [Func.successors, ht]
  cases t with
  | br target => exact codeSize_edgeLines hf hb (by simp [hsucc, Terminator.successors]) h
  | ret v =>
    obtain ⟨w, -, rfl⟩ := lowerTerminator_ret h
    exact ⟨Nat.le_refl _, fun _ => rfl⟩
  | condBr cond yes no =>
    simp only [lowerTerminator, bind_eq_ok] at h
    obtain ⟨c, -, phis, hphis, h⟩ := h
    have hyes {ls : List Line} (h : edgeLines f (.allocate f) b yes = .ok ls) :=
      codeSize_edgeLines hf hb (by simp [hsucc, Terminator.successors]) h
    have hno {ls : List Line} (h : edgeLines f (.allocate f) b no = .ok ls) :=
      codeSize_edgeLines hf hb (by simp [hsucc, Terminator.successors]) h
    rw [terminatorBytes]
    by_cases hp : f.phis no = []
    · obtain rfl : phis = false := by simpa [hp] using hasPhis_eq_ok hphis
      simp only [Bool.false_eq_true, if_false, bind_eq_ok, pure_eq_ok] at h
      obtain ⟨yesLines, hyesLines, rfl⟩ := h
      obtain ⟨hle, heq⟩ := hyes hyesLines
      rw [if_pos hp, codeSize_cons, Line.size, Nat.add_zero]
      exact ⟨Nat.add_le_add_left hle _, fun hd => by rw [heq hd]⟩
    · obtain rfl : phis = true := (hasPhis_eq_ok hphis).2 hp
      simp only [if_true, bind_eq_ok, pure_eq_ok] at h
      obtain ⟨yesLines, hyesLines, noLines, hnoLines, rfl⟩ := h
      obtain ⟨hle, heq⟩ := hyes hyesLines
      obtain ⟨hle', heq'⟩ := hno hnoLines
      rw [if_neg hp, List.cons_append, codeSize_cons, codeSize_append, codeSize_cons, Line.size,
        Line.size, Nat.zero_add, ← Nat.add_assoc]
      exact ⟨Nat.add_le_add (Nat.add_le_add_left hle _) hle',
        fun hd => by rw [heq hd, heq' hd]⟩

/-! ### Functions -/

/-- The bytes of a block. -/
def blockBytes (f : Func) (b : BlockId) : Nat :=
  total (fun i => operationBytes (f.op i)) (f.block b).insts + endBytes f b

theorem codeBytes_eq (f : Func) :
    codeBytes f = (constantsOf f).length * Opcode.ldc.size + total (blockBytes f) f.layout := by
  rw [codeBytes, Func.live, total_flatMap, Nat.add_assoc, ← total_add]
  rfl

theorem codeSize_lowersBlock (hf : f.Verified) {b : BlockId} (hb : b ∈ f.layout) {n : Nat}
    {lines : List Line} (h : LowersBlock f b n lines) :
    blockBytes f b ≤ codeSize lines ∧ (Direct f → codeSize lines = blockBytes f b) := by
  obtain @⟨note, insts, t, last, hinsts, ht, hlast⟩ := h
  obtain ⟨hle, heq⟩ := codeSize_lowerTerminator hf hb ht hlast
  rw [codeSize_cons, Line.size, Nat.zero_add, codeSize_append, codeSize_lowersInsts hinsts,
    blockBytes, endBytes, ht, Option.map_some, Option.getD_some]
  exact ⟨Nat.add_le_add_left hle _, fun hd => by rw [heq hd]⟩

/-- The code of a function has at least the bytes that were counted, and no more if no copy is in
the way of another. -/
theorem codeSize_functionLines (hf : f.Verified) {blocks : List (List Line)}
    (h : List.Forall₂ (fun bn ls => LowersBlock f bn.1 bn.2 ls) f.layout.zipIdx blocks) :
    codeBytes f ≤ codeSize (functionLines f blocks) ∧
      (Direct f → codeSize (functionLines f blocks) = codeBytes f) := by
  have hconstants : codeSize (constantLines (.allocate f)) =
      (constantsOf f).length * Opcode.ldc.size := by
    rw [codeSize_eq_total, total_const (n := Opcode.ldc.size), constantLines, List.length_map,
      List.length_range]
    · rfl
    · intro l hl
      obtain ⟨k, -, rfl⟩ := List.mem_map.1 hl
      rfl
  have fold {zs : List (BlockId × Nat)} {blocks : List (List Line)}
      (h : List.Forall₂ (fun bn ls => LowersBlock f bn.1 bn.2 ls) zs blocks)
      (hz : ∀ bn ∈ zs, bn.1 ∈ f.layout) :
      total (blockBytes f) (zs.map Prod.fst) ≤ codeSize blocks.flatten ∧
        (Direct f → codeSize blocks.flatten = total (blockBytes f) (zs.map Prod.fst)) := by
    induction h with
    | nil => exact ⟨Nat.le_refl 0, fun _ => rfl⟩
    | cons hb _ ih =>
      rw [List.forall_mem_cons] at hz
      obtain ⟨hle, heq⟩ := codeSize_lowersBlock hf hz.1 hb
      obtain ⟨hle', heq'⟩ := ih hz.2
      rw [List.map_cons, total_cons, List.flatten_cons, codeSize_append]
      exact ⟨Nat.add_le_add hle hle', fun hd => by rw [heq hd, heq' hd]⟩
  obtain ⟨hle, heq⟩ := fold h fun bn hbn => mem_layout_of_mem_zipIdx hbn
  rw [List.zipIdx_map_fst] at hle heq
  rw [functionLines, codeSize_append, hconstants, codeBytes_eq]
  exact ⟨Nat.add_le_add_left hle _, fun hd => by rw [heq hd]⟩

theorem Lowers.size_code {chunk : Chunk} {blocks : List (List Line)}
    (h : Lowers f chunk blocks) : chunk.code.size = codeSize (functionLines f blocks) := by
  rw [← Array.length_toList, h.assembled.code, length_flatMap_bytes h.assembled.resolved]

/-! ### Registers -/

/-- The number of slots that are read or written. -/
def usedSlots (f : Func) : Nat :=
  (List.range f.slots.size).countP fun s => f.live.any fun i => (f.op i).slot? = some s

/-- The number of results. -/
def resultCount (f : Func) : Nat := f.live.countP fun i => (f.op i).type?.isSome

/-- The number of registers: for the arguments, the slots in use, the constants, the results, and
for copies. -/
def registerCount (f : Func) : Nat :=
  f.arity + usedSlots f + (constantsOf f).length + resultCount f + maxCallArgs f + maxPhis f

theorem isUsed_slotUsage {s : SlotId} (hs : s < f.slots.size) :
    (f.slotUsage.getD s {}).isUsed = f.live.any fun i => (f.op i).slot? = some s := by
  have hslot (i : InstId) : (f.op i).slot? = some s ↔ f.readsSlot s i ∨ f.writesSlot s i := by
    cases ho : f.op i <;> simp [Func.readsSlot, Func.writesSlot, Operation.slot?, ho]
  rw [Bool.eq_iff_iff, Func.slotUsage_getD hs, IR.SlotUsage.isUsed, decide_eq_true_eq,
    Nat.add_pos_iff_pos_or_pos, List.countP_pos_iff, List.countP_pos_iff, List.any_eq_true]
  simp only [decide_eq_true_eq, hslot, and_or_left, exists_or]

theorem length_slotUsage (f : Func) : f.slotUsage.toList.length = f.slots.size := by
  rw [Array.length_toList, Func.slotUsage]
  refine List.foldlRecOn (motive := fun usage : Array IR.SlotUsage => usage.size = f.slots.size)
    _ _ (by simp)
    fun usage h i _ => ?_
  split <;> simpa using h

theorem countP_slotUsage (f : Func) :
    f.slotUsage.toList.countP (·.isUsed) = usedSlots f := by
  have hrange : f.slotUsage.toList =
      (List.range f.slots.size).map fun s => f.slotUsage.getD s {} := by
    apply List.ext_getElem
    · rw [length_slotUsage, List.length_map, List.length_range]
    · intro s hs _
      simp [Array.getD_eq_getD_getElem?, Array.getElem?_eq_getElem (Array.length_toList ▸ hs)]
  rw [hrange, List.countP_map, usedSlots]
  refine List.countP_congr fun s hs => ?_
  rw [Function.comp_apply, isUsed_slotUsage (List.mem_range.1 hs)]

namespace Registers

theorem placeSlots_snd (f : Func) (next : Nat) :
    (placeSlots f next).2 = next + usedSlots f := by
  have fold (l : List IR.SlotUsage) (acc : Array (Option Nat) × Nat) :
      (l.foldl placeSlot acc).2 = acc.2 + l.countP (·.isUsed) := by
    induction l generalizing acc with
    | nil => rfl
    | cons usage l ih =>
      rw [List.foldl_cons, ih, placeSlot, List.countP_cons]
      split <;> omega
  rw [placeSlots_eq, fold, countP_slotUsage]

theorem placeResults_snd (f : Func) (next : Nat) :
    (placeResults f next).2 = next + resultCount f := by
  have fold (l : List InstId) (acc : Array (Option Nat) × Nat) :
      (l.foldl (placeResult f) acc).2 = acc.2 + l.countP fun i => (f.op i).type?.isSome := by
    induction l generalizing acc with
    | nil => rfl
    | cons i l ih =>
      rw [List.foldl_cons, ih, placeResult, List.countP_cons]
      split <;> omega
  exact fold f.live _

theorem count_allocate (f : Func) : (allocate f).count = registerCount f := by
  show (placeResults f ((placeSlots f f.arity).2 + (constantsOf f).length)).2 +
    maxCallArgs f + maxPhis f = registerCount f
  rw [placeResults_snd, placeSlots_snd, registerCount]

end Registers

/-! ### Success -/

theorem operandRegister_ne_tooLarge (r : Registers) (v : Operand) :
    operandRegister r v ≠ .error .tooLarge := by
  unfold operandRegister
  split <;> simp

theorem edgeLines_ne_tooLarge (r : Registers) (source target : BlockId) :
    edgeLines f r source target ≠ .error .tooLarge := by
  have hcopy (i : InstId) : edgeCopy f r source i ≠ .error .tooLarge := by
    unfold edgeCopy
    repeat' split
    all_goals simp
  have hcopies : edgeCopies f r source target ≠ .error .tooLarge :=
    guard_ne_error (fun _ => by simp)
      (bind_ne_error (mapM_ne_error fun i _ => hcopy i) fun _ _ => pure_ne_error _)
  exact bind_ne_error hcopies fun _ _ => pure_ne_error _

theorem lowerTerminator_ne_tooLarge (r : Registers) (n : Nat) (b : BlockId) (t : Terminator) :
    lowerTerminator f r n b t ≠ .error .tooLarge := by
  have hedge := edgeLines_ne_tooLarge (f := f) r b
  have hphis (c : BlockId) : hasPhis f c ≠ .error .tooLarge := by
    unfold hasPhis
    split <;> simp
  cases t with
  | br target => exact hedge target
  | ret v => exact bind_ne_error (operandRegister_ne_tooLarge r v) fun _ _ => pure_ne_error _
  | condBr cond yes no =>
    refine bind_ne_error (operandRegister_ne_tooLarge r cond) fun _ _ =>
      bind_ne_error (hphis no) fun phis _ => ?_
    split
    · exact bind_ne_error (hedge yes) fun _ _ => bind_ne_error (hedge no) fun _ _ => pure_ne_error _
    · exact bind_ne_error (hedge yes) fun _ _ => pure_ne_error _

/-- The number of arguments that an operation passes. -/
def argCount : Operation → Nat
  | .call _ args => args.length
  | _ => 0

theorem maxCallArgs_eq (f : Func) : maxCallArgs f = maxOf (f.live.map fun i => argCount (f.op i)) :=
  rfl

theorem maxOf_le {n : Nat} {ns : List Nat} : maxOf ns ≤ n ↔ ∀ m ∈ ns, m ≤ n := by
  refine ⟨fun h m hm => (le_maxOf hm).trans h, fun h => ?_⟩
  exact List.foldlRecOn (motive := (· ≤ n)) ns max (Nat.zero_le n)
    fun m hm k hk => Nat.max_le.2 ⟨hm, h k hk⟩

theorem lowerInst_ne_tooLarge (r : Registers) (imports : List Import) (dst : UInt16)
    {op : Operation} (h : argCount op ≤ maxArity) :
    lowerInst r imports dst op ≠ .error .tooLarge := by
  have hoperand := operandRegister_ne_tooLarge r
  cases op with
  | binary op left right | compare test left right =>
    exact bind_ne_error (hoperand left) fun _ _ => bind_ne_error (hoperand right) fun _ _ =>
      pure_ne_error _
  | toDouble v | store s v => exact bind_ne_error (hoperand v) fun _ _ => pure_ne_error _
  | load s | phi incoming => exact pure_ne_error _
  | call name args =>
    refine guard_ne_error (fun hlt => absurd h (Nat.not_le.2 hlt)) ?_
    exact bind_ne_error (mapM_ne_error fun v _ => hoperand v) fun _ _ => pure_ne_error _

theorem argCount_le_of_lowerInst {r : Registers} {imports : List Import} {dst : UInt16}
    {op : Operation} {lines : List Line} (h : lowerInst r imports dst op = .ok lines) :
    argCount op ≤ maxArity := by
  cases op with
  | call name args =>
    simp only [lowerInst, guard_eq_ok] at h
    exact Nat.not_lt.1 h.1
  | _ => exact Nat.zero_le _

theorem lowerBlock_ne_tooLarge (imports : List Import) {b : BlockId} (n : Nat) (hb : b ∈ f.layout)
    (h : maxCallArgs f ≤ maxArity) :
    lowerBlock f (.allocate f) imports n b ≠ .error .tooLarge := by
  rw [maxCallArgs_eq, maxOf_le, List.forall_mem_map] at h
  unfold lowerBlock
  refine bind_ne_error (mapM_ne_error fun i hi => ?_) fun _ _ => ?_
  · exact lowerInst_ne_tooLarge _ _ _ (h i (Func.mem_live.2 ⟨b, hb, hi⟩))
  · split
    · exact bind_ne_error (lowerTerminator_ne_tooLarge _ _ _ _) fun _ _ => pure_ne_error _
    · exact pure_ne_error _

theorem writeLines_ne_tooLarge (offset? : Target → Option Nat) (lines : List Line) (c : Chunk) :
    lines.foldlM (writeLine offset?) c ≠ .error .tooLarge := by
  have hwrite (c : Chunk) (l : Line) : writeLine offset? c l ≠ .error .tooLarge := by
    cases l with
    | instr i | label place note => simp [writeLine]
    | jmp t | jmpIfFalse cond t =>
      simp only [writeLine]
      split <;> simp
  induction lines generalizing c with
  | nil => exact pure_ne_error c
  | cons l lines ih =>
    rw [List.foldlM_cons]
    exact bind_ne_error (hwrite c l) fun c' _ => ih c'

/-- What has code is not too large. -/
theorem maxCallArgs_le_of_lowers {chunk : Chunk} {blocks : List (List Line)}
    (h : Lowers f chunk blocks) : maxCallArgs f ≤ maxArity := by
  rw [maxCallArgs_eq, maxOf_le, List.forall_mem_map]
  intro i hi
  obtain ⟨b, hb, hi⟩ := Func.mem_live.1 hi
  obtain ⟨n, hn⟩ := List.mem_iff_getElem?.1 hb
  have hmem : (b, n) ∈ f.layout.zipIdx := List.mem_zipIdx_iff_getElem?.2 hn
  obtain ⟨ls, -, ⟨hinsts, -, -⟩⟩ := exists_of_forall₂ h.blocks.flip hmem
  obtain ⟨lines, -, hlines⟩ := exists_of_forall₂ hinsts.flip hi
  exact argCount_le_of_lowerInst hlines

/-- A function that is small enough has code. -/
theorem exists_lower (hf : f.Verified) (hd : Direct f) (hcount : registerCount f ≤ maxOperand)
    (hargs : maxCallArgs f ≤ maxArity) (hbytes : codeBytes f ≤ maxOperand) :
    ∃ chunk, lower f = .ok chunk := by
  cases h : lower f with
  | ok chunk => exact ⟨chunk, rfl⟩
  | error e =>
    obtain rfl := lower_eq_tooLarge hf h
    have hnot : lower f ≠ .error .tooLarge := by
      refine guard_ne_error (fun _ => by simp) (guard_ne_error (fun hlt => ?_) (bind_ne_error
        (mapM_ne_error fun bn hbn => lowerBlock_ne_tooLarge _ _ (mem_layout_of_mem_zipIdx hbn) hargs)
        fun blocks hblocks => guard_ne_error (fun hlt => ?_) (writeLines_ne_tooLarge _ _ _)))
      · rw [Registers.count_allocate] at hlt
        exact absurd hcount (Nat.not_le.2 hlt)
      · have hsize := (codeSize_functionLines hf (lowersBlocks_of_eq_ok hf hblocks)).2 hd
        exact absurd (hsize.trans_le hbytes) (Nat.not_le.2 hlt)
    exact absurd h hnot

/-- A function has code if one has that is as well put together and needs no less. -/
theorem exists_lower_of_le {g : Func} {chunk : Chunk} (hf : f.Verified) (hg : g.Verified)
    (hd : Direct g) (hcount : registerCount g ≤ registerCount f)
    (hargs : maxCallArgs g ≤ maxCallArgs f) (hbytes : codeBytes g ≤ codeBytes f)
    (h : lower f = .ok chunk) : ∃ chunk', lower g = .ok chunk' ∧
      chunk'.registers ≤ chunk.registers ∧ chunk'.code.size ≤ chunk.code.size := by
  obtain ⟨blocks, hl⟩ := lowers_of_eq_ok hf h
  have hregs : chunk.registers = registerCount f := hl.registers.trans (Registers.count_allocate f)
  have hcode : codeBytes f ≤ chunk.code.size :=
    hl.size_code ▸ (codeSize_functionLines hf hl.blocks).1
  have hsize : chunk.code.size ≤ maxOperand := hl.size_code ▸ hl.assembled.size_le
  obtain ⟨chunk', h'⟩ := exists_lower hg hd
    (hcount.trans (hregs ▸ hl.assembled.registers_le))
    (hargs.trans (maxCallArgs_le_of_lowers hl)) (hbytes.trans (hcode.trans hsize))
  obtain ⟨blocks', hl'⟩ := lowers_of_eq_ok hg h'
  refine ⟨chunk', h', ?_, ?_⟩
  · rw [hl'.registers, Registers.count_allocate, hregs]
    exact hcount
  · rw [hl'.size_code, (codeSize_functionLines hg hl'.blocks).2 hd]
    exact hbytes.trans hcode

end ScalarLang.Bytecode
