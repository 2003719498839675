import ScalarLang.Proofs.Bytecode.Correctness

/-! Functions that have code. A function that is well put together refers to nothing that does not
exist, and every place that its code jumps to is marked, so only its size can keep it from being
lowered. -/

namespace ScalarLang.Bytecode

open IR (BlockId Func InstId Operand Operation Terminator)

/-- Nothing that the computation refers to is missing. -/
def Closed {α : Type} (x : Except LowerError α) : Prop := x ≠ .error .dangling

section

variable {α β : Type}

theorem closed_ok (a : α) : Closed (.ok a) := nofun

theorem Closed.bind {x : Except LowerError α} {g : α → Except LowerError β} (hx : Closed x)
    (hg : ∀ a, x = .ok a → Closed (g a)) : Closed (x >>= g) := bind_ne_error hx hg

theorem Closed.guard {p : Prop} [Decidable p] {e : LowerError} {y : Except LowerError α}
    (hp : p → e ≠ .dangling) (hy : Closed y) :
    Closed (if p then (Except.error e : Except LowerError PUnit) >>= fun _ => y else y) :=
  guard_ne_error hp hy

theorem closed_mapM {g : α → Except LowerError β} {xs : List α} (h : ∀ x ∈ xs, Closed (g x)) :
    Closed (xs.mapM g) := mapM_ne_error h

end

variable {f : Func}

/-! ### Operands -/

section

variable (hf : f.Verified)
include hf

theorem exists_operand {v : Operand} (hv : v ∈ f.usedOperands) :
    ∃ n, (Registers.allocate f).operand? v = some n := by
  cases v with
  | inst i =>
    obtain ⟨type, -, hlt, -⟩ := hf.exists_fits hv
    have hsize : i < (Registers.allocate f).results.size :=
      Nat.lt_of_lt_of_le hlt (Registers.size_placeResults f _).ge
    exact ⟨_, if_pos hsize⟩
  | arg n => exact ⟨_, rfl⟩
  | const x => exact ⟨_, rfl⟩
  | bool b => exact ⟨_, rfl⟩

theorem closed_operandRegister {v : Operand} (hv : v ∈ f.usedOperands) :
    Closed (operandRegister (.allocate f) v) := by
  obtain ⟨n, hn⟩ := exists_operand hf hv
  simp only [operandRegister, hn]
  exact closed_ok _

theorem closed_lowerInst (imports : List Import) (dst : UInt16) {i : InstId} (hi : i ∈ f.live) :
    Closed (lowerInst (.allocate f) imports dst (f.op i)) := by
  have hoperand {v : Operand} (hv : v ∈ (f.op i).operands) :
      Closed (operandRegister (.allocate f) v) := by
    obtain ⟨b, hb, hi⟩ := Func.mem_live.1 hi
    exact closed_operandRegister hf (Func.mem_usedOperands.2 (.inl ⟨b, hb, i, hi, hv⟩))
  generalize f.op i = op at hoperand
  cases op with
  | binary op left right | compare test left right =>
    exact (hoperand (by simp [Operation.operands])).bind fun _ _ =>
      (hoperand (by simp [Operation.operands])).bind fun _ _ => closed_ok _
  | toDouble v | store s v =>
    exact (hoperand (by simp [Operation.operands])).bind fun _ _ => closed_ok _
  | load s | phi incoming => exact closed_ok _
  | call name args =>
    exact .guard (fun _ => by simp)
      ((closed_mapM fun v hv => hoperand hv).bind fun _ _ => closed_ok _)

/-! ### Ends of blocks -/

theorem exists_edgeCopy {source target : BlockId} {i : InstId} (ht : target ∈ f.layout)
    (hi : i ∈ (f.block target).insts) : ∃ c, edgeCopy f (.allocate f) source i = .ok c := by
  unfold edgeCopy
  split
  · next incoming dst ho hd =>
    split
    · next v p hfind =>
      have hv : v ∈ (f.op i).operands := by
        rw [ho]
        exact List.mem_map_of_mem (List.mem_of_find?_eq_some hfind)
      obtain ⟨n, hn⟩ :=
        exists_operand hf (Func.mem_usedOperands.2 (.inl ⟨target, ht, i, hi, hv⟩))
      rw [hn]
      exact ⟨_, rfl⟩
    · exact ⟨_, rfl⟩
  · exact ⟨_, rfl⟩

theorem exists_edgeCopies (source : BlockId) {target : BlockId} (ht : target ∈ f.layout) :
    ∃ copies, edgeCopies f (.allocate f) source target = .ok copies := by
  cases h : (f.block target).insts.mapM (edgeCopy f (.allocate f) source) with
  | error e =>
    obtain ⟨i, hi, he⟩ := mapM_eq_error h
    obtain ⟨c, hc⟩ := exists_edgeCopy hf ht hi
    cases hc.symm.trans he
  | ok cs =>
    have hexists : ¬(!f.blockExists target) = true := by simp [hf.blockExists ht]
    refine ⟨cs.filterMap id, guard_eq_ok.2 ⟨hexists, bind_eq_ok.2 ⟨cs, h, rfl⟩⟩⟩

theorem closed_edgeLines {source target : BlockId} (ht : target ∈ f.layout) :
    Closed (edgeLines f (.allocate f) source target) := by
  obtain ⟨copies, hcopies⟩ := exists_edgeCopies hf source ht
  rw [Closed, edgeLines, hcopies]
  exact closed_ok _

theorem closed_lowerTerminator {b : BlockId} {n : Nat} {t : Terminator} (hb : b ∈ f.layout)
    (ht : (f.block b).terminator = some t) :
    Closed (lowerTerminator f (.allocate f) n b t) := by
  have hoperand {v : Operand} (hv : v ∈ t.operands) : Closed (operandRegister (.allocate f) v) :=
    closed_operandRegister hf (Func.mem_usedOperands.2 (.inr ⟨b, hb, t, ht, hv⟩))
  have hedge {c : BlockId} (hc : c ∈ t.successors) : Closed (edgeLines f (.allocate f) b c) :=
    closed_edgeLines hf (hf.successor_mem hb (by simpa [Func.successors, ht] using hc))
  cases t with
  | br target => exact hedge (by simp [Terminator.successors])
  | ret v => exact (hoperand (by simp [Terminator.operands])).bind fun _ _ => closed_ok _
  | condBr cond yes no =>
    have hyes := hedge (c := yes) (by simp [Terminator.successors])
    have hno := hedge (c := no) (by simp [Terminator.successors])
    have hphis : Closed (hasPhis f no) := by
      have hmem : no ∈ f.layout :=
        hf.successor_mem hb (by simp [Func.successors, ht, Terminator.successors])
      rw [hasPhis, if_pos (hf.blockExists hmem)]
      exact closed_ok _
    refine (hoperand (by simp [Terminator.operands])).bind fun _ _ => hphis.bind fun phis _ => ?_
    split
    · exact hyes.bind fun _ _ => hno.bind fun _ _ => closed_ok _
    · exact hyes.bind fun _ _ => closed_ok _

theorem closed_lowerBlock {imports : List Import} {b : BlockId} {n : Nat} (hb : b ∈ f.layout) :
    Closed (lowerBlock f (.allocate f) imports n b) := by
  obtain ⟨t, ht⟩ := Option.isSome_iff_exists.1 (hf.terminated hb)
  have hinsts := closed_mapM fun i hi =>
    closed_lowerInst hf imports ((Registers.allocate f).result i).toUInt16
      (Func.mem_live.2 ⟨b, hb, hi⟩)
  simp only [lowerBlock, ht]
  exact hinsts.bind fun _ _ => (closed_lowerTerminator hf hb ht).bind fun _ _ => closed_ok _

end

/-! ### Targets -/

/-- The place that a line jumps to. -/
def Line.target? : Line → Option Target
  | .jmp t | .jmpIfFalse _ t => some t
  | _ => none

theorem Line.resolved_of_target {offset? : Target → Option Nat} {l : Line}
    (h : ∀ t, l.target? = some t → (offset? t).isSome) : l.Resolved offset? := by
  cases l with
  | jmp t => exact h t rfl
  | jmpIfFalse cond t => exact h t rfl
  | instr i => trivial
  | label place note => trivial

theorem target?_lowerInst {r : Registers} {imports : List Import} {dst : UInt16} {op : Operation}
    {lines : List Line} (h : lowerInst r imports dst op = .ok lines) :
    ∀ l ∈ lines, l.target? = none := by
  cases op with
  | call name args =>
    simp only [lowerInst, guard_eq_ok, bind_eq_ok, pure_eq_ok] at h
    obtain ⟨-, sources, -, rfl⟩ := h
    intro l hl
    rcases List.mem_append.1 hl with hl | hl
    · obtain ⟨_, -, rfl⟩ := List.mem_map.1 hl
      rfl
    · cases List.mem_singleton.1 hl
      rfl
  | binary op left right | compare test left right =>
    simp only [lowerInst, bind_eq_ok, pure_eq_ok] at h
    obtain ⟨_, -, _, -, rfl⟩ := h
    simp [Line.target?]
  | toDouble v | store s v =>
    simp only [lowerInst, bind_eq_ok, pure_eq_ok] at h
    obtain ⟨_, -, rfl⟩ := h
    simp [Line.target?]
  | load s | phi incoming => cases h; simp [Line.target?]

theorem target?_edgeLines {r : Registers} {source target : BlockId} {lines : List Line}
    (h : edgeLines f r source target = .ok lines) {l : Line} (hl : l ∈ lines) {t : Target}
    (ht : l.target? = some t) : t = .block target := by
  obtain ⟨copies, -, rfl⟩ := edgeLines_eq_ok.1 h
  rw [copyMoves_eq] at hl
  rcases List.mem_append.1 hl with hl | hl
  · obtain ⟨c, -, rfl⟩ := List.mem_map.1 hl
    cases ht
  · cases List.mem_singleton.1 hl
    exact (Option.some.inj ht).symm

/-- The end of a block jumps to the blocks that follow, and to places that it marks itself. -/
theorem target?_lowerTerminator {r : Registers} {b : BlockId} {n : Nat} {e : Terminator}
    {lines : List Line} (h : lowerTerminator f r n b e = .ok lines) {l : Line} (hl : l ∈ lines)
    {t : Target} (ht : l.target? = some t) :
    (∃ c ∈ e.successors, t = .block c) ∨ ∃ note, .label t note ∈ lines := by
  cases e with
  | br target => exact .inl ⟨target, by simp [Terminator.successors], target?_edgeLines h hl ht⟩
  | ret v =>
    obtain ⟨w, -, rfl⟩ := lowerTerminator_ret h
    cases List.mem_singleton.1 hl
    cases ht
  | condBr cond yes no =>
    obtain ⟨c, yesLines, -, hyes, ⟨noLines, note, hno, rfl⟩ | ⟨-, rfl⟩⟩ :=
      lowerTerminator_condBr h
    · simp only [List.mem_cons, List.mem_append] at hl
      rcases hl with rfl | hl | rfl | hl
      · cases ht
        exact .inr ⟨note, by simp⟩
      · exact .inl ⟨yes, by simp [Terminator.successors], target?_edgeLines hyes hl ht⟩
      · cases ht
      · exact .inl ⟨no, by simp [Terminator.successors], target?_edgeLines hno hl ht⟩
    · rcases List.mem_cons.1 hl with rfl | hl
      · cases ht
        exact .inl ⟨no, by simp [Terminator.successors], rfl⟩
      · exact .inl ⟨yes, by simp [Terminator.successors], target?_edgeLines hyes hl ht⟩

theorem LowersBlock.target? {b : BlockId} {n : Nat} {lines : List Line}
    (h : LowersBlock f b n lines) {l : Line} (hl : l ∈ lines) {t : Target}
    (ht : l.target? = some t) :
    (∃ c ∈ f.successors b, t = .block c) ∨ ∃ note, .label t note ∈ lines := by
  obtain @⟨note, insts, e, last, hinsts, he, hlast⟩ := h
  simp only [List.mem_cons, List.mem_append] at hl
  rcases hl with rfl | hl | hl
  · cases ht
  · obtain ⟨ls, hls, hl⟩ := List.mem_flatten.1 hl
    obtain ⟨i, -, hi⟩ := exists_of_forall₂ hinsts hls
    exact absurd ht (by simp [target?_lowerInst hi l hl])
  · rcases target?_lowerTerminator hlast hl ht with ⟨c, hc, rfl⟩ | ⟨note', hm⟩
    · exact .inl ⟨c, by simpa [Func.successors, he] using hc, rfl⟩
    · exact .inr ⟨note', by simp [hm]⟩

/-! ### Places -/

theorem mem_placesFrom {lines : List Line} {t : Target} {note : String}
    (h : .label t note ∈ lines) (k : Nat) : ∃ n, (t, n) ∈ placesFrom k lines := by
  induction lines generalizing k with
  | nil => exact nomatch h
  | cons l lines ih =>
    rcases List.mem_cons.1 h with rfl | hm
    · exact ⟨k, List.mem_cons_self ..⟩
    · cases l with
      | label place note' =>
        obtain ⟨n, hn⟩ := ih hm k
        exact ⟨n, .tail _ hn⟩
      | instr i => exact ih hm _
      | jmp target => exact ih hm _
      | jmpIfFalse cond target => exact ih hm _

/-- A place that is marked has an offset. -/
theorem isSome_lookup_offsets {lines : List Line} {t : Target} {note : String}
    (h : .label t note ∈ lines) : ((offsets lines).lookup t).isSome := by
  obtain ⟨n, hn⟩ := mem_placesFrom h 0
  exact List.lookup_isSome_iff.2 ⟨_, List.mem_reverse.2 hn, BEq.rfl⟩

theorem closed_writeLines {offset? : Target → Option Nat} {lines : List Line}
    (h : ∀ l ∈ lines, l.Resolved offset?) (c : Chunk) :
    Closed (lines.foldlM (writeLine offset?) c) := by
  induction lines generalizing c with
  | nil => exact closed_ok c
  | cons l lines ih =>
    obtain ⟨hl, hlines⟩ := List.forall_mem_cons.1 h
    have hstep : Closed (writeLine offset? c l) := by
      cases l with
      | instr i => exact closed_ok _
      | label place note => exact closed_ok _
      | jmp t =>
        obtain ⟨n, hn⟩ := Option.isSome_iff_exists.1 hl
        simp only [writeLine, hn]
        exact closed_ok _
      | jmpIfFalse cond t =>
        obtain ⟨n, hn⟩ := Option.isSome_iff_exists.1 hl
        simp only [writeLine, hn]
        exact closed_ok _
    rw [List.foldlM_cons]
    exact hstep.bind fun c' _ => ih hlines c'

/-! ### Functions -/

/-- Every jump of the code of a function has a target. -/
theorem resolved_functionLines (hf : f.Verified) {blocks : List (List Line)}
    (hblocks : List.Forall₂ (fun bn ls => LowersBlock f bn.1 bn.2 ls) f.layout.zipIdx blocks) :
    ∀ l ∈ functionLines f blocks,
      l.Resolved fun t => (offsets (functionLines f blocks)).lookup t := by
  have hblock {c : BlockId} (hc : c ∈ f.layout) : ∃ note,
      .label (.block c) note ∈ functionLines f blocks := by
    obtain ⟨n, hn⟩ := List.mem_iff_getElem?.1 hc
    have hmem : (c, n) ∈ f.layout.zipIdx := List.mem_zipIdx_iff_getElem?.2 hn
    obtain ⟨ls, hls, @⟨note, _, _, _, _, _, _⟩⟩ := exists_of_forall₂ hblocks.flip hmem
    exact ⟨note, List.mem_append_right _ (List.mem_flatten.2 ⟨_, hls, List.mem_cons_self ..⟩)⟩
  intro l hl
  apply Line.resolved_of_target
  intro t ht
  rcases List.mem_append.1 hl with hl | hl
  · obtain ⟨k, -, rfl⟩ := List.mem_map.1 hl
    cases ht
  · obtain ⟨ls, hls, hl⟩ := List.mem_flatten.1 hl
    obtain ⟨⟨b, n⟩, hb, hlowers⟩ := exists_of_forall₂ hblocks hls
    have hlabel : ∃ note, .label t note ∈ functionLines f blocks := by
      rcases hlowers.target? hl ht with ⟨c, hc, rfl⟩ | ⟨note, hm⟩
      · exact hblock (hf.successor_mem (mem_layout_of_mem_zipIdx hb) hc)
      · exact ⟨note, List.mem_append_right _ (List.mem_flatten.2 ⟨ls, hls, hm⟩)⟩
    obtain ⟨note, hm⟩ := hlabel
    exact isSome_lookup_offsets hm

theorem lowersBlocks_of_eq_ok (hf : f.Verified) {blocks : List (List Line)}
    (h : f.layout.zipIdx.mapM (fun (b, n) => lowerBlock f (.allocate f) (importsOf f) n b) =
      .ok blocks) :
    List.Forall₂ (fun bn ls => LowersBlock f bn.1 bn.2 ls) f.layout.zipIdx blocks := by
  have hended : ∀ bn ∈ f.layout.zipIdx, (f.block bn.1).terminator.isSome :=
    fun bn hbn => hf.terminated (mem_layout_of_mem_zipIdx hbn)
  exact ((List.forall₂_and_left ..).2 ⟨hended, mapM_eq_ok.1 h⟩).imp
    fun _ _ hb => lowersBlock_of_eq_ok hb.1 hb.2

/-- A function that is well put together is lowered, unless it is too large. -/
theorem lower_eq_tooLarge (hf : f.Verified) {e : LowerError} (h : lower f = .error e) :
    e = .tooLarge := by
  have hclosed : Closed (lower f) := by
    refine .guard (fun h => ?_) (.guard (fun _ => by simp) (.bind (closed_mapM fun bn hbn =>
      closed_lowerBlock hf (mem_layout_of_mem_zipIdx hbn)) fun blocks hblocks =>
        .guard (fun _ => by simp) (closed_writeLines ?_ _)))
    · simp [hf.slotsExist] at h
    · exact resolved_functionLines hf (lowersBlocks_of_eq_ok hf hblocks)
  cases e with
  | tooLarge => rfl
  | dangling => exact absurd h hclosed

end ScalarLang.Bytecode
