import ScalarLang.Proofs.Bytecode.Allocation
import ScalarLang.Proofs.Bytecode.Frame
import ScalarLang.Proofs.IR.Refinement

/-! What lowered code looks like. Blocks follow one after the other, each behind its label, and
their instructions and ends are lowered on their own. -/

namespace ScalarLang.Bytecode

open IR (BlockId Func InstId Operand Operation Terminator)

/-! ### Functions -/

variable {f : Func} {chunk : Chunk} {blocks : List (List Line)}

/-- The lines of the instructions of a block, or of some of them. -/
def LowersInsts (f : Func) (insts : List InstId) (lines : List (List Line)) : Prop :=
  List.Forall₂ (fun i ls => lowerInst (.allocate f) (importsOf f)
    ((Registers.allocate f).result i).toUInt16 (f.op i) = .ok ls) insts lines

/-- The lines of the `n`-th block. -/
inductive LowersBlock (f : Func) (b : BlockId) (n : Nat) : List Line → Prop where
  | intro {note : String} {insts : List (List Line)} {t : Terminator} {last : List Line}
      (hinsts : LowersInsts f (f.block b).insts insts) (ht : (f.block b).terminator = some t)
      (hlast : lowerTerminator f (.allocate f) n b t = .ok last) :
      LowersBlock f b n (.label (.block b) note :: (insts.flatten ++ last))

/-- The lines of a function. -/
def functionLines (f : Func) (blocks : List (List Line)) : List Line :=
  constantLines (.allocate f) ++ blocks.flatten

/-- The chunk is the code of the function. -/
structure Lowers (f : Func) (chunk : Chunk) (blocks : List (List Line)) : Prop where
  assembled : Assembled chunk (functionLines f blocks)
  constants : chunk.constants = (Registers.allocate f).constants.toArray
  imports : chunk.imports = (importsOf f).toArray
  registers : chunk.registers = (Registers.allocate f).count
  blocks : List.Forall₂ (fun bn ls => LowersBlock f bn.1 bn.2 ls) f.layout.zipIdx blocks

theorem lowersBlock_of_eq_ok {b : BlockId} {n : Nat} {ls : List Line}
    (hb : (f.block b).terminator.isSome)
    (h : lowerBlock f (.allocate f) (importsOf f) n b = .ok ls) : LowersBlock f b n ls := by
  obtain ⟨t, ht⟩ := Option.isSome_iff_exists.1 hb
  simp only [lowerBlock, ht, bind_eq_ok, mapM_eq_ok, pure_eq_ok] at h
  obtain ⟨insts, hinsts, last, hlast, rfl⟩ := h
  exact .intro hinsts ht hlast

theorem lowers_of_eq_ok (hf : f.Verified) (h : lower f = .ok chunk) :
    ∃ blocks, Lowers f chunk blocks := by
  simp only [lower, guard_eq_ok, bind_eq_ok, mapM_eq_ok, Nat.not_lt] at h
  obtain ⟨-, hcount, blocks, hblocks, hsize, h⟩ := h
  obtain ⟨hresolved, happends⟩ := writeLines_eq_ok h
  have hended : ∀ bn ∈ f.layout.zipIdx, (f.block bn.1).terminator.isSome := by
    intro bn hbn
    exact hf.terminated (List.mem_of_getElem? (List.mem_zipIdx_iff_getElem?.1 hbn))
  have hblocks := (List.forall₂_and_left ..).2 ⟨hended, hblocks⟩
  refine ⟨blocks, ⟨?_, hresolved, hsize, ?_⟩, happends.constants, happends.imports,
    happends.registers, hblocks.imp fun _ _ hb => lowersBlock_of_eq_ok hb.1 hb.2⟩
  · exact happends.code.trans (List.nil_append _)
  · exact happends.registers ▸ hcount

/-! ### Ends of blocks -/

theorem edgeLines_eq_ok {r : Registers} {source target : BlockId} {lines : List Line} :
    edgeLines f r source target = .ok lines ↔ ∃ copies, edgeCopies f r source target = .ok copies ∧
      copyMoves r.phiScratch copies ++ [.jmp (.block target)] = lines := by
  simp only [edgeLines, bind_eq_ok, pure_eq_ok]

/-- The two ways in which a conditional branch is lowered. -/
theorem lowerTerminator_condBr {r : Registers} {n : Nat} {b yes no : BlockId} {cond : Operand}
    {lines : List Line} (h : lowerTerminator f r n b (.condBr cond yes no) = .ok lines) :
    ∃ c yesLines, operandRegister r cond = .ok c ∧ edgeLines f r b yes = .ok yesLines ∧
      ((∃ noLines note, edgeLines f r b no = .ok noLines ∧
          lines = .jmpIfFalse c (.edge n) :: (yesLines ++ .label (.edge n) note :: noLines)) ∨
        (∀ i ∈ (f.block no).insts, ¬(f.op i).isPhi) ∧
          lines = .jmpIfFalse c (.block no) :: yesLines) := by
  simp only [lowerTerminator, bind_eq_ok] at h
  obtain ⟨c, hc, phis, hphis, h⟩ := h
  split at h
  · simp only [bind_eq_ok, pure_eq_ok] at h
    obtain ⟨yesLines, hyes, noLines, hno, rfl⟩ := h
    exact ⟨c, yesLines, hc, hyes, .inl ⟨noLines, _, hno, rfl⟩⟩
  · next hfalse =>
    simp only [bind_eq_ok, pure_eq_ok] at h
    obtain ⟨yesLines, hyes, rfl⟩ := h
    refine ⟨c, yesLines, hc, hyes, .inr ⟨fun i hi hphi => hfalse ?_, rfl⟩⟩
    unfold hasPhis at hphis
    split at hphis
    · rw [← Except.ok.inj hphis]
      exact List.any_eq_true.2 ⟨i, hi, hphi⟩
    · cases hphis

theorem lowerTerminator_ret {r : Registers} {n : Nat} {b : BlockId} {v : Operand}
    {lines : List Line} (h : lowerTerminator f r n b (.ret v) = .ok lines) :
    ∃ w, operandRegister r v = .ok w ∧ lines = [.instr (.ret w)] := by
  simp only [lowerTerminator, bind_eq_ok, pure_eq_ok] at h
  obtain ⟨w, hw, rfl⟩ := h
  exact ⟨w, hw, rfl⟩

/-! ### Labels -/

/-- There are no labels among the lines. -/
def Unlabelled (lines : List Line) : Prop := ∀ place note, .label place note ∉ lines

theorem unlabelled_edgeLines {r : Registers} {source target : BlockId} {lines : List Line}
    (h : edgeLines f r source target = .ok lines) : Unlabelled lines := by
  obtain ⟨copies, -, rfl⟩ := edgeLines_eq_ok.1 h
  intro place note hm
  rw [copyMoves_eq] at hm
  simp [Line.mov] at hm

theorem unlabelled_lowerInst {r : Registers} {imports : List Import} {dst : UInt16}
    {op : Operation} {lines : List Line} (h : lowerInst r imports dst op = .ok lines) :
    Unlabelled lines := by
  intro place note hm
  cases op with
  | call name args =>
    simp only [lowerInst, guard_eq_ok, bind_eq_ok, pure_eq_ok] at h
    obtain ⟨-, sources, -, rfl⟩ := h
    simp at hm
  | binary op l r =>
    simp only [lowerInst, bind_eq_ok, pure_eq_ok] at h
    obtain ⟨_, -, _, -, rfl⟩ := h
    simp at hm
  | compare op l r =>
    simp only [lowerInst, bind_eq_ok, pure_eq_ok] at h
    obtain ⟨_, -, _, -, rfl⟩ := h
    simp at hm
  | toDouble v =>
    simp only [lowerInst, bind_eq_ok, pure_eq_ok] at h
    obtain ⟨_, -, rfl⟩ := h
    simp at hm
  | store s v =>
    simp only [lowerInst, bind_eq_ok, pure_eq_ok] at h
    obtain ⟨_, -, rfl⟩ := h
    simp at hm
  | load s => cases h; simp at hm
  | phi incoming => cases h; simp at hm

theorem unlabelled_lowersInsts {insts : List InstId} {lines : List (List Line)}
    (h : LowersInsts f insts lines) : Unlabelled lines.flatten := by
  induction h with
  | nil => exact fun _ _ => nofun
  | cons hi _ ih =>
    intro place note hm
    rcases List.mem_append.1 (List.flatten_cons ▸ hm) with hm | hm
    · exact unlabelled_lowerInst hi place note hm
    · exact ih place note hm

/-- A label stands after all lines that are none. -/
theorem suffix_of_unlabelled {xs ys rest : List Line} {place : Target} {note : String}
    (hx : Unlabelled xs) (h : .label place note :: rest <:+ xs ++ ys) :
    .label place note :: rest <:+ ys := by
  induction xs with
  | nil => exact h
  | cons x xs ih =>
    rcases List.suffix_cons_iff.1 h with he | h
    · exact absurd (List.mem_cons.2 (.inl (List.cons.inj he).1)) (hx place note)
    · exact ih (fun p n hm => hx p n (.tail _ hm)) h

theorem suffix_of_label {ys rest : List Line} {place place' : Target} {note note' : String}
    (h : .label place note :: rest <:+ .label place' note' :: ys) :
    place = place' ∧ rest = ys ∨ .label place note :: rest <:+ ys := by
  rcases List.suffix_cons_iff.1 h with he | h
  · cases he
    exact .inl ⟨rfl, rfl⟩
  · exact .inr h

/-- What follows a label: the code of a block, or the copies of the second way of a branch. -/
inductive Labelled (f : Func) (b : BlockId) (n : Nat) : Target → List Line → Prop where
  | block {insts : List (List Line)} {t : Terminator} {last after : List Line}
      (hinsts : LowersInsts f (f.block b).insts insts) (ht : (f.block b).terminator = some t)
      (hlast : lowerTerminator f (.allocate f) n b t = .ok last) :
      Labelled f b n (.block b) (insts.flatten ++ last ++ after)
  | edge {cond : Operand} {yes no : BlockId} {lines after : List Line}
      (ht : (f.block b).terminator = some (.condBr cond yes no))
      (hlines : edgeLines f (.allocate f) b no = .ok lines) :
      Labelled f b n (.edge n) (lines ++ after)

/-- A label in the end of a block, if it is not behind it, marks the second way of a branch. -/
theorem labelled_last {b : BlockId} {n : Nat} {t : Terminator} {last after rest : List Line}
    {place : Target} {note : String} (ht : (f.block b).terminator = some t)
    (hlast : lowerTerminator f (.allocate f) n b t = .ok last)
    (h : .label place note :: rest <:+ last ++ after) :
    Labelled f b n place rest ∨ .label place note :: rest <:+ after := by
  cases t with
  | br target => exact .inr (suffix_of_unlabelled (unlabelled_edgeLines hlast) h)
  | ret v =>
    obtain ⟨w, -, rfl⟩ := lowerTerminator_ret hlast
    exact .inr (suffix_of_unlabelled (by simp [Unlabelled]) h)
  | condBr cond yes no =>
    obtain ⟨c, yesLines, -, hyes, ⟨noLines, note', hno, rfl⟩ | ⟨-, rfl⟩⟩ :=
      lowerTerminator_condBr hlast
    · have hyes : Unlabelled (.jmpIfFalse c (.edge n) :: yesLines) := by
        simpa [Unlabelled] using unlabelled_edgeLines hyes
      have h : .label place note :: rest <:+ (.jmpIfFalse c (.edge n) :: yesLines) ++
        (.label (.edge n) note' :: (noLines ++ after)) := by simpa using h
      rcases suffix_of_label (suffix_of_unlabelled hyes h) with ⟨rfl, rfl⟩ | h
      · exact .inl (.edge ht hno)
      · exact .inr (suffix_of_unlabelled (unlabelled_edgeLines hno) h)
    · have hyes : Unlabelled (.jmpIfFalse c (.block no) :: yesLines) := by
        simpa [Unlabelled] using unlabelled_edgeLines hyes
      exact .inr (suffix_of_unlabelled hyes h)

theorem exists_labelled {zs : List (BlockId × Nat)} {place : Target} {note : String}
    {rest : List Line} (hblocks : List.Forall₂ (fun bn ls => LowersBlock f bn.1 bn.2 ls) zs blocks)
    (h : .label place note :: rest <:+ blocks.flatten) :
    ∃ b n, (b, n) ∈ zs ∧ Labelled f b n place rest := by
  induction hblocks with
  | nil => simp at h
  | @cons bn ls zs blocks hb _ ih =>
    obtain ⟨hinsts, ht, hlast⟩ := hb
    rw [List.flatten_cons, List.cons_append, List.append_assoc] at h
    rcases suffix_of_label h with ⟨rfl, rfl⟩ | h
    · refine ⟨bn.1, bn.2, List.mem_cons_self .., ?_⟩
      rw [← List.append_assoc]
      exact .block hinsts ht hlast
    · rcases labelled_last ht hlast (suffix_of_unlabelled (unlabelled_lowersInsts hinsts) h)
        with hl | h
      · exact ⟨bn.1, bn.2, List.mem_cons_self .., hl⟩
      · obtain ⟨b, n, hm, hl⟩ := ih h
        exact ⟨b, n, .tail _ hm, hl⟩

/-- What follows a label in the code of a function. -/
theorem Lowers.labelled (h : Lowers f chunk blocks) {place : Target} {note : String}
    {before rest : List Line}
    (hlines : functionLines f blocks = before ++ .label place note :: rest) :
    ∃ b n, (b, n) ∈ f.layout.zipIdx ∧ Labelled f b n place rest := by
  have hconstants : Unlabelled (constantLines (.allocate f)) := by
    intro place note hm
    simp [constantLines] at hm
  exact exists_labelled h.blocks (suffix_of_unlabelled hconstants ⟨before, hlines.symm⟩)

theorem Lowers.exists_labelled (h : Lowers f chunk blocks) {place : Target} {note : String}
    {rest : List Line} {regs : Nat → Float} {m : Machine}
    (hm : Reaches chunk (functionLines f blocks) (.label place note :: rest) regs m) :
    ∃ b n, (b, n) ∈ f.layout.zipIdx ∧ Labelled f b n place rest := by
  obtain ⟨before, hlines, -⟩ := hm
  exact h.labelled hlines

/-! ### Imports -/

def isCall : Operation → Bool
  | .call .. => true
  | _ => false

/-- One step of the collection of imports. -/
def addCallee (f : Func) (imports : List Import) (i : InstId) : List Import :=
  match f.op i with
  | .call name args =>
    if imports.any (·.name = name) then imports else imports ++ [⟨name, args.length⟩]
  | _ => imports

theorem importsOf_eq (f : Func) : importsOf f = f.live.foldl (addCallee f) [] := rfl

/-- The number of arguments, if the instruction calls the function of this name. -/
def callOf? (f : Func) (name : String) (i : InstId) : Option Nat :=
  match f.op i with
  | .call callee args => if callee = name then some args.length else none
  | _ => none

theorem callOf?_eq_some {name : String} {i : InstId} {n : Nat} :
    callOf? f name i = some n ↔ ∃ args, f.op i = .call name args ∧ args.length = n := by
  unfold callOf?
  split
  · next callee args ho =>
    by_cases hname : callee = name
    · simp [hname, ho]
    · simp [hname, ho]
  · next hother =>
    simp only [reduceCtorEq, false_iff]
    rintro ⟨args, ho, -⟩
    exact hother name args ho

/-- The number of arguments of the first call of a function. -/
def firstCall? (f : Func) (name : String) : Option Nat := f.live.findSome? (callOf? f name)

/-- An import is there, or belongs to the call that is looked at. -/
theorem mem_addCallee {imports : List Import} {i : InstId} {j : Import} :
    j ∈ addCallee f imports i ↔ j ∈ imports ∨
      (∀ k ∈ imports, k.name ≠ j.name) ∧ callOf? f j.name i = some j.arity := by
  unfold addCallee callOf?
  split
  · next name args _ =>
    obtain ⟨callee, n⟩ := j
    by_cases hname : name = callee
    · subst hname
      split
      · next hknown =>
        obtain ⟨k, hk, hkname⟩ := List.any_eq_true.1 hknown
        have hnot : ¬∀ k ∈ imports, k.name ≠ name := fun h => h k hk (of_decide_eq_true hkname)
        simp only [hnot, false_and, or_false]
      · next hnew =>
        have hnone : ∀ k ∈ imports, k.name ≠ name := by simpa using hnew
        rw [List.mem_append, List.mem_singleton, if_pos rfl, Option.some.injEq, Import.mk.injEq]
        exact or_congr_right ⟨fun h => ⟨hnone, h.2.symm⟩, fun h => ⟨rfl, h.2.symm⟩⟩
    · have hne : callee ≠ name := Ne.symm hname
      split <;> simp [hne]
  · simp

theorem forall_mem_addCallee {imports : List Import} {i : InstId} {name : String} :
    (∀ k ∈ addCallee f imports i, k.name ≠ name) ↔
      (∀ k ∈ imports, k.name ≠ name) ∧ callOf? f name i = none := by
  simp only [mem_addCallee]
  constructor
  · intro h
    have hold (k : Import) (hk : k ∈ imports) : k.name ≠ name := h k (.inl hk)
    refine ⟨hold, Option.eq_none_iff_forall_ne_some.2 fun n hn => ?_⟩
    exact h ⟨name, n⟩ (.inr ⟨hold, hn⟩) rfl
  · rintro ⟨hold, hnone⟩ k (hk | ⟨-, hk⟩)
    · exact hold k hk
    · rintro rfl
      cases hnone.symm.trans hk

/-- An import has the number of arguments of the first call. -/
theorem mem_importsOf {j : Import} : j ∈ importsOf f ↔ firstCall? f j.name = some j.arity := by
  have fold (l : List InstId) (imports : List Import) : j ∈ l.foldl (addCallee f) imports ↔
      j ∈ imports ∨ (∀ k ∈ imports, k.name ≠ j.name) ∧
        l.findSome? (callOf? f j.name) = some j.arity := by
    induction l generalizing imports with
    | nil => simp
    | cons i l ih =>
      rw [List.foldl_cons, ih, mem_addCallee, forall_mem_addCallee, List.findSome?_cons]
      cases callOf? f j.name i <;> simp
  rw [importsOf_eq, fold, firstCall?]
  simp

theorem callsWith_of_mem_importsOf {j : Import} (h : j ∈ importsOf f) :
    f.CallsWith j.name j.arity := by
  obtain ⟨i, hi, hcall⟩ := List.exists_of_findSome?_eq_some (mem_importsOf.1 h)
  obtain ⟨args, ho, hargs⟩ := callOf?_eq_some.1 hcall
  exact ⟨i, hi, args, ho, hargs⟩

theorem exists_firstCall {i : InstId} {name : String} {args : List Operand} (hi : i ∈ f.live)
    (ho : f.op i = .call name args) : ∃ n, firstCall? f name = some n := by
  refine Option.isSome_iff_exists.1 (List.findSome?_isSome_iff.2 ⟨i, hi, ?_⟩)
  rw [callOf?_eq_some.2 ⟨args, ho, rfl⟩, Option.isSome_some]

theorem exists_import {i : InstId} {name : String} {args : List Operand} (hi : i ∈ f.live)
    (ho : f.op i = .call name args) : ∃ j ∈ importsOf f, j.name = name := by
  obtain ⟨n, hn⟩ := exists_firstCall hi ho
  exact ⟨⟨name, n⟩, mem_importsOf.2 hn, rfl⟩

/-- The import that a call names is that of its callee. -/
theorem getElem?_importsOf (hc : f.UniformCalls) {i : InstId} {name : String}
    {args : List Operand} (hi : i ∈ f.live) (ho : f.op i = .call name args) :
    (importsOf f)[(importsOf f).findIdx (·.name = name)]? = some ⟨name, args.length⟩ := by
  obtain ⟨j, hj, hn⟩ := exists_import hi ho
  have hlt : (importsOf f).findIdx (·.name = name) < (importsOf f).length :=
    List.findIdx_lt_length_of_exists ⟨j, hj, by simpa using hn⟩
  have hname : (importsOf f)[(importsOf f).findIdx (·.name = name)].name = name := by
    simpa using List.findIdx_getElem (w := hlt)
  have hcalls := callsWith_of_mem_importsOf (List.getElem_mem hlt)
  rw [hname] at hcalls
  have harity := hc _ _ _ hcalls ⟨i, hi, args, ho, rfl⟩
  rw [List.getElem?_eq_getElem hlt]
  generalize (importsOf f)[(importsOf f).findIdx (·.name = name)] = k at hname harity
  cases k
  simp_all

theorem length_importsOf_le (f : Func) :
    (importsOf f).length ≤ f.live.countP fun i => isCall (f.op i) := by
  have fold (l : List InstId) (imports : List Import) :
      (l.foldl (addCallee f) imports).length ≤
        imports.length + l.countP fun i => isCall (f.op i) := by
    induction l generalizing imports with
    | nil => simp
    | cons i l ih =>
      have hstep : (addCallee f imports i).length ≤
          imports.length + if isCall (f.op i) then 1 else 0 := by
        unfold addCallee
        split
        · next ho =>
          rw [ho, isCall, if_pos rfl]
          split
          · exact Nat.le_succ _
          · simp
        · exact Nat.le_add_right _ _
      rw [List.foldl_cons, List.countP_cons]
      exact (ih _).trans (by omega)
  rw [importsOf_eq]
  simpa using fold f.live []

/-- There are no more calls than bytes. -/
theorem countP_isCall_le {insts : List InstId} {lines : List (List Line)}
    (h : LowersInsts f insts lines) :
    insts.countP (fun i => isCall (f.op i)) ≤ codeSize lines.flatten := by
  induction h with
  | nil => exact Nat.le_refl 0
  | @cons i ls insts lines hi _ ih =>
    have hstep : (if isCall (f.op i) then 1 else 0) ≤ codeSize ls := by
      split
      · next hcall =>
        cases ho : f.op i with
        | call name args =>
          simp only [ho, lowerInst, guard_eq_ok, bind_eq_ok, pure_eq_ok] at hi
          obtain ⟨-, sources, -, rfl⟩ := hi
          rw [codeSize_append, codeSize_cons]
          exact Nat.le_add_left_of_le (Nat.le_add_right_of_le (Nat.le_add_right 1 _))
        | _ => simp [ho, isCall] at hcall
      · exact Nat.zero_le _
    rw [List.countP_cons, List.flatten_cons, codeSize_append]
    omega

theorem countP_live_le (h : Lowers f chunk blocks) :
    f.live.countP (fun i => isCall (f.op i)) ≤ codeSize (functionLines f blocks) := by
  have fold {zs : List (BlockId × Nat)} {blocks : List (List Line)}
      (hblocks : List.Forall₂ (fun bn ls => LowersBlock f bn.1 bn.2 ls) zs blocks) :
      ((zs.map Prod.fst).flatMap fun b => (f.block b).insts).countP
        (fun i => isCall (f.op i)) ≤ codeSize blocks.flatten := by
    induction hblocks with
    | nil => exact Nat.le_refl 0
    | cons hb _ ih =>
      obtain ⟨hinsts, -, -⟩ := hb
      have hle := countP_isCall_le hinsts
      rw [List.map_cons, List.flatMap_cons, List.countP_append, List.flatten_cons, codeSize_append,
        codeSize_cons, codeSize_append]
      omega
  rw [functionLines, codeSize_append]
  have hlayout := fold h.blocks
  rw [List.zipIdx_map_fst] at hlayout
  exact Nat.le_add_left_of_le hlayout

theorem Lowers.length_imports_le (h : Lowers f chunk blocks) :
    (importsOf f).length ≤ maxOperand :=
  (length_importsOf_le f).trans ((countP_live_le h).trans h.assembled.size_le)

/-! ### Copies -/

/-- The copy for one instruction, if it is a phi. -/
def edgeCopy (f : Func) (r : Registers) (source : BlockId) (i : InstId) :
    Except LowerError (Option Copy) :=
  match f.op i, r.results.getD i none with
  | .phi incoming, some dst =>
    match incoming.find? (·.2 = source) with
    | some (v, _) => match r.operand? v with
      | some src => .ok (some (dst, src))
      | none => .error .dangling
    | none => .ok none
  | _, _ => .ok none

theorem edgeCopies_eq_ok {r : Registers} {source target : BlockId} {copies : List Copy}
    (h : edgeCopies f r source target = .ok copies) :
    ∃ cs, List.Forall₂ (fun i c => edgeCopy f r source i = .ok c) (f.block target).insts cs ∧
      copies = cs.filterMap id := by
  have h : (if !f.blockExists target then (Except.error .dangling : Except LowerError PUnit) >>=
      fun _ => (f.block target).insts.mapM (edgeCopy f r source) >>= fun cs =>
        pure (cs.filterMap id)
      else (f.block target).insts.mapM (edgeCopy f r source) >>= fun cs =>
        pure (cs.filterMap id)) = .ok copies := h
  simp only [guard_eq_ok, bind_eq_ok, mapM_eq_ok, pure_eq_ok] at h
  obtain ⟨-, cs, hcs, rfl⟩ := h
  exact ⟨cs, hcs, rfl⟩

/-- The copy goes from the value that a phi receives from a block to its register. -/
inductive Receives (f : Func) (r : Registers) (source : BlockId) (i : InstId) : Copy → Prop where
  | intro {incoming : List (Operand × BlockId)} {v : Operand} {dst src : Nat}
      (ho : f.op i = .phi incoming) (hd : r.results.getD i none = some dst)
      (hv : IR.incoming? incoming source = some v) (hs : r.operand? v = some src) :
      Receives f r source i (dst, src)

theorem edgeCopy_eq_some {r : Registers} {source : BlockId} {i : InstId} {c : Copy} :
    edgeCopy f r source i = .ok (some c) ↔ Receives f r source i c := by
  constructor
  · intro h
    unfold edgeCopy at h
    split at h
    · next incoming dst ho hd =>
      split at h
      · next v p hv =>
        split at h
        · next src hs =>
          cases h
          exact .intro ho hd (by rw [IR.incoming?, hv, Option.map_some]) hs
        · cases h
      · cases h
    · cases h
  · rintro ⟨ho, hd, hv, hs⟩
    obtain ⟨⟨v, p⟩, hfind, rfl⟩ := Option.map_eq_some_iff.1 hv
    simp [edgeCopy, ho, hd, hfind, hs]

theorem mem_edgeCopies {r : Registers} {source target : BlockId} {copies : List Copy}
    (h : edgeCopies f r source target = .ok copies) {c : Copy} :
    c ∈ copies ↔ ∃ i ∈ (f.block target).insts, Receives f r source i c := by
  obtain ⟨cs, hcs, rfl⟩ := edgeCopies_eq_ok h
  simp only [List.mem_filterMap, id_eq, exists_eq_right, ← edgeCopy_eq_some]
  clear h
  generalize (f.block target).insts = insts at hcs
  induction hcs with
  | nil => simp
  | @cons i x insts cs hi _ ih =>
    rw [List.mem_cons, List.exists_mem_cons_iff, ih, hi, Except.ok.injEq, eq_comm]

theorem length_edgeCopies {r : Registers} {source target : BlockId} {copies : List Copy}
    (h : edgeCopies f r source target = .ok copies) :
    copies.length ≤ (f.block target).insts.countP fun i => (f.op i).isPhi := by
  obtain ⟨cs, hcs, rfl⟩ := edgeCopies_eq_ok h
  clear h
  generalize (f.block target).insts = insts at hcs
  induction hcs with
  | nil => exact Nat.le_refl 0
  | @cons i x insts cs hi _ ih =>
    cases x with
    | none => exact ih.trans (List.countP_cons ▸ Nat.le_add_right _ _)
    | some c =>
      obtain ⟨ho, -, -, -⟩ := edgeCopy_eq_some.1 hi
      rw [List.countP_cons_of_pos (by rw [ho]; rfl)]
      exact Nat.succ_le_succ ih

end ScalarLang.Bytecode
