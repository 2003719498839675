import ScalarLang.Proofs.Bytecode.Correctness

/-! The operands of lowered code. Registers belong to the frame, indices to the tables of the chunk,
and targets of jumps are offsets of labels; the last line never lets the run go past the end. -/

namespace ScalarLang.Bytecode

open IR (BlockId Env Func InstId Operand Operation Terminator)

/-- The offset that an instruction may jump to. -/
def Instr.target? : Instr → Option UInt16
  | .jmp target | .jmpIfFalse _ target => some target
  | _ => none

/-- The registers, constants and imports that an instruction names exist. The arguments of a call
lie in the frame; if there are none, the first may be the register after the last. -/
def Instr.Fits (c : Chunk) : Instr → Prop
  | .ldc dst k => dst.toNat < c.registers ∧ k.toNat < c.constants.size
  | .mov dst src => dst.toNat < c.registers ∧ src.toNat < c.registers
  | .binary _ dst left right | .compare _ dst left right =>
    dst.toNat < c.registers ∧ left.toNat < c.registers ∧ right.toNat < c.registers
  | .jmp _ => True
  | .jmpIfFalse cond _ => cond.toNat < c.registers
  | .call dst index first => dst.toNat < c.registers ∧
    ∃ i, c.imports[index.toNat]? = some i ∧ first.toNat + i.arity ≤ c.registers
  | .ret src => src.toNat < c.registers

/-- A line whose operands exist; only lines with a symbolic target jump. -/
def Line.Fits (c : Chunk) : Line → Prop
  | .instr i => i.Fits c ∧ i.target? = none
  | .jmpIfFalse cond _ => cond.toNat < c.registers
  | .jmp _ | .label .. => True

/-- What follows is not run on from here. -/
def Line.isEnd : Line → Bool
  | .jmp _ | .instr (.ret _) => true
  | _ => false

variable {f : Func} {chunk : Chunk} {blocks : List (List Line)}

section

variable (hf : f.Verified) (hl : Lowers f chunk blocks)
include hl

/-! ### Instructions -/

theorem fits_mov {dst src : Nat} (hd : dst < chunk.registers) (hs : src < chunk.registers) :
    (Line.mov dst src).Fits chunk := by
  have hle := hl.assembled.registers_le
  have hdst := toNat_toUInt16 (hd.le.trans hle)
  have hsrc := toNat_toUInt16 (hs.le.trans hle)
  exact ⟨⟨hdst.symm ▸ hd, hsrc.symm ▸ hs⟩, rfl⟩

theorem fits_constantLines {l : Line} (h : l ∈ constantLines (.allocate f)) : l.Fits chunk := by
  obtain ⟨k, hk, rfl⟩ := List.mem_map.1 h
  have hk := List.mem_range.1 hk
  have hlt : (Registers.allocate f).firstConstant + k < chunk.registers :=
    hl.lt_registers (Nat.lt_of_lt_of_le (Nat.add_lt_add_left hk _)
      (Registers.numbered_results f).le)
  have hle := hlt.le.trans hl.assembled.registers_le
  refine ⟨⟨?_, ?_⟩, rfl⟩
  · rwa [toNat_toUInt16 hle]
  · rw [toNat_toUInt16 ((Nat.le_add_left k _).trans hle), hl.constants]
    simpa using hk

/-- The import of a call has the argument count of some call, so the scratch registers take as many
arguments as it asks for. -/
theorem fits_call {i : InstId} {callee : String} {args : List Operand} {dst : UInt16}
    (hi : i ∈ f.live) (ho : f.op i = .call callee args) (hd : dst.toNat < chunk.registers) :
    (Instr.call dst ((importsOf f).findIdx (·.name = callee)).toUInt16
      (Registers.allocate f).callScratch.toUInt16).Fits chunk := by
  obtain ⟨j, hj, hn⟩ := exists_import hi ho
  have hlt : (importsOf f).findIdx (·.name = callee) < (importsOf f).length :=
    List.findIdx_lt_length_of_exists ⟨j, hj, by simpa using hn⟩
  obtain ⟨k, hk, args', ho', hlength⟩ := callsWith_of_mem_importsOf (List.getElem_mem hlt)
  have hargs := length_le_maxCallArgs hk ho'
  have hscratch : (Registers.allocate f).callScratch + maxCallArgs f ≤ chunk.registers :=
    hl.registers ▸ Registers.phiScratch_le f
  have hfirst : (Registers.allocate f).callScratch ≤ maxOperand :=
    hl.callScratch_le.trans hl.assembled.registers_le
  refine ⟨hd, (importsOf f)[(importsOf f).findIdx (·.name = callee)], ?_, ?_⟩
  · rw [toNat_toUInt16 (hlt.le.trans hl.length_imports_le), hl.imports, List.getElem?_toArray,
      List.getElem?_eq_getElem hlt]
  · rw [toNat_toUInt16 hfirst]
    omega

include hf

theorem operandRegister_lt {v : Operand} {w : UInt16} (hv : v ∈ f.usedOperands)
    (hw : operandRegister (.allocate f) v = .ok w) : w.toNat < chunk.registers := by
  obtain ⟨env, regs, hh⟩ := Holds.exists_env f
  exact hl.lt_registers (hh.operandRegister hf hl hv hw).1

theorem instOperand_lt {i : InstId} (hi : i ∈ f.live) {v : Operand} {w : UInt16}
    (hv : v ∈ (f.op i).operands) (hw : operandRegister (.allocate f) v = .ok w) :
    w.toNat < chunk.registers := by
  obtain ⟨env, regs, hh⟩ := Holds.exists_env f
  exact hl.lt_registers (hh.instOperand hf hl hi hv hw).1

theorem fits_argMoves {i : InstId} {callee : String} {args : List Operand} {sources : List UInt16}
    (hi : i ∈ f.live) (ho : f.op i = .call callee args)
    (hsources : operandRegisters (.allocate f) args = .ok sources) {l : Line}
    (h : l ∈ sources.zipIdx.map fun (src, k) =>
      Line.instr (.mov ((Registers.allocate f).callScratch + k).toUInt16 src)) : l.Fits chunk := by
  obtain ⟨⟨src, k⟩, hk, rfl⟩ := List.mem_map.1 h
  have hk : sources[k]? = some src := List.mem_zipIdx_iff_getElem?.1 hk
  have hall := mapM_eq_ok.1 hsources
  have hlt : k < args.length := hall.length_eq ▸ (List.getElem?_eq_some_iff.1 hk).1
  have hscratch : (Registers.allocate f).callScratch + k < chunk.registers := by
    have hmax := length_le_maxCallArgs hi ho
    have hle : (Registers.allocate f).callScratch + maxCallArgs f ≤ chunk.registers :=
      hl.registers ▸ Registers.phiScratch_le f
    omega
  obtain ⟨hk', rfl⟩ := List.getElem?_eq_some_iff.1 hk
  have hsrc := (List.forall₂_iff_get.1 hall).2 k hlt hk'
  refine ⟨⟨?_, ?_⟩, rfl⟩
  · rwa [toNat_toUInt16 (hscratch.le.trans hl.assembled.registers_le)]
  · refine instOperand_lt hf hl hi (v := args.get ⟨k, hlt⟩) ?_ hsrc
    rw [ho]
    exact List.get_mem ..

theorem fits_lowerInst {i : InstId} {ls : List Line} (hi : i ∈ f.live)
    (hls : lowerInst (.allocate f) (importsOf f) ((Registers.allocate f).result i).toUInt16
      (f.op i) = .ok ls) : ∀ l ∈ ls, l.Fits chunk := by
  have hresult (htype : (f.op i).type?.isSome) :
      ((Registers.allocate f).result i).toUInt16.toNat < chunk.registers := by
    obtain ⟨n, -, hn, hlt⟩ := hl.exists_result hf hi htype
    exact hn.symm ▸ hlt
  have hslot {s : IR.SlotId} (hs : (f.op i).slot? = some s) :
      ((Registers.allocate f).slot s).toUInt16.toNat < chunk.registers := by
    obtain ⟨n, -, hn, hlt⟩ := hl.exists_slot hf hi hs
    exact hn.symm ▸ hlt
  have hoperand {v : Operand} {w : UInt16} (hv : v ∈ (f.op i).operands)
      (hw : operandRegister (.allocate f) v = .ok w) := instOperand_lt hf hl hi hv hw
  cases ho : f.op i with
  | binary op left right =>
    rw [ho] at hresult hoperand
    simp only [ho, lowerInst, bind_eq_ok, pure_eq_ok] at hls
    obtain ⟨a, ha, b, hb, rfl⟩ := hls
    simpa using ⟨⟨hresult rfl, hoperand (by simp [Operation.operands]) ha,
      hoperand (by simp [Operation.operands]) hb⟩, rfl⟩
  | compare test left right =>
    rw [ho] at hresult hoperand
    simp only [ho, lowerInst, bind_eq_ok, pure_eq_ok] at hls
    obtain ⟨a, ha, b, hb, rfl⟩ := hls
    simpa using ⟨⟨hresult rfl, hoperand (by simp [Operation.operands]) ha,
      hoperand (by simp [Operation.operands]) hb⟩, rfl⟩
  | toDouble v =>
    rw [ho] at hresult hoperand
    simp only [ho, lowerInst, bind_eq_ok, pure_eq_ok] at hls
    obtain ⟨a, ha, rfl⟩ := hls
    simpa using ⟨⟨hresult rfl, hoperand (by simp [Operation.operands]) ha⟩, rfl⟩
  | load s =>
    rw [ho] at hresult hslot hls
    cases hls
    simpa using ⟨⟨hresult rfl, hslot rfl⟩, rfl⟩
  | store s v =>
    rw [ho] at hslot hoperand
    simp only [ho, lowerInst, bind_eq_ok, pure_eq_ok] at hls
    obtain ⟨a, ha, rfl⟩ := hls
    simpa using ⟨⟨hslot rfl, hoperand (by simp [Operation.operands]) ha⟩, rfl⟩
  | call callee args =>
    rw [ho] at hresult
    simp only [ho, lowerInst, guard_eq_ok, bind_eq_ok, pure_eq_ok] at hls
    obtain ⟨-, sources, hsources, rfl⟩ := hls
    intro l hm
    rcases List.mem_append.1 hm with hm | hm
    · exact fits_argMoves hf hl hi ho hsources hm
    · cases List.mem_singleton.1 hm
      exact ⟨fits_call hl hi ho (hresult rfl), rfl⟩
  | phi incoming =>
    rw [ho] at hls
    cases hls
    simp

/-! ### Ends of blocks -/

theorem fits_edgeLines {source target : BlockId} {ls : List Line} (ht : target ∈ f.layout)
    (hls : edgeLines f (.allocate f) source target = .ok ls) : ∀ l ∈ ls, l.Fits chunk := by
  obtain ⟨env, regs, hh⟩ := Holds.exists_env f
  obtain ⟨copies, hcopies, rfl⟩ := edgeLines_eq_ok.1 hls
  have hlt := copies_lt hf hl.count_lt hh ht hcopies
  have hcount : (Registers.allocate f).phiScratch + copies.length ≤ chunk.registers := by
    rw [hl.registers]
    exact Nat.add_le_add_left ((length_edgeCopies hcopies).trans (countP_le_maxPhis ht)) _
  intro l hm
  rw [copyMoves_eq] at hm
  rcases List.mem_append.1 hm with hm | hm
  · obtain ⟨c, hc, rfl⟩ := List.mem_map.1 hm
    have hc := schedule_lt hlt hc
    exact fits_mov hl (by omega) (by omega)
  · cases List.mem_singleton.1 hm
    trivial

theorem fits_lowerTerminator {b : BlockId} {n : Nat} {t : Terminator} {ls : List Line}
    (hb : b ∈ f.layout) (ht : (f.block b).terminator = some t)
    (hls : lowerTerminator f (.allocate f) n b t = .ok ls) : ∀ l ∈ ls, l.Fits chunk := by
  have hused {v : Operand} (hv : v ∈ t.operands) : v ∈ f.usedOperands :=
    Func.mem_usedOperands.2 (.inr ⟨b, hb, t, ht, hv⟩)
  have hsucc {c : BlockId} (hc : c ∈ t.successors) : c ∈ f.layout :=
    hf.successor_mem hb (by simpa [Func.successors, ht] using hc)
  cases t with
  | br target => exact fits_edgeLines hf hl (hsucc (by simp [Terminator.successors])) hls
  | condBr cond yes no =>
    obtain ⟨c, yesLines, hc, hyes, hlines⟩ := lowerTerminator_condBr hls
    have hcond := operandRegister_lt hf hl (hused (by simp [Terminator.operands])) hc
    have hyes := fits_edgeLines hf hl (hsucc (by simp [Terminator.successors])) hyes
    rcases hlines with ⟨noLines, note, hno, rfl⟩ | ⟨-, rfl⟩
    · have hno := fits_edgeLines hf hl (hsucc (by simp [Terminator.successors])) hno
      intro l hm
      simp only [List.mem_cons, List.mem_append] at hm
      rcases hm with rfl | hm | rfl | hm
      · exact hcond
      · exact hyes l hm
      · trivial
      · exact hno l hm
    · exact List.forall_mem_cons.2 ⟨hcond, hyes⟩
  | ret v =>
    obtain ⟨w, hw, rfl⟩ := lowerTerminator_ret hls
    have hsrc := operandRegister_lt hf hl (hused (by simp [Terminator.operands])) hw
    simpa using ⟨hsrc, rfl⟩

omit hf hl in
theorem edgeLines_end {r : Registers} {source target : BlockId} {ls : List Line}
    (hls : edgeLines f r source target = .ok ls) : ∃ init l, ls = init ++ [l] ∧ l.isEnd := by
  obtain ⟨copies, -, rfl⟩ := edgeLines_eq_ok.1 hls
  exact ⟨_, _, rfl, rfl⟩

omit hf hl in
/-- A block ends with a jump or a return. -/
theorem lowerTerminator_end {r : Registers} {b : BlockId} {n : Nat} {t : Terminator}
    {ls : List Line} (hls : lowerTerminator f r n b t = .ok ls) :
    ∃ init l, ls = init ++ [l] ∧ l.isEnd := by
  cases t with
  | br target => exact edgeLines_end hls
  | condBr cond yes no =>
    obtain ⟨c, yesLines, -, hyes, ⟨noLines, note, hno, rfl⟩ | ⟨-, rfl⟩⟩ :=
      lowerTerminator_condBr hls
    · obtain ⟨init, l, rfl, he⟩ := edgeLines_end hno
      exact ⟨.jmpIfFalse c (.edge n) :: (yesLines ++ .label (.edge n) note :: init), l,
        by simp, he⟩
    · obtain ⟨init, l, rfl, he⟩ := edgeLines_end hyes
      exact ⟨.jmpIfFalse c (.block no) :: init, l, rfl, he⟩
  | ret v =>
    obtain ⟨w, -, rfl⟩ := lowerTerminator_ret hls
    exact ⟨[], _, rfl, rfl⟩

/-! ### Functions -/

/-- All operands of the code of a function exist. -/
theorem fits_functionLines : ∀ l ∈ functionLines f blocks, l.Fits chunk := by
  intro l hm
  rcases List.mem_append.1 hm with hm | hm
  · exact fits_constantLines hl hm
  · have fold {zs : List (BlockId × Nat)} {blocks : List (List Line)}
        (hzs : ∀ bn ∈ zs, bn.1 ∈ f.layout)
        (hblocks : List.Forall₂ (fun bn ls => LowersBlock f bn.1 bn.2 ls) zs blocks) :
        ∀ l ∈ blocks.flatten, l.Fits chunk := by
      induction hblocks with
      | nil => nofun
      | @cons bn ls zs blocks hblock _ ih =>
        obtain ⟨hb, hzs⟩ := List.forall_mem_cons.1 hzs
        obtain @⟨note, insts, t, last, hinsts, ht, hlast⟩ := hblock
        have hinst : ∀ l ∈ insts.flatten, l.Fits chunk := by
          intro l hm
          obtain ⟨ls, hls, hm⟩ := List.mem_flatten.1 hm
          obtain ⟨i, hi, hlower⟩ := exists_of_forall₂ hinsts hls
          exact fits_lowerInst hf hl (Func.mem_live.2 ⟨bn.1, hb, hi⟩) hlower l hm
        intro l hm
        simp only [List.flatten_cons, List.cons_append, List.mem_cons, List.mem_append] at hm
        rcases hm with rfl | (hm | hm) | hm
        · trivial
        · exact hinst l hm
        · exact fits_lowerTerminator hf hl hb ht hlast l hm
        · exact ih hzs l hm
    exact fold (fun bn hbn => mem_layout_of_mem_zipIdx hbn) hl.blocks l hm

omit hf in
/-- The code of a function with a body ends with a jump or a return. -/
theorem functionLines_end (hd : f.layout ≠ []) :
    ∃ init l, functionLines f blocks = init ++ [l] ∧ l.isEnd := by
  have fold {zs : List (BlockId × Nat)} {blocks : List (List Line)} (hzs : zs ≠ [])
      (hblocks : List.Forall₂ (fun bn ls => LowersBlock f bn.1 bn.2 ls) zs blocks) :
      ∃ init l, blocks.flatten = init ++ [l] ∧ l.isEnd := by
    induction hblocks with
    | nil => exact absurd rfl hzs
    | @cons bn ls zs blocks hblock hrest ih =>
      obtain @⟨note, insts, t, last, -, -, hlast⟩ := hblock
      cases zs with
      | nil =>
        cases hrest
        obtain ⟨init, l, rfl, he⟩ := lowerTerminator_end hlast
        exact ⟨.label (.block bn.1) note :: (insts.flatten ++ init), l, by simp, he⟩
      | cons z zs =>
        obtain ⟨init, l, hrest, he⟩ := ih (List.cons_ne_nil z zs)
        exact ⟨.label (.block bn.1) note :: (insts.flatten ++ last ++ init), l,
          by simp [hrest], he⟩
  obtain ⟨init, l, hflat, he⟩ := fold (by simpa using hd) hl.blocks
  exact ⟨constantLines (.allocate f) ++ init, l, by simp [functionLines, hflat], he⟩

end

/-! ### Decoding -/

theorem fetch_instr_lt {code : Array UInt8} {offset : Nat} {i : Instr}
    (h : fetch code offset = .instr i) : offset < code.size := by
  unfold fetch at h
  split at h
  · cases h
  · next hb => exact (Array.getElem?_eq_some_iff.1 hb).1

/-- The instructions that are read one after the other from an offset on, each with its offset. -/
def decode (code : Array UInt8) (offset : Nat) : List (Nat × Instr) :=
  match h : fetch code offset with
  | .instr i =>
    have := fetch_instr_lt h
    (offset, i) :: decode code (offset + i.size)
  | _ => []
termination_by code.size - offset
decreasing_by
  simp only [Instr.size, Opcode.size]
  omega

theorem decode_of_fetch {code : Array UInt8} {offset : Nat} {i : Instr}
    (h : fetch code offset = .instr i) :
    decode code offset = (offset, i) :: decode code (offset + i.size) := by
  rw [decode]
  split
  · next j hj =>
    cases h.symm.trans hj
    rfl
  · next hn => exact absurd h (hn i)

theorem decode_size (code : Array UInt8) : decode code code.size = [] := by
  rw [decode]
  split
  · next h => exact absurd (fetch_instr_lt h) (Nat.lt_irrefl _)
  · rfl

/-- The instruction of one of the lines, with the size of the lines before it. -/
def Placed (offset? : Target → Option Nat) (lines : List Line) (n : Nat) (i : Instr) : Prop :=
  ∃ before l after, lines = before ++ l :: after ∧ l.instr? offset? = some i ∧ codeSize before = n

theorem placed_cons {offset? : Target → Option Nat} {l : Line} {lines : List Line} {n : Nat}
    {i : Instr} : Placed offset? (l :: lines) n i ↔
      l.instr? offset? = some i ∧ n = 0 ∨ ∃ k, Placed offset? lines k i ∧ n = l.size + k := by
  constructor
  · rintro ⟨before, l', after, hlines, hi, rfl⟩
    cases before with
    | nil =>
      cases hlines
      exact .inl ⟨hi, rfl⟩
    | cons l₀ before =>
      cases hlines
      exact .inr ⟨codeSize before, ⟨before, l', after, rfl, hi, rfl⟩, codeSize_cons ..⟩
  · rintro (⟨hi, rfl⟩ | ⟨_, ⟨before, l', after, rfl, hi, rfl⟩, rfl⟩)
    · exact ⟨[], l, lines, rfl, hi, rfl⟩
    · exact ⟨l :: before, l', after, rfl, hi, codeSize_cons ..⟩

/-- What is decoded are the instructions of the lines. -/
theorem mem_decode_iff {offset? : Target → Option Nat} {code : Array UInt8} {lines : List Line}
    {bytes : List UInt8} (hcode : code.toList = bytes ++ lines.flatMap (Line.bytes offset?))
    (hresolved : ∀ l ∈ lines, l.Resolved offset?) {n : Nat} {i : Instr} :
    (n, i) ∈ decode code bytes.length ↔ ∃ k, Placed offset? lines k i ∧ n = bytes.length + k := by
  induction lines generalizing bytes with
  | nil =>
    have hsize : bytes.length = code.size := by simpa using (congrArg List.length hcode).symm
    rw [hsize, decode_size]
    simp [Placed]
  | cons l lines ih =>
    obtain ⟨hl, hresolved⟩ := List.forall_mem_cons.1 hresolved
    have hcode' : code.toList =
        (bytes ++ l.bytes offset?) ++ lines.flatMap (Line.bytes offset?) := by
      simpa using hcode
    have ih := ih hcode' hresolved
    rw [List.length_append, Line.length_bytes hl] at ih
    simp only [placed_cons]
    cases hi : l.instr? offset? with
    | none =>
      -- only labels have no instruction, and they take no room
      have hsize : l.size = 0 := by rw [← Line.length_bytes hl, Line.bytes, hi]; rfl
      rw [hsize, Nat.add_zero] at ih
      simpa [hsize] using ih
    | some j =>
      have hj : l.bytes offset? = j.bytes := by rw [Line.bytes, hi]; rfl
      have hsize : j.size = l.size := by rw [← Line.length_bytes hl, hj, length_bytes]
      have hfetch : fetch code bytes.length = .instr j := fetch_eq (hj ▸ hcode')
      rw [decode_of_fetch hfetch, List.mem_cons, hsize, ih]
      constructor
      · rintro (h | ⟨k, hk, rfl⟩)
        · cases h
          exact ⟨0, .inl ⟨rfl, rfl⟩, rfl⟩
        · exact ⟨l.size + k, .inr ⟨k, hk, rfl⟩, Nat.add_assoc ..⟩
      · rintro ⟨_, ⟨h, rfl⟩ | ⟨k, hk, rfl⟩, rfl⟩
        · cases h
          exact .inl rfl
        · exact .inr ⟨k, hk, (Nat.add_assoc ..).symm⟩

/-- The instructions of a chunk, each with its offset. -/
def Chunk.instrs (c : Chunk) : List (Nat × Instr) := decode c.code 0

theorem Assembled.mem_instrs_iff {lines : List Line} (ha : Assembled chunk lines) {n : Nat}
    {i : Instr} :
    (n, i) ∈ chunk.instrs ↔ Placed (fun t => (offsets lines).lookup t) lines n i := by
  have hcode : chunk.code.toList =
      [] ++ lines.flatMap (Line.bytes fun t => (offsets lines).lookup t) := ha.code
  have h : (n, i) ∈ decode chunk.code ([] : List UInt8).length ↔ _ :=
    mem_decode_iff hcode ha.resolved
  simpa [Chunk.instrs] using h

/-- An operand has room for the offset of a label. -/
theorem Assembled.toNat_offset {lines : List Line} (ha : Assembled chunk lines) {t : Target}
    {offset : Nat} (ht : (offsets lines).lookup t = some offset) :
    offset.toUInt16.toNat = offset := by
  obtain ⟨before, note, after, hlines, rfl⟩ := exists_label ht
  refine toNat_toUInt16 (Nat.le_trans ?_ ha.size_le)
  rw [hlines, codeSize_append]
  omega

end ScalarLang.Bytecode
