import ScalarLang.Proofs.Bytecode.Operands

/-! Linked code is safe to run. Every frame goes on at an instruction of its function, its registers
are on the stack, and so a run stops only where it returns, calls too deep, or a call reaches no
function. -/

namespace ScalarLang

open Bytecode (Chunk Instr Line Lowers Reaches codeSize functionLines)
open IR (Func)

/-- The function is the code of `f`. -/
structure LinkedFn.CodeOf (fn : LinkedFn) (f : Func) : Prop where
  verified : f.Verified
  layout : f.layout ≠ []
  lower : Bytecode.lower f = .ok fn.chunk
  arity : fn.arity = f.arity
  imports : fn.imports.size = fn.chunk.imports.size

namespace Image

variable {image : Image} {i : Bytecode.Import} {bound : Option Address}

def Loaded (image : Image) (fn : LinkedFn) : Prop := ∃ k, image.compiled? k = some fn

/-- All loaded functions are the code of functions that are well formed. -/
def Sound (image : Image) : Prop := ∀ fn, image.Loaded fn → ∃ f, fn.CodeOf f

theorem loaded_of_reach {k : Nat} {fn : LinkedFn} (h : image.reach i bound = .ok (.compiled k fn)) :
    image.Loaded fn ∧ fn.arity = i.arity := by
  obtain ⟨address, hc, harity⟩ := reach_eq_ok h
  refine ⟨?_, harity⟩
  cases address with
  | compiled j =>
    obtain ⟨fn', hfn, he⟩ := Option.map_eq_some_iff.1 hc
    cases he
    exact ⟨k, hfn⟩
  | host j =>
    obtain ⟨h, -, he⟩ := Option.map_eq_some_iff.1 hc
    cases he

theorem reach_ne_invalid (name : String) (offset : Nat) :
    image.reach i bound ≠ .error (.invalidInstruction name offset) := by
  unfold reach
  split
  · nofun
  · split
    · nofun
    · split <;> nofun

end Image

/-! ### Positions -/

/-- The offset is that of a line, or of labels with a line behind them. -/
def Bytecode.Position (f : Func) (chunk : Chunk) (ip : Nat) : Prop :=
  ∃ blocks before rest, Lowers f chunk blocks ∧ functionLines f blocks = before ++ rest ∧
    rest ≠ [] ∧ codeSize before = ip

namespace Bytecode

variable {f : Func} {chunk : Chunk} {blocks : List (List Line)} {before rest : List Line}
  {ip : Nat}

/-- A line that does not end its block has another one behind it. -/
theorem Lowers.ne_nil (hl : Lowers f chunk blocks) (hd : f.layout ≠ []) {l : Line}
    (hlines : functionLines f blocks = before ++ l :: rest) (he : l.isEnd = false) :
    rest ≠ [] := by
  rintro rfl
  obtain ⟨init, last, hlast, hend⟩ := functionLines_end hl hd
  obtain ⟨-, hsame⟩ := List.append_inj' (hlines.symm.trans hlast) rfl
  cases hsame
  exact absurd hend (by simp [he])

/-- Behind labels comes an instruction. -/
theorem Lowers.exists_line (hl : Lowers f chunk blocks) (hd : f.layout ≠ [])
    (hlines : functionLines f blocks = before ++ rest) (hrest : rest ≠ []) :
    ∃ before' l after, functionLines f blocks = before' ++ l :: after ∧
      codeSize before' = codeSize before ∧ ∀ place note, l ≠ .label place note := by
  induction rest generalizing before with
  | nil => exact absurd rfl hrest
  | cons l rest ih =>
    cases l with
    | label place note =>
      have hlines' : functionLines f blocks = (before ++ [.label place note]) ++ rest := by
        simpa using hlines
      have hsize : codeSize (before ++ [.label place note]) = codeSize before := by
        rw [codeSize_append]
        rfl
      rw [← hsize]
      exact ih hlines' (hl.ne_nil hd hlines rfl)
    | instr i => exact ⟨before, _, rest, hlines, rfl, nofun⟩
    | jmp t => exact ⟨before, _, rest, hlines, rfl, nofun⟩
    | jmpIfFalse cond t => exact ⟨before, _, rest, hlines, rfl, nofun⟩

/-- The code goes on behind a line, if it goes on there. -/
theorem Lowers.position_next (hl : Lowers f chunk blocks) (hd : f.layout ≠ []) {l : Line}
    (hlines : functionLines f blocks = before ++ l :: rest) (he : l.isEnd = false) :
    Position f chunk (codeSize before + l.size) := by
  refine ⟨blocks, before ++ [l], rest, hl, by simpa using hlines, hl.ne_nil hd hlines he, ?_⟩
  rw [codeSize_append]
  rfl

/-- The code goes on at a label. -/
theorem Lowers.position_label (hl : Lowers f chunk blocks) {t : Target} {offset : Nat}
    (ht : (offsets (functionLines f blocks)).lookup t = some offset) :
    Position f chunk offset.toUInt16.toNat := by
  obtain ⟨before, note, after, hlines, hoffset⟩ := exists_label ht
  rw [hl.assembled.toNat_offset ht]
  exact ⟨blocks, before, _, hl, hlines, List.cons_ne_nil _ _, hoffset⟩

/-- At a position there is an instruction, whose operands exist. -/
theorem Position.exists_instr (hf : f.Verified) (hd : f.layout ≠ []) (h : Position f chunk ip) :
    ∃ i, (ip, i) ∈ chunk.instrs ∧ fetch chunk.code ip = .instr i ∧ i.Fits chunk ∧
      (i.opcode ≠ .jmp → i.opcode ≠ .ret → Position f chunk (ip + i.size)) ∧
      ∀ t, i.target? = some t → Position f chunk t.toNat := by
  obtain ⟨blocks, before, rest, hl, hlines, hrest, rfl⟩ := h
  obtain ⟨before, l, after, hlines, hsize, hlabel⟩ := hl.exists_line hd hlines hrest
  rw [← hsize]
  have hmem : l ∈ functionLines f blocks := by simp [hlines]
  have hfits := fits_functionLines hf hl l hmem
  have hnext := hl.position_next hd hlines
  have hplaced {i : Instr}
      (hi : l.instr? (fun t => (offsets (functionLines f blocks)).lookup t) = some i) :
      (codeSize before, i) ∈ chunk.instrs ∧ fetch chunk.code (codeSize before) = .instr i :=
    ⟨hl.assembled.mem_instrs_iff.2 ⟨before, l, after, hlines, hi, rfl⟩,
      fetch_line hl.assembled.code hl.assembled.resolved hlines hi⟩
  cases l with
  | label place note => exact absurd rfl (hlabel place note)
  | instr i =>
    obtain ⟨hmem, hfetch⟩ := hplaced rfl
    refine ⟨i, hmem, hfetch, hfits.1, fun _ hret => hnext ?_, fun t ht => ?_⟩
    · cases i <;> first | rfl | exact absurd rfl hret
    · simp [hfits.2] at ht
  | jmp t =>
    obtain ⟨offset, ho⟩ := Option.isSome_iff_exists.1 (hl.assembled.resolved _ hmem)
    obtain ⟨hmem, hfetch⟩ := hplaced (congrArg (Option.map _) ho)
    refine ⟨_, hmem, hfetch, trivial, fun hjmp => absurd rfl hjmp, fun t ht => ?_⟩
    cases ht
    exact hl.position_label ho
  | jmpIfFalse cond t =>
    obtain ⟨offset, ho⟩ := Option.isSome_iff_exists.1 (hl.assembled.resolved _ hmem)
    obtain ⟨hmem, hfetch⟩ := hplaced (congrArg (Option.map _) ho)
    refine ⟨_, hmem, hfetch, hfits, fun _ _ => hnext rfl, fun t ht => ?_⟩
    cases ht
    exact hl.position_label ho

end Bytecode

/-! ### Operands -/

/-- As many bytes are in front of the code of a laid out block, or of the copies for the way that its
branch goes if the condition fails. -/
def Bytecode.Destination (f : Func) (blocks : List (List Line)) (offset : Nat) : Prop :=
  ∃ before place note rest b n,
    functionLines f blocks = before ++ .label place note :: rest ∧ codeSize before = offset ∧
      f.layout[n]? = some b ∧ Labelled f b n place rest

/-- All operands of the function's code exist, and it jumps only to instructions, where blocks of `f`
begin or ways between them. -/
structure LinkedFn.Valid (fn : LinkedFn) (f : Func) : Prop where
  operands {n : Nat} {i : Instr} : (n, i) ∈ fn.chunk.instrs → i.Fits fn.chunk
  jumps : ∃ blocks, Lowers f fn.chunk blocks ∧
    ∀ {n i t}, (n, i) ∈ fn.chunk.instrs → i.target? = some t →
      Bytecode.Destination f blocks t.toNat ∧ t.toNat ∈ fn.chunk.instrs.map Prod.fst
  imports : fn.imports.size = fn.chunk.imports.size
  arity_le : fn.arity ≤ fn.chunk.registers

/-- Labels mark where blocks begin or ways between them. -/
theorem Bytecode.Lowers.destination {f : Func} {chunk : Chunk} {blocks : List (List Line)}
    (hl : Lowers f chunk blocks) {place : Target} {offset : Nat}
    (ho : (offsets (functionLines f blocks)).lookup place = some offset) :
    Destination f blocks offset := by
  obtain ⟨before, note, rest, hlines, hsize⟩ := exists_label ho
  obtain ⟨b, n, hb, hlabelled⟩ := hl.labelled hlines
  exact ⟨before, place, note, rest, b, n, hlines, hsize, List.mem_zipIdx_iff_getElem?.1 hb,
    hlabelled⟩

theorem Bytecode.Line.Fits.instr {offset? : Bytecode.Target → Option Nat} {chunk : Chunk}
    {l : Line} {i : Instr} (h : l.Fits chunk) (hi : l.instr? offset? = some i) :
    i.Fits chunk ∧ ∀ t, i.target? = some t →
      ∃ place offset, offset? place = some offset ∧ t = offset.toUInt16 := by
  cases l with
  | instr j =>
    cases hi
    exact ⟨h.1, fun t ht => nomatch h.2.symm.trans ht⟩
  | label place note => cases hi
  | jmp place =>
    obtain ⟨offset, ho, rfl⟩ := Option.map_eq_some_iff.1 hi
    refine ⟨trivial, fun t ht => ?_⟩
    cases ht
    exact ⟨place, offset, ho, rfl⟩
  | jmpIfFalse cond place =>
    obtain ⟨offset, ho, rfl⟩ := Option.map_eq_some_iff.1 hi
    refine ⟨h, fun t ht => ?_⟩
    cases ht
    exact ⟨place, offset, ho, rfl⟩

/-- A function begins at its first instruction, with room for its arguments. -/
theorem LinkedFn.CodeOf.position_zero {fn : LinkedFn} {f : Func} (hf : fn.CodeOf f) :
    Bytecode.Position f fn.chunk 0 ∧ fn.arity ≤ fn.chunk.registers := by
  obtain ⟨blocks, hl⟩ := Bytecode.lowers_of_eq_ok hf.verified hf.lower
  obtain ⟨init, last, hlines, -⟩ := Bytecode.functionLines_end hl hf.layout
  exact ⟨⟨blocks, [], init ++ [last], hl, hlines, by simp, rfl⟩, hf.arity ▸ hl.arity_le⟩

theorem LinkedFn.CodeOf.valid {fn : LinkedFn} {f : Func} (hf : fn.CodeOf f) : fn.Valid f := by
  obtain ⟨blocks, hl⟩ := Bytecode.lowers_of_eq_ok hf.verified hf.lower
  have hplaced {n : Nat} {i : Instr} (hi : (n, i) ∈ fn.chunk.instrs) :
      i.Fits fn.chunk ∧ ∀ t, i.target? = some t → ∃ place offset,
        (Bytecode.offsets (functionLines f blocks)).lookup place = some offset ∧
          t = offset.toUInt16 := by
    obtain ⟨before, l, after, hlines, hi, -⟩ := hl.assembled.mem_instrs_iff.1 hi
    exact (Bytecode.fits_functionLines hf.verified hl l (by simp [hlines])).instr hi
  refine ⟨fun hi => (hplaced hi).1, ⟨blocks, hl, ?_⟩, hf.imports, hf.position_zero.2⟩
  intro n i t hi ht
  obtain ⟨place, offset, ho, rfl⟩ := (hplaced hi).2 t ht
  obtain ⟨i', hi', -⟩ := (hl.position_label ho).exists_instr hf.verified hf.layout
  have hoffset : offset.toUInt16.toNat = offset := hl.assembled.toNat_offset ho
  exact ⟨hoffset.symm ▸ hl.destination ho, List.mem_map_of_mem hi'⟩

/-! ### Frames -/

/-- The frame runs a loaded function and goes on at one of its instructions. -/
def Frame.Runs (image : Image) (fr : Frame) : Prop :=
  image.Loaded fr.fn ∧ ∃ f, fr.fn.CodeOf f ∧ Bytecode.Position f fr.fn.chunk fr.ip

theorem Frame.Runs.valid {image : Image} {fr : Frame} (h : fr.Runs image) :
    (∃ f, fr.fn.CodeOf f ∧ fr.fn.Valid f) ∧ fr.ip ∈ fr.fn.chunk.instrs.map Prod.fst := by
  obtain ⟨-, f, hf, hip⟩ := h
  obtain ⟨i, hi, -⟩ := hip.exists_instr hf.verified hf.layout
  exact ⟨⟨f, hf, hf.valid⟩, List.mem_map_of_mem hi⟩

/-- The frame can go on with a result in `dst`. -/
def Frame.Awaits (image : Image) (fr : Frame) (dst : UInt16) : Prop :=
  fr.Runs image ∧ dst.toNat < fr.fn.chunk.registers

namespace Machine

/-- The current frame runs the code of `f`, goes on at one of its instructions, and has its registers
on the stack. -/
structure Sits (f : Func) (m : Machine) : Prop where
  code : m.frame.fn.CodeOf f
  position : Bytecode.Position f m.frame.fn.chunk m.frame.ip
  size : m.frame.base + m.frame.fn.chunk.registers ≤ m.registers.size

/-- What such a frame does next: it goes on, calls, or returns. -/
inductive Doing (f : Func) (image : Image) (maxDepth : Nat) (m : Machine) : Prop where
  | act {m' : Machine} (hact : m.act image maxDepth = .next (.next m')) (hsits : m'.Sits f)
  | call {dst index first : UInt16} {i : Bytecode.Import} {bound : Option Address}
      (hi : Bytecode.fetch m.frame.fn.chunk.code m.frame.ip = .instr (.call dst index first))
      (himport : m.frame.fn.chunk.imports[index.toNat]? = some i)
      (hbound : m.frame.fn.imports[index.toNat]? = some bound)
      (hdst : dst.toNat < m.frame.fn.chunk.registers)
      (hargs : first.toNat + i.arity ≤ m.frame.fn.chunk.registers)
      (hnext : Bytecode.Position f m.frame.fn.chunk (m.frame.ip + 7))
  | ret {src : UInt16} {v : Float}
      (hi : Bytecode.fetch m.frame.fn.chunk.code m.frame.ip = .instr (.ret src))
      (hv : m.register? src = some v)

variable {image : Image} {maxDepth : Nat} {m m' : Machine}

theorem exists_at (hsize : m.frame.base + m.frame.fn.chunk.registers ≤ m.registers.size) :
    ∃ regs, m.At m.frame.fn.chunk m.frame.ip regs := by
  refine ⟨fun k => m.registers.getD (m.frame.base + k) 0.0, rfl, rfl, hsize, fun {k} hk => ?_⟩
  have hlt : m.frame.base + k < m.registers.size := by omega
  simp [Array.getD_eq_getD_getElem?, hlt]

theorem Sits.doing_of_act {f : Func} (h : m.Sits f) {ip : Nat} {regs : Nat → Float}
    (hip : Bytecode.Position f m.frame.fn.chunk ip)
    (hact : m.act image maxDepth = .next (.next m')) (hat : m'.At m.frame.fn.chunk ip regs) :
    Doing f image maxDepth m := by
  have hadv := (advances_of_act hact).2.1
  exact .act hact ⟨hadv.fn ▸ h.code, by rwa [hat.fn, hat.ip], hat.fn ▸ hat.size⟩

theorem Sits.doing {f : Func} (h : m.Sits f) : Doing f image maxDepth m := by
  obtain ⟨i, -, hfetch, hfits, hnext, htarget⟩ :=
    h.position.exists_instr h.code.verified h.code.layout
  obtain ⟨regs, hat⟩ := exists_at h.size
  cases i with
  | ldc dst k =>
    obtain ⟨m', hact, hat'⟩ := hat.ldc hfetch hfits.1 (Array.getElem?_eq_getElem hfits.2)
    exact h.doing_of_act (hnext nofun nofun) hact hat'
  | mov dst src =>
    obtain ⟨m', hact, hat'⟩ := hat.mov hfetch hfits.1 hfits.2
    exact h.doing_of_act (hnext nofun nofun) hact hat'
  | binary op dst left right =>
    obtain ⟨m', hact, hat'⟩ := hat.binary hfetch hfits.1 hfits.2.1 hfits.2.2
    exact h.doing_of_act (by cases op <;> exact hnext nofun nofun) hact hat'
  | compare test dst left right =>
    obtain ⟨m', hact, hat'⟩ := hat.compare hfetch hfits.1 hfits.2.1 hfits.2.2
    exact h.doing_of_act (by cases test <;> exact hnext nofun nofun) hact hat'
  | jmp target =>
    obtain ⟨m', hact, hat'⟩ := hat.jmp hfetch
    exact h.doing_of_act (htarget target rfl) hact hat'
  | jmpIfFalse cond target =>
    obtain ⟨m', hact, hat'⟩ := hat.jmpIfFalse hfetch hfits
    refine h.doing_of_act ?_ hact hat'
    split
    · exact htarget target rfl
    · exact hnext nofun nofun
  | call dst index first =>
    obtain ⟨hdst, i, himport, hargs⟩ := hfits
    have hindex : index.toNat < m.frame.fn.imports.size :=
      h.code.imports ▸ (Array.getElem?_eq_some_iff.1 himport).1
    exact .call hfetch himport (Array.getElem?_eq_getElem hindex) hdst hargs (hnext nofun nofun)
  | ret src => exact .ret hfetch (hat.register? hfits)

/-- A new frame is at the first instruction. -/
theorem Begins.sits {f : Func} {args : List Float} (h : m.Begins args) (hf : m.frame.fn.CodeOf f)
    (hargs : args.length = m.frame.fn.arity) : m.Sits f := by
  obtain ⟨hstart, harity⟩ := hf.position_zero
  have hat := h.at (hargs ▸ harity)
  exact ⟨hf, by rwa [hat.ip], hat.size⟩

/-! ### Safe machines -/

/-- Every frame runs a loaded function, and the stack has room for all their registers. -/
structure Safe (image : Image) (m : Machine) : Prop where
  loaded : image.Loaded m.frame.fn
  sits : ∃ f, m.Sits f
  waiting : Frames (Frame.Awaits image) m.frame.base m.frame.dst m.waiting

/-- How the run of safe code can stop. -/
inductive Halts (image : Image) (maxDepth : Nat) (fn : LinkedFn) :
    Except RuntimeError Float → Prop where
  | returned (v : Float) : Halts image maxDepth fn (.ok v)
  | tooDeep : Halts image maxDepth fn (.error (.stackOverflow maxDepth))
  /-- A call reached no function. -/
  | unreached {index : Nat} {i : Bytecode.Import} {bound : Option Address} {e : RuntimeError}
      (hi : fn.chunk.imports[index]? = some i) (hbound : fn.imports[index]? = some bound)
      (he : image.reach i bound = .error e) : Halts image maxDepth fn (.error e)

theorem Halts.ne_invalid {image : Image} {maxDepth : Nat} {fn : LinkedFn}
    {r : Except RuntimeError Float} (h : Halts image maxDepth fn r) (name : String) (offset : Nat) :
    r ≠ .error (.invalidInstruction name offset) := by
  cases h with
  | returned v => nofun
  | tooDeep => nofun
  | unreached hi hbound he =>
    rintro ⟨⟩
    exact Image.reach_ne_invalid name offset he

/-- What a step does if all is well. -/
def Outcome (image : Image) (maxDepth : Nat) (m : Machine) : Step → Prop
  | .next m' => m'.Safe image
  | .stop s => Halts image maxDepth m.frame.fn s.result

/-- A frame that has gone on is safe where it was before. -/
theorem Safe.of_advances (h : m.Safe image) (hadv : m.Advances m') {f : Func}
    (hsits : m'.Sits f) : m'.Safe image := by
  refine ⟨hadv.fn ▸ h.loaded, ⟨f, hsits⟩, ?_⟩
  rw [hadv.base, hadv.dst, hadv.waiting]
  exact h.waiting

theorem Safe.assign (h : m.Safe image) {f : Func} (hf : m.Sits f) {offset : Nat}
    (hip : Bytecode.Position f m.frame.fn.chunk offset) {r : UInt16}
    (hr : r.toNat < m.frame.fn.chunk.registers) (v : Float) :
    ∃ m', m.assign r v offset = .next m' ∧ m'.Safe image := by
  obtain ⟨regs, hat⟩ := exists_at hf.size
  obtain ⟨m', hm', hat'⟩ := hat.assign hr v offset
  have hadv := (advances_assign hm').1
  exact ⟨m', hm', h.of_advances hadv
    ⟨hadv.fn ▸ hf.code, by rwa [hat'.fn, hat'.ip], hat'.fn ▸ hat'.size⟩⟩

/-- A call with as many arguments as the function takes is safe. -/
theorem Safe.enter (himage : image.Sound) (h : m.Safe image) {f : Func} (hf : m.Sits f)
    {offset : Nat} (hip : Bytecode.Position f m.frame.fn.chunk offset) {dst : UInt16}
    (hdst : dst.toNat < m.frame.fn.chunk.registers) {callee : LinkedFn} (hc : image.Loaded callee)
    {args : List Float} (hargs : args.length = callee.arity) :
    m.Outcome image maxDepth (m.enter maxDepth callee args dst offset) := by
  have henter := m.enter_eq maxDepth callee args dst offset hf.size
  split at henter
  · rw [henter]
    exact .tooDeep
  · obtain ⟨m', hm', hnew⟩ := henter
    obtain ⟨g, hg⟩ := himage callee hc
    have hfn : m'.frame.fn = callee := by rw [hnew.frame]
    let caller : Frame := { m.frame with ip := offset }
    have hcaller : caller.Awaits image dst := ⟨⟨h.loaded, f, hf.code, hip⟩, hdst⟩
    rw [hm']
    refine ⟨hfn ▸ hc, ⟨g, hnew.begins.sits (hfn ▸ hg) (hfn ▸ hargs)⟩, ?_⟩
    rw [hnew.frame, hnew.waiting]
    exact .cons hcaller h.waiting

/-- The frame that waits goes on with the result. -/
theorem Safe.leave (h : m.Safe image) (v : Float) : m.Outcome image maxDepth (m.leave v) := by
  have hleave := m.leave_eq v
  have hwaiting := h.waiting
  split at hleave
  · rw [hleave]
    exact .returned v
  · next fr frs hw =>
    obtain ⟨callers, hcallers, hleave⟩ := hleave
    obtain ⟨g, hg⟩ := h.sits
    have hsize := hg.size
    rw [hw] at hwaiting
    generalize hbase : m.frame.base = base at hwaiting
    cases hwaiting with
    | cons hfr hrest =>
      obtain ⟨⟨hloaded, f, hf, hip⟩, hdst⟩ := hfr
      have hsits : Sits f { m with frame := fr, callers } := by
        refine ⟨hf, hip, ?_⟩
        show fr.base + fr.fn.chunk.registers ≤ m.registers.size
        omega
      have hsafe : Safe image { m with frame := fr, callers } := by
        refine ⟨hloaded, ⟨f, hsits⟩, ?_⟩
        show Frames _ fr.base fr.dst callers.toList.reverse
        rwa [hcallers]
      obtain ⟨m', hm', hsafe'⟩ := hsafe.assign hsits hip hdst v
      rw [hleave, hm']
      exact hsafe'

/-- A safe machine makes a step to a safe one, or stops as safe code does. -/
theorem Safe.step (himage : image.Sound) (h : m.Safe image) :
    m.Outcome image maxDepth (m.step image maxDepth) := by
  obtain ⟨f, hf⟩ := h.sits
  have hdoing : Doing f image maxDepth m := hf.doing
  cases hdoing with
  | act hact hsits =>
    obtain ⟨hstep, hadv, -⟩ := advances_of_act hact
    rw [hstep]
    exact h.of_advances hadv hsits
  | @call dst index first i bound hi himport hbound hdst hargs hnext =>
    have hsize : m.frame.base + first.toNat + i.arity ≤ m.registers.size := by
      have := hf.size
      omega
    rw [step_call hi himport hbound hsize]
    cases hr : image.reach i bound with
    | error e => exact .unreached himport hbound hr
    | ok callee =>
      cases callee with
      | host host =>
        have hsafe : Safe image { m with
            effects := m.effects ++ (host.call (m.callArgs first i.arity)).2.toArray } :=
          ⟨h.loaded, ⟨f, hf.code, hf.position, hf.size⟩, h.waiting⟩
        obtain ⟨m', hm', hsafe'⟩ := hsafe.assign ⟨hf.code, hf.position, hf.size⟩ hnext hdst
          (host.call (m.callArgs first i.arity)).1
        show m.Outcome image maxDepth (m.callHost host (m.callArgs first i.arity) dst _)
        rw [callHost_eq, hm']
        exact hsafe'
      | compiled k callee =>
        obtain ⟨hloaded, harity⟩ := Image.loaded_of_reach hr
        exact h.enter himage hf hnext hdst hloaded ((length_callArgs hsize).trans harity.symm)
  | ret hi hv =>
    rw [step_ret hi hv]
    exact h.leave _

/-- All machines that are reached from a safe one are safe. -/
theorem Safe.leads (himage : image.Sound) (h : m.Safe image) (hm : m.Leads image maxDepth m') :
    m'.Safe image := by
  induction hm with
  | refl => exact h
  | @tail m₁ m₂ _ hs ih =>
    have hout : m₁.Outcome image maxDepth (m₁.step image maxDepth) := ih.step himage
    rwa [hs] at hout

/-- Every frame goes on at an instruction of the valid code of a function; the frames lie one on the
other, and the stack holds the registers of all of them. -/
structure InBounds (m : Machine) : Prop where
  code : ∀ fr ∈ m.frame :: m.waiting,
    (∃ f, fr.fn.CodeOf f ∧ fr.fn.Valid f) ∧ fr.ip ∈ fr.fn.chunk.instrs.map Prod.fst
  size : m.frame.base + m.frame.fn.chunk.registers ≤ m.registers.size
  stack : Frames (fun fr dst => dst.toNat < fr.fn.chunk.registers) m.frame.base m.frame.dst
    m.waiting

theorem Safe.inBounds (h : m.Safe image) : m.InBounds := by
  obtain ⟨f, hf⟩ := h.sits
  have htop : m.frame.Runs image := ⟨h.loaded, f, hf.code, hf.position⟩
  refine ⟨List.forall_mem_cons.2 ⟨htop.valid, fun fr hfr => ?_⟩, hf.size,
    h.waiting.imp fun _ _ hfr => hfr.2⟩
  obtain ⟨dst, hruns, -⟩ := h.waiting.forall_mem fr hfr
  exact hruns.valid

theorem safe_start (himage : image.Sound) {fn : LinkedFn} (hfn : image.Loaded fn)
    {args : List Float} (hargs : args.length = fn.arity) : (start fn args).Safe image := by
  obtain ⟨f, hf⟩ := himage fn hfn
  exact ⟨hfn, ⟨f, (begins_start fn args).sits hf hargs⟩, .nil 0⟩

end Machine

/-- A call of loaded code ends as safe code does. -/
theorem Image.Sound.call {image : Image} (himage : image.Sound) {maxDepth fuel k : Nat}
    {fn : LinkedFn} (hfn : image.compiled? k = some fn) {args : List Float}
    (hargs : fn.arity = args.length) {stop : Stop}
    (h : image.call maxDepth fuel (.compiled k) args = some stop) :
    ∃ fn, image.Loaded fn ∧ Machine.Halts image maxDepth fn stop.result := by
  simp only [Image.call, hfn, hargs, if_true] at h
  obtain ⟨m, hleads, hstop⟩ := Machine.exists_leads_of_run h
  have hsafe := (Machine.safe_start himage ⟨k, hfn⟩ hargs.symm).leads himage hleads
  have hout : m.Outcome image maxDepth (m.step image maxDepth) := hsafe.step himage
  rw [hstop] at hout
  exact ⟨m.frame.fn, hsafe.loaded, hout⟩

end ScalarLang
