import ScalarLang.Machine
import ScalarLang.Proofs.Bytecode.Copies
import ScalarLang.Proofs.Bytecode.Encoding
import ScalarLang.Proofs.Process

/-! The run of one frame of the machine. Calls that the code of the frame makes are answered from
outside, and the run ends where the frame returns; everything else is what the machine does. -/

namespace ScalarLang

open Bytecode (Chunk Copy Instr Line fetch runMoves)

namespace Machine

/-- The values of `n` registers of the current frame. -/
def callArgs (m : Machine) (first : UInt16) (n : Nat) : List Float :=
  (m.registers.extract (m.frame.base + first.toNat) (m.frame.base + first.toNat + n)).toList

/-- What the code of the current frame does next. -/
def act (image : Image) (maxDepth : Nat) (m : Machine) : Action Step :=
  match fetch m.frame.fn.chunk.code m.frame.ip with
  | .instr (.call dst index first) =>
    match m.frame.fn.chunk.imports[index.toNat]? with
    | some i =>
      if m.registers.size < m.frame.base + first.toNat + i.arity then .stuck
      else .ask ⟨i.name, m.callArgs first i.arity⟩ fun v => m.assign dst v (m.frame.ip + 7)
    | none => .stuck
  | .instr (.ret src) =>
    match m.register? src with
    | some v => .done v
    | none => .stuck
  | _ => .next (m.step image maxDepth)

end Machine

/-- The run of a frame can only end with a value or stop. -/
def Step.act (image : Image) (maxDepth : Nat) : Step → Action Step
  | .next m => m.act image maxDepth
  | .stop _ => .stuck

namespace Machine

/-- The run of the current frame. -/
def process (image : Image) (maxDepth : Nat) (m : Machine) : Process :=
  ⟨Step, Step.act image maxDepth, .next m⟩

/-- The machine begins to run a function in a new frame. -/
structure Begins (m : Machine) (args : List Float) : Prop where
  ip : m.frame.ip = 0
  registers : ∃ below, m.frame.base ≤ below.size ∧
    m.registers = pushWindow below m.frame.base m.frame.fn.chunk.registers args

theorem begins_start (fn : LinkedFn) (args : List Float) : (start fn args).Begins args :=
  ⟨rfl, #[], Nat.le_refl 0, rfl⟩

theorem act_call {image : Image} {maxDepth : Nat} {m : Machine} {dst index first : UInt16}
    {i : Bytecode.Import}
    (hi : fetch m.frame.fn.chunk.code m.frame.ip = .instr (.call dst index first))
    (himport : m.frame.fn.chunk.imports[index.toNat]? = some i)
    (hsize : m.frame.base + first.toNat + i.arity ≤ m.registers.size) :
    m.act image maxDepth =
      .ask ⟨i.name, m.callArgs first i.arity⟩ fun v => m.assign dst v (m.frame.ip + 7) := by
  simp only [act, hi, himport, Nat.not_lt.2 hsize, if_false]

/-! ### Registers of a frame -/

/-- The current frame runs `chunk`, goes on at `ip`, and has `regs` in its registers. -/
structure At (m : Machine) (chunk : Chunk) (ip : Nat) (regs : Nat → Float) : Prop where
  fn : m.frame.fn.chunk = chunk
  ip : m.frame.ip = ip
  size : m.frame.base + chunk.registers ≤ m.registers.size
  register {k : Nat} : k < chunk.registers → m.registers[m.frame.base + k]? = some (regs k)

variable {image : Image} {maxDepth : Nat} {m : Machine} {chunk : Chunk} {ip : Nat}
  {regs : Nat → Float}

theorem At.register? (h : m.At chunk ip regs) {r : UInt16} (hr : r.toNat < chunk.registers) :
    m.register? r = some (regs r.toNat) := h.register hr

theorem At.jump (h : m.At chunk ip regs) (offset : Nat) :
    ∃ m', m.jump offset = .next m' ∧ m'.At chunk offset regs :=
  ⟨_, rfl, h.fn, rfl, h.size, h.register⟩

theorem At.assign (h : m.At chunk ip regs) {r : UInt16} (hr : r.toNat < chunk.registers)
    (v : Float) (offset : Nat) :
    ∃ m', m.assign r v offset = .next m' ∧
      m'.At chunk offset (Function.update regs r.toNat v) := by
  have hlt : m.frame.base + r.toNat < m.registers.size :=
    Nat.lt_of_lt_of_le (Nat.add_lt_add_left hr _) h.size
  refine ⟨_, if_pos hlt, h.fn, rfl, ?_, fun {k} hk => ?_⟩
  · rw [Array.size_setIfInBounds]
    exact h.size
  · rw [Array.getElem?_setIfInBounds]
    by_cases hkr : k = r.toNat
    · simp [hkr, hlt]
    · rw [if_neg (fun he => hkr (Nat.add_left_cancel he).symm), Function.update_of_ne hkr]
      exact h.register hk

theorem At.combine (h : m.At chunk ip regs) {dst left right : UInt16}
    (hd : dst.toNat < chunk.registers) (hl : left.toNat < chunk.registers)
    (hr : right.toNat < chunk.registers) (f : Float → Float → Float) :
    ∃ m', m.combine f dst left right = .next m' ∧ m'.At chunk (ip + 7)
      (Function.update regs dst.toNat (f (regs left.toNat) (regs right.toNat))) := by
  obtain ⟨m', hm', hat⟩ := h.assign hd (f (regs left.toNat) (regs right.toNat)) (ip + 7)
  refine ⟨m', ?_, hat⟩
  simp only [Machine.combine, h.register? hl, h.register? hr, h.ip, hm']

/-- A new frame has the arguments in its first registers, and zeros in the others. -/
theorem Begins.at {args : List Float} (h : m.Begins args)
    (hargs : args.length ≤ m.frame.fn.chunk.registers) :
    m.At m.frame.fn.chunk 0 fun k => args.getD k 0.0 := by
  obtain ⟨below, hbase, hregs⟩ := h.registers
  have hlist : m.registers.toList = below.toList.take m.frame.base ++
      (args ++ List.replicate (m.frame.fn.chunk.registers - args.length) 0.0) := by
    simp [hregs, pushWindow]
  have hlength : (below.toList.take m.frame.base).length = m.frame.base := by simp [hbase]
  refine ⟨rfl, h.ip, ?_, fun {k} hk => ?_⟩
  · have := congrArg List.length hlist
    simp only [Array.length_toList, List.length_append, hlength, List.length_replicate] at this
    omega
  · rw [← Array.getElem?_toList, hlist, List.getElem?_append_right (by omega), hlength,
      Nat.add_sub_cancel_left, List.getD_eq_getElem?_getD]
    by_cases hlt : k < args.length
    · rw [List.getElem?_append_left hlt, List.getElem?_eq_getElem hlt]
      rfl
    · rw [List.getElem?_append_right (Nat.not_lt.1 hlt), List.getElem?_replicate,
        if_pos (by omega), List.getElem?_eq_none (Nat.not_lt.1 hlt)]
      rfl

/-! ### Instructions -/

theorem At.act_eq (h : m.At chunk ip regs) {i : Instr} (hi : fetch chunk.code ip = .instr i)
    (hcall : i.opcode ≠ .call) (hret : i.opcode ≠ .ret) :
    m.act image maxDepth = .next (m.exec image maxDepth i) := by
  unfold act Machine.step
  rw [h.fn, h.ip, hi]
  cases i <;> first | rfl | exact absurd rfl hcall | exact absurd rfl hret

theorem At.ldc (h : m.At chunk ip regs) {dst k : UInt16} {v : Float}
    (hi : fetch chunk.code ip = .instr (.ldc dst k)) (hd : dst.toNat < chunk.registers)
    (hv : chunk.constants[k.toNat]? = some v) :
    ∃ m', m.act image maxDepth = .next (.next m') ∧
      m'.At chunk (ip + 5) (Function.update regs dst.toNat v) := by
  obtain ⟨m', hm', hat⟩ := h.assign hd v (ip + 5)
  refine ⟨m', ?_, hat⟩
  rw [h.act_eq hi nofun nofun]
  simp only [exec, h.fn, h.ip, hv, hm']

theorem At.mov (h : m.At chunk ip regs) {dst src : UInt16}
    (hi : fetch chunk.code ip = .instr (.mov dst src)) (hd : dst.toNat < chunk.registers)
    (hs : src.toNat < chunk.registers) :
    ∃ m', m.act image maxDepth = .next (.next m') ∧
      m'.At chunk (ip + 5) (Function.update regs dst.toNat (regs src.toNat)) := by
  obtain ⟨m', hm', hat⟩ := h.assign hd (regs src.toNat) (ip + 5)
  refine ⟨m', ?_, hat⟩
  rw [h.act_eq hi nofun nofun]
  simp only [exec, h.register? hs, h.ip, hm']

theorem At.binary (h : m.At chunk ip regs) {op : IR.BinaryOp} {dst left right : UInt16}
    (hi : fetch chunk.code ip = .instr (.binary op dst left right))
    (hd : dst.toNat < chunk.registers) (hl : left.toNat < chunk.registers)
    (hr : right.toNat < chunk.registers) :
    ∃ m', m.act image maxDepth = .next (.next m') ∧ m'.At chunk (ip + 7)
      (Function.update regs dst.toNat (op.apply (regs left.toNat) (regs right.toNat))) := by
  obtain ⟨m', hm', hat⟩ := h.combine hd hl hr op.apply
  refine ⟨m', ?_, hat⟩
  rw [h.act_eq hi (by cases op <;> nofun) (by cases op <;> nofun)]
  exact congrArg Action.next hm'

theorem At.compare (h : m.At chunk ip regs) {test : IR.Comparison} {dst left right : UInt16}
    (hi : fetch chunk.code ip = .instr (.compare test dst left right))
    (hd : dst.toNat < chunk.registers) (hl : left.toNat < chunk.registers)
    (hr : right.toNat < chunk.registers) :
    ∃ m', m.act image maxDepth = .next (.next m') ∧ m'.At chunk (ip + 7)
      (Function.update regs dst.toNat
        (IR.boolValue (test.apply (regs left.toNat) (regs right.toNat)))) := by
  obtain ⟨m', hm', hat⟩ := h.combine hd hl hr fun a b => IR.boolValue (test.apply a b)
  refine ⟨m', ?_, hat⟩
  rw [h.act_eq hi (by cases test <;> nofun) (by cases test <;> nofun)]
  exact congrArg Action.next hm'

theorem At.jmp (h : m.At chunk ip regs) {target : UInt16}
    (hi : fetch chunk.code ip = .instr (.jmp target)) :
    ∃ m', m.act image maxDepth = .next (.next m') ∧ m'.At chunk target.toNat regs := by
  obtain ⟨m', hm', hat⟩ := h.jump target.toNat
  refine ⟨m', ?_, hat⟩
  rw [h.act_eq hi nofun nofun]
  exact congrArg Action.next hm'

theorem At.jmpIfFalse (h : m.At chunk ip regs) {cond target : UInt16}
    (hi : fetch chunk.code ip = .instr (.jmpIfFalse cond target))
    (hc : cond.toNat < chunk.registers) :
    ∃ m', m.act image maxDepth = .next (.next m') ∧
      m'.At chunk (if regs cond.toNat == 0.0 then target.toNat else ip + 5) regs := by
  obtain ⟨m', hm', hat⟩ := h.jump (if regs cond.toNat == 0.0 then target.toNat else ip + 5)
  refine ⟨m', ?_, hat⟩
  rw [h.act_eq hi nofun nofun]
  simp only [exec, h.register? hc, h.ip, hm']

theorem At.ret (h : m.At chunk ip regs) {src : UInt16}
    (hi : fetch chunk.code ip = .instr (.ret src)) (hs : src.toNat < chunk.registers) :
    m.act image maxDepth = .done (regs src.toNat) := by
  unfold act
  rw [h.fn, h.ip, hi]
  simp only [h.register? hs]

/-- The arguments of a call are in consecutive registers. -/
theorem At.callArgs (h : m.At chunk ip regs) {first : UInt16} {n : Nat}
    (hn : first.toNat + n ≤ chunk.registers) :
    m.callArgs first n = (List.range n).map fun k => regs (first.toNat + k) := by
  have hsize := h.size
  have hwidth : min (m.frame.base + first.toNat + n) m.registers.size -
      (m.frame.base + first.toNat) = n := by
    omega
  refine List.ext_getElem? fun k => ?_
  rw [Machine.callArgs, Array.getElem?_toList, Array.getElem?_extract, List.getElem?_map, hwidth]
  by_cases hk : k < n
  · have hreg := h.register (Nat.lt_of_lt_of_le (Nat.add_lt_add_left hk first.toNat) hn)
    rw [if_pos hk, Nat.add_assoc, hreg, List.getElem?_range hk, Option.map_some]
  · rw [if_neg hk, List.getElem?_eq_none (by simpa using hk), Option.map_none]

theorem At.call (h : m.At chunk ip regs) {dst index first : UInt16}
    (hi : fetch chunk.code ip = .instr (.call dst index first)) {i : Bytecode.Import}
    (hindex : chunk.imports[index.toNat]? = some i) (hd : dst.toNat < chunk.registers)
    (hargs : first.toNat + i.arity ≤ chunk.registers) :
    ∃ resume, m.act image maxDepth =
        .ask ⟨i.name, (List.range i.arity).map fun k => regs (first.toNat + k)⟩ resume ∧
      ∀ v, ∃ m', resume v = .next m' ∧
        m'.At chunk (ip + 7) (Function.update regs dst.toNat v) := by
  have hsize : m.frame.base + first.toNat + i.arity ≤ m.registers.size := by
    have := h.size
    omega
  refine ⟨fun v => m.assign dst v (m.frame.ip + 7), ?_, fun v => h.ip ▸ h.assign hd v _⟩
  rw [← h.callArgs hargs]
  exact act_call (by rw [h.fn, h.ip, hi]) (by rw [h.fn, hindex]) hsize

end Machine

/-! ### Lines -/

namespace Bytecode

theorem toNat_toUInt16 {n : Nat} (h : n ≤ maxOperand) : n.toUInt16.toNat = n := by
  unfold maxOperand at h
  simp
  omega

/-- The code of the chunk is made from these lines. -/
structure Assembled (chunk : Chunk) (lines : List Line) : Prop where
  code : chunk.code.toList = lines.flatMap (Line.bytes fun t => (offsets lines).lookup t)
  resolved : ∀ l ∈ lines, l.Resolved fun t => (offsets lines).lookup t
  size_le : codeSize lines ≤ maxOperand
  registers_le : chunk.registers ≤ maxOperand

/-- The current frame goes on with `rest`, which is the end of the lines. -/
def Reaches (chunk : Chunk) (lines rest : List Line) (regs : Nat → Float) (m : Machine) : Prop :=
  ∃ before, lines = before ++ rest ∧ m.At chunk (codeSize before) regs

namespace Reaches

variable {chunk : Chunk} {lines rest : List Line} {regs : Nat → Float} {m : Machine} {l : Line}
  {image : Image} {maxDepth : Nat}

/-- Labels take no room. -/
theorem label {place : Target} {note : String}
    (h : Reaches chunk lines (.label place note :: rest) regs m) :
    Reaches chunk lines rest regs m := by
  obtain ⟨before, hlines, hm⟩ := h
  refine ⟨before ++ [.label place note], by simpa using hlines, ?_⟩
  rwa [codeSize_append]

theorem fetch (h : Reaches chunk lines (l :: rest) regs m) (ha : Assembled chunk lines) {i : Instr}
    (hi : l.instr? (fun t => (offsets lines).lookup t) = some i) :
    ∃ ip, m.At chunk ip regs ∧ Bytecode.fetch chunk.code ip = .instr i ∧
      ∀ {m' regs'}, m'.At chunk (ip + l.size) regs' → Reaches chunk lines rest regs' m' := by
  obtain ⟨before, hlines, hm⟩ := h
  refine ⟨codeSize before, hm, fetch_line ha.code ha.resolved hlines hi, fun {m' regs'} h => ?_⟩
  refine ⟨before ++ [l], by simpa using hlines, ?_⟩
  rw [codeSize_append]
  exact h

variable {m₀ : Machine}

theorem ldc {dst k : UInt16} {v : Float}
    (h : Reaches chunk lines (.instr (.ldc dst k) :: rest) regs m) (ha : Assembled chunk lines)
    (hd : dst.toNat < chunk.registers) (hv : chunk.constants[k.toNat]? = some v) :
    ∃ m', (m₀.process image maxDepth).Moves (.next m) (.next m') ∧
      Reaches chunk lines rest (Function.update regs dst.toNat v) m' := by
  obtain ⟨ip, hm, hi, hnext⟩ := h.fetch ha rfl
  obtain ⟨m', hact, hm'⟩ := hm.ldc hi hd hv
  exact ⟨m', hact, hnext hm'⟩

theorem mov {dst src : UInt16} (h : Reaches chunk lines (.instr (.mov dst src) :: rest) regs m)
    (ha : Assembled chunk lines) (hd : dst.toNat < chunk.registers)
    (hs : src.toNat < chunk.registers) :
    ∃ m', (m₀.process image maxDepth).Moves (.next m) (.next m') ∧
      Reaches chunk lines rest (Function.update regs dst.toNat (regs src.toNat)) m' := by
  obtain ⟨ip, hm, hi, hnext⟩ := h.fetch ha rfl
  obtain ⟨m', hact, hm'⟩ := hm.mov hi hd hs
  exact ⟨m', hact, hnext hm'⟩

theorem binary {op : IR.BinaryOp} {dst left right : UInt16}
    (h : Reaches chunk lines (.instr (.binary op dst left right) :: rest) regs m)
    (ha : Assembled chunk lines) (hd : dst.toNat < chunk.registers)
    (hl : left.toNat < chunk.registers) (hr : right.toNat < chunk.registers) :
    ∃ m', (m₀.process image maxDepth).Moves (.next m) (.next m') ∧ Reaches chunk lines rest
      (Function.update regs dst.toNat (op.apply (regs left.toNat) (regs right.toNat))) m' := by
  obtain ⟨ip, hm, hi, hnext⟩ := h.fetch ha rfl
  obtain ⟨m', hact, hm'⟩ := hm.binary hi hd hl hr
  exact ⟨m', hact, hnext (by cases op <;> exact hm')⟩

theorem compare {test : IR.Comparison} {dst left right : UInt16}
    (h : Reaches chunk lines (.instr (.compare test dst left right) :: rest) regs m)
    (ha : Assembled chunk lines) (hd : dst.toNat < chunk.registers)
    (hl : left.toNat < chunk.registers) (hr : right.toNat < chunk.registers) :
    ∃ m', (m₀.process image maxDepth).Moves (.next m) (.next m') ∧ Reaches chunk lines rest
      (Function.update regs dst.toNat
        (IR.boolValue (test.apply (regs left.toNat) (regs right.toNat)))) m' := by
  obtain ⟨ip, hm, hi, hnext⟩ := h.fetch ha rfl
  obtain ⟨m', hact, hm'⟩ := hm.compare hi hd hl hr
  exact ⟨m', hact, hnext (by cases test <;> exact hm')⟩

theorem call {dst index first : UInt16}
    (h : Reaches chunk lines (.instr (.call dst index first) :: rest) regs m)
    (ha : Assembled chunk lines) {i : Import} (hindex : chunk.imports[index.toNat]? = some i)
    (hd : dst.toNat < chunk.registers) (hargs : first.toNat + i.arity ≤ chunk.registers) :
    ∃ resume, m.act image maxDepth =
        .ask ⟨i.name, (List.range i.arity).map fun k => regs (first.toNat + k)⟩ resume ∧
      ∀ v, ∃ m', resume v = .next m' ∧
        Reaches chunk lines rest (Function.update regs dst.toNat v) m' := by
  obtain ⟨ip, hm, hi, hnext⟩ := h.fetch ha rfl
  obtain ⟨resume, hact, hresume⟩ := hm.call hi hindex hd hargs
  refine ⟨resume, hact, fun v => ?_⟩
  obtain ⟨m', hm', hat⟩ := hresume v
  exact ⟨m', hm', hnext hat⟩

theorem ret {src : UInt16} (h : Reaches chunk lines (.instr (.ret src) :: rest) regs m)
    (ha : Assembled chunk lines) (hs : src.toNat < chunk.registers) :
    m.act image maxDepth = .done (regs src.toNat) := by
  obtain ⟨ip, hm, hi, -⟩ := h.fetch ha rfl
  exact hm.ret hi hs

theorem moves {moves : List Copy}
    (h : Reaches chunk lines (moves.map (fun (dst, src) => Line.mov dst src) ++ rest) regs m)
    (ha : Assembled chunk lines)
    (hlt : ∀ c ∈ moves, c.1 < chunk.registers ∧ c.2 < chunk.registers) :
    ∃ m', (m₀.process image maxDepth).Silent (.next m) (.next m') ∧
      Reaches chunk lines rest (runMoves moves regs) m' := by
  induction moves generalizing m regs with
  | nil => exact ⟨m, .refl, h⟩
  | cons c moves ih =>
    rw [List.forall_mem_cons] at hlt
    have hdst := toNat_toUInt16 (hlt.1.1.le.trans ha.registers_le)
    have hsrc := toNat_toUInt16 (hlt.1.2.le.trans ha.registers_le)
    obtain ⟨m₁, h₁, hm₁⟩ := Reaches.mov h ha (hdst.symm ▸ hlt.1.1) (hsrc.symm ▸ hlt.1.2)
    rw [hdst, hsrc] at hm₁
    obtain ⟨m', h', hm'⟩ := ih hm₁ hlt.2
    exact ⟨m', .head h₁ h', hm'⟩

/-- A target that a line names is marked. -/
theorem exists_target (ha : Assembled chunk lines) {t : Target}
    (ht : ((offsets lines).lookup t).isSome) :
    ∃ offset, (offsets lines).lookup t = some offset ∧
      ∀ {m regs}, m.At chunk offset.toUInt16.toNat regs →
        ∃ note rest, Reaches chunk lines (.label t note :: rest) regs m := by
  obtain ⟨offset, ho⟩ := Option.isSome_iff_exists.1 ht
  obtain ⟨before, note, after, hlines, rfl⟩ := exists_label ho
  refine ⟨_, ho, fun {m regs} hm => ⟨note, after, before, hlines, ?_⟩⟩
  have hle : codeSize before ≤ maxOperand := by
    have := ha.size_le
    rw [hlines, codeSize_append] at this
    exact (Nat.le_add_right _ _).trans this
  rwa [toNat_toUInt16 hle] at hm

theorem jmp {t : Target} (h : Reaches chunk lines (.jmp t :: rest) regs m)
    (ha : Assembled chunk lines) :
    ∃ m' note rest', (m₀.process image maxDepth).Moves (.next m) (.next m') ∧
      Reaches chunk lines (.label t note :: rest') regs m' := by
  have hmem : .jmp t ∈ lines := by
    obtain ⟨before, hlines, -⟩ := h
    simp [hlines]
  obtain ⟨offset, ho, hat⟩ := exists_target ha (ha.resolved _ hmem)
  obtain ⟨ip, hm, hi, -⟩ := h.fetch ha (congrArg (Option.map _) ho)
  obtain ⟨m', hact, hm'⟩ := hm.jmp hi
  obtain ⟨note, rest', hr⟩ := hat hm'
  exact ⟨m', note, rest', hact, hr⟩

theorem jmpIfFalse {cond : UInt16} {t : Target}
    (h : Reaches chunk lines (.jmpIfFalse cond t :: rest) regs m) (ha : Assembled chunk lines)
    (hc : cond.toNat < chunk.registers) :
    ∃ m', (m₀.process image maxDepth).Moves (.next m) (.next m') ∧
      if regs cond.toNat == 0.0 then
        ∃ note rest', Reaches chunk lines (.label t note :: rest') regs m'
      else Reaches chunk lines rest regs m' := by
  have hmem : .jmpIfFalse cond t ∈ lines := by
    obtain ⟨before, hlines, -⟩ := h
    simp [hlines]
  obtain ⟨offset, ho, hat⟩ := exists_target ha (ha.resolved _ hmem)
  obtain ⟨ip, hm, hi, hnext⟩ := h.fetch ha (congrArg (Option.map _) ho)
  obtain ⟨m', hact, hm'⟩ := hm.jmpIfFalse hi hc
  refine ⟨m', hact, ?_⟩
  split at hm'
  · next hz => rw [if_pos hz]; exact hat hm'
  · next hz => rw [if_neg hz]; exact hnext hm'

end Reaches

end Bytecode

end ScalarLang
