import ScalarLang.Image

/-! Running linked code. The frames of all active calls have their registers one after the other on
one stack; the machine is a function that makes one step, repeated as often as fuel allows. -/

namespace ScalarLang

open Bytecode (Instr Opcode fetch wordAt?)

/-- Why a run stops without a value. -/
inductive RuntimeError where
  | stackOverflow (depth : Nat)
  | unloaded (name : String)
  | invalidInstruction (function : String) (offset : Nat)
  | arityMismatch (name : String) (expected found : Nat)
  | link (error : LinkError)
  deriving DecidableEq

def RuntimeError.message : RuntimeError → String
  | stackOverflow depth => s!"stack overflow: call depth exceeded {depth}"
  | unloaded name => s!"call to a function that is no longer loaded (`{name}`)"
  | invalidInstruction function offset => s!"invalid instruction in `{function}` at offset {offset}"
  | arityMismatch name expected found =>
    s!"`{name}` takes {expected} arguments but was given {found}"
  | link error => error.message

structure Frame where
  fn : LinkedFn
  /-- The offset of the next instruction. -/
  ip : Nat
  /-- The place of the frame's first register on the stack. -/
  base : Nat
  /-- The caller's register that receives the result. -/
  dst : UInt16

structure Machine where
  frame : Frame
  /-- The frames that wait for a result, the outermost first. -/
  callers : Array Frame
  registers : Array Float
  effects : Array Effect

/-- How a run ends. -/
structure Stop where
  result : Except RuntimeError Float
  effects : Array Effect

inductive Step where
  | next (m : Machine)
  | stop (s : Stop)

namespace Machine

def fail (m : Machine) (e : RuntimeError) : Step := .stop ⟨.error e, m.effects⟩

/-- Stops at an instruction that makes no sense; `offset` is where reading it stopped. -/
def invalid (m : Machine) (offset : Nat) : Step :=
  m.fail (.invalidInstruction m.frame.fn.name offset)

/-- The value of a register of the current frame. -/
def register? (m : Machine) (r : UInt16) : Option Float := m.registers[m.frame.base + r.toNat]?

def jump (m : Machine) (offset : Nat) : Step :=
  .next { m with frame := { m.frame with ip := offset } }

/-- Sets a register and goes on at an offset. -/
def assign (m : Machine) (r : UInt16) (v : Float) (offset : Nat) : Step :=
  let place := m.frame.base + r.toNat
  if place < m.registers.size then
    .next { m with
      registers := m.registers.setIfInBounds place v
      frame := { m.frame with ip := offset } }
  else m.invalid offset

/-- The function that a call reaches: the one it was bound to, else the one of that name now. -/
def callTarget (image : Image) (i : Bytecode.Import) : Option Address → Except LinkError Address
  | some address => .ok address
  | none =>
    match image.find? i.name with
    | none => .error (.unresolved i.name)
    | some address =>
      match image.arity? address with
      | none => .error (.unresolved i.name)
      | some arity =>
        if arity = i.arity then .ok address else .error (.arityMismatch i.name arity i.arity)

/-- The stack of a new frame: all below it, the arguments, and zeros. -/
def pushWindow (registers : Array Float) (base size : Nat) (args : List Float) : Array Float :=
  let registers := args.foldl Array.push (registers.shrink base)
  (List.replicate (size - args.length) 0.0).foldl Array.push registers

/-- Calls a compiled function; `offset` is where the caller goes on. -/
def enter (m : Machine) (maxDepth : Nat) (callee : LinkedFn) (args : List Float) (dst : UInt16)
    (offset : Nat) : Step :=
  -- the current frame and the new one
  if maxDepth < m.callers.size + 2 then m.fail (.stackOverflow maxDepth)
  else
    let base := m.frame.base + m.frame.fn.chunk.registers
    .next { m with
      frame := { fn := callee, ip := 0, base, dst }
      callers := m.callers.push { m.frame with ip := offset }
      registers := pushWindow m.registers base callee.chunk.registers args }

/-- Calls a function of the host. -/
def callHost (m : Machine) (h : HostFn) (args : List Float) (dst : UInt16) (offset : Nat) : Step :=
  let (v, effects) := h.call args
  { m with effects := m.effects ++ effects.toArray }.assign dst v offset

def call (image : Image) (maxDepth : Nat) (m : Machine) (dst index first : UInt16) (offset : Nat) :
    Step :=
  match m.frame.fn.chunk.imports[index.toNat]?, m.frame.fn.imports[index.toNat]? with
  | some i, some bound =>
    match callTarget image i bound with
    | .error e => m.fail (.link e)
    | .ok address =>
      let start := m.frame.base + first.toNat
      if m.registers.size < start + i.arity then m.invalid offset
      else
        let args := (m.registers.extract start (start + i.arity)).toList
        match address with
        | .host k =>
          match image.host? k with
          | none => m.fail (.unloaded i.name)
          | some h =>
            if h.arity = i.arity then m.callHost h args dst offset
            else m.fail (.arityMismatch h.name h.arity i.arity)
        | .compiled k =>
          match image.compiled? k with
          | none => m.fail (.unloaded i.name)
          | some callee =>
            if callee.arity = i.arity then m.enter maxDepth callee args dst offset
            else m.fail (.arityMismatch callee.name callee.arity i.arity)
  | _, _ => m.invalid offset

/-- Returns to the caller, or ends the run. -/
def leave (m : Machine) (v : Float) : Step :=
  match m.callers.back? with
  | none => .stop ⟨.ok v, m.effects⟩
  | some caller =>
    { m with frame := caller, callers := m.callers.pop }.assign m.frame.dst v caller.ip

/-- The result of an instruction on two registers. -/
def combine (m : Machine) (f : Float → Float → Float) (dst left right : UInt16) : Step :=
  let ip := m.frame.ip
  match m.register? left with
  | none => m.invalid (ip + 5)
  | some a =>
    match m.register? right with
    | none => m.invalid (ip + 7)
    | some b => m.assign dst (f a b) (ip + 7)

def exec (image : Image) (maxDepth : Nat) (m : Machine) (i : Instr) : Step :=
  let ip := m.frame.ip
  match i with
  | .ldc dst k =>
    match m.frame.fn.chunk.constants[k.toNat]? with
    | none => m.invalid (ip + 5)
    | some v => m.assign dst v (ip + 5)
  | .mov dst src =>
    match m.register? src with
    | none => m.invalid (ip + 5)
    | some v => m.assign dst v (ip + 5)
  | .binary op dst left right => m.combine op.apply dst left right
  | .compare test dst left right =>
    m.combine (fun a b => IR.boolValue (test.apply a b)) dst left right
  | .jmp target => m.jump target.toNat
  | .jmpIfFalse cond target =>
    match m.register? cond with
    | none => m.invalid (ip + 3)
    | some v => m.jump (if v == 0.0 then target.toNat else ip + 5)
  | .call dst index first => m.call image maxDepth dst index first (ip + 7)
  | .ret src =>
    match m.register? src with
    | none => m.invalid (ip + 3)
    | some v => m.leave v

/-- Where reading stops at an instruction that is cut off: at the end of the code, or behind a
register that does not exist, for registers are looked up as soon as they are read. -/
def cutOff (m : Machine) (op : Opcode) : Nat :=
  let ip := m.frame.ip
  let code := m.frame.fn.chunk.code
  let lookup (offset : Nat) : Nat :=
    match (wordAt? code offset).map m.register? with
    | some none => offset + 2
    | _ => code.size
  match op with
  | .add | .sub | .mul | .div | .lt | .ne => lookup (ip + 3)
  | .jmpIfFalse => lookup (ip + 1)
  | .ldc | .mov | .jmp | .call | .ret => code.size

/-- Reads an instruction and carries it out. -/
def step (image : Image) (maxDepth : Nat) (m : Machine) : Step :=
  match fetch m.frame.fn.chunk.code m.frame.ip with
  | .instr i => m.exec image maxDepth i
  | .invalid | .finished => m.invalid m.frame.ip
  | .truncated op => m.invalid (m.cutOff op)

/-- Makes at most `fuel` steps; none if the run does not end by then. -/
def run (image : Image) (maxDepth : Nat) : (fuel : Nat) → Machine → Option Stop
  | 0, _ => none
  | fuel + 1, m =>
    match m.step image maxDepth with
    | .next m => run image maxDepth fuel m
    | .stop s => some s

/-- More fuel keeps the end of a run. -/
theorem run_mono {image : Image} {maxDepth n k : Nat} {m : Machine} {s : Stop} (h : n ≤ k)
    (hs : run image maxDepth n m = some s) : run image maxDepth k m = some s := by
  induction n generalizing m k with
  | zero => simp [run] at hs
  | succ n ih =>
    obtain ⟨k, rfl⟩ : ∃ j, k = j + 1 := ⟨k - 1, by omega⟩
    rw [run] at hs ⊢
    split at hs
    · exact ih (by omega) hs
    · exact hs

/-- A machine about to run a function. -/
def start (fn : LinkedFn) (args : List Float) : Machine where
  frame := { fn, ip := 0, base := 0, dst := 0 }
  callers := #[]
  registers := pushWindow #[] 0 fn.chunk.registers args
  effects := #[]

/-- More steps than any run makes that is waited for. -/
def ampleFuel : Nat := Nat.pow 2 62

/-- The depth of calls that is allowed unless another is asked for. -/
def defaultDepth : Nat := 10000

end Machine

/-- Calls the function at an address and runs it to its end. -/
def Image.call (image : Image) (maxDepth fuel : Nat) (address : Address) (args : List Float) :
    Option Stop :=
  let failed (e : RuntimeError) : Option Stop := some ⟨.error e, #[]⟩
  match address with
  | .host k =>
    match image.host? k with
    | none => failed (.unloaded s!"<native {k}>")
    | some h =>
      if h.arity = args.length then
        let (v, effects) := h.call args
        some ⟨.ok v, effects.toArray⟩
      else failed (.arityMismatch h.name h.arity args.length)
  | .compiled k =>
    match image.compiled? k with
    | none => failed (.unloaded s!"<compiled {k}>")
    | some fn =>
      if fn.arity = args.length then (Machine.start fn args).run image maxDepth fuel
      else failed (.arityMismatch fn.name fn.arity args.length)

end ScalarLang
