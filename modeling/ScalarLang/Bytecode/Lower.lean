import ScalarLang.Bytecode.Chunk
import ScalarLang.Bytecode.Registers

/-! Code for functions. Blocks become lines of code with symbolic targets, phis become copies at
the ends of the blocks that lead to them; then targets are replaced by offsets. -/

namespace ScalarLang.Bytecode

open IR (Func Operand BlockId InstId Operation Terminator)

/-- Why a function has no code. -/
inductive LowerError where
  /-- It needs more registers or bytes, or a call more arguments, than operands can name. -/
  | tooLarge
  /-- It refers to code that does not exist. -/
  | dangling
  deriving DecidableEq

/-- A place in the code. -/
inductive Target where
  | block (b : BlockId)
  /-- The copies for the way that the branch at the end of the `n`-th laid out block goes if its
  condition fails. -/
  | edge (n : Nat)
  deriving DecidableEq

/-- Code with symbolic targets. -/
inductive Line where
  | instr (i : Instr)
  | jmp (target : Target)
  | jmpIfFalse (cond : UInt16) (target : Target)
  /-- Marks a place, with a note for listings. -/
  | label (place : Target) (note : String)

namespace Line

def size : Line → Nat
  | instr i => i.size
  | jmp _ => Opcode.jmp.size
  | jmpIfFalse .. => Opcode.jmpIfFalse.size
  | label .. => 0

def mov (dst src : Nat) : Line := instr (.mov dst.toUInt16 src.toUInt16)

end Line

/-! ### Copies at block ends -/

/-- A copy from the second register to the first. -/
abbrev Copy := Nat × Nat

/-- The registers of the phis of `target` with those of the values they receive from `source`. -/
def edgeCopies (f : Func) (r : Registers) (source target : BlockId) :
    Except LowerError (List Copy) := do
  if !f.blockExists target then .error .dangling
  let copies ← (f.block target).insts.mapM fun i =>
    match f.op i, r.results.getD i none with
    | .phi incoming, some dst =>
      match incoming.find? (·.2 = source) with
      | some (v, _) => match r.operand? v with
        | some src => .ok (some (dst, src))
        | none => .error .dangling
      | none => .ok none
    | _, _ => .ok none
  return copies.filterMap id

/-- Moves that make all copies as if at once. If a copy reads what another one writes, all go
through the scratch registers. -/
def copyMoves (scratch : Nat) (copies : List Copy) : List Line :=
  if copies.any fun (_, src) => copies.any (·.1 = src) then
    copies.zipIdx.map (fun ((_, src), k) => Line.mov (scratch + k) src) ++
      copies.zipIdx.map fun ((dst, _), k) => Line.mov dst (scratch + k)
  else (copies.filter fun (dst, src) => dst ≠ src).map fun (dst, src) => Line.mov dst src

def edgeLines (f : Func) (r : Registers) (source target : BlockId) :
    Except LowerError (List Line) := do
  return copyMoves r.phiScratch (← edgeCopies f r source target) ++ [.jmp (.block target)]

/-! ### Blocks -/

/-- The functions that laid out code calls, each name once with its first argument count. -/
def importsOf (f : Func) : List Import :=
  f.live.foldl (fun imports i => match f.op i with
    | .call name args =>
      if imports.any (·.name = name) then imports else imports ++ [⟨name, args.length⟩]
    | _ => imports) []

/-- The greatest number of arguments of a call. -/
def maxArity : Nat := 255

/-- The registers of operands; none of them may be missing. -/
def operandRegisters (r : Registers) (vs : List Operand) : Except LowerError (List UInt16) :=
  vs.mapM fun v => match r.operand? v with
    | some n => .ok n.toUInt16
    | none => .error .dangling

def operandRegister (r : Registers) (v : Operand) : Except LowerError UInt16 :=
  match r.operand? v with
  | some n => .ok n.toUInt16
  | none => .error .dangling

/-- The code of one instruction. A truth value is kept as one or zero, so its conversion is a copy;
a phi has none. -/
def lowerInst (r : Registers) (imports : List Import) (dst : UInt16) (op : Operation) :
    Except LowerError (List Line) :=
  match op with
  | .binary op left right => do
    return [.instr (.binary op dst (← operandRegister r left) (← operandRegister r right))]
  | .compare test left right => do
    return [.instr (.compare test dst (← operandRegister r left) (← operandRegister r right))]
  | .toDouble v => do return [.instr (.mov dst (← operandRegister r v))]
  | .load s => .ok [.instr (.mov dst (r.slot s).toUInt16)]
  | .store s v => do return [.instr (.mov (r.slot s).toUInt16 (← operandRegister r v))]
  | .call name args => do
    if maxArity < args.length then .error .tooLarge
    let sources ← operandRegisters r args
    let moves := sources.zipIdx.map fun (src, k) =>
      Line.instr (.mov (r.callScratch + k).toUInt16 src)
    let index := imports.findIdx (·.name = name)
    return moves ++ [.instr (.call dst index.toUInt16 r.callScratch.toUInt16)]
  | .phi _ => .ok []

/-- Whether the block begins with phis; none if it does not exist. -/
def hasPhis (f : Func) (b : BlockId) : Except LowerError Bool :=
  if f.blockExists b then .ok ((f.block b).insts.any fun i => (f.op i).isPhi)
  else .error .dangling

/-- The code at the end of the `n`-th laid out block. -/
def lowerTerminator (f : Func) (r : Registers) (n : Nat) (b : BlockId) :
    Terminator → Except LowerError (List Line)
  | .br target => edgeLines f r b target
  | .condBr cond yes no => do
    let cond ← operandRegister r cond
    if ← hasPhis f no then
      let yesLines ← edgeLines f r b yes
      let noLines ← edgeLines f r b no
      return .jmpIfFalse cond (.edge n) :: yesLines ++
        .label (.edge n) s!"edge to {(f.block no).name}" :: noLines
    else return .jmpIfFalse cond (.block no) :: (← edgeLines f r b yes)
  | .ret v => do return [.instr (.ret (← operandRegister r v))]

/-- The code of the `n`-th laid out block. -/
def lowerBlock (f : Func) (r : Registers) (imports : List Import) (n : Nat) (b : BlockId) :
    Except LowerError (List Line) := do
  let insts ← (f.block b).insts.mapM fun i =>
    lowerInst r imports (r.result i).toUInt16 (f.op i)
  let last ← match (f.block b).terminator with
    | some t => lowerTerminator f r n b t
    | none => .ok []
  return .label (.block b) ((f.block b).name ++ ":") :: insts.flatten ++ last

/-- The constants are loaded before the first block. -/
def constantLines (r : Registers) : List Line :=
  (List.range r.constants.length).map fun k =>
    .instr (.ldc (r.firstConstant + k).toUInt16 k.toUInt16)

/-! ### Offsets -/

/-- The places that lines mark, from an offset on. -/
def placesFrom : (offset : Nat) → List Line → List (Target × Nat)
  | _, [] => []
  | offset, .label place _ :: rest => (place, offset) :: placesFrom offset rest
  | offset, line :: rest => placesFrom (offset + line.size) rest

def codeSize (lines : List Line) : Nat := lines.foldr (fun l n => l.size + n) 0

/-- The offsets of places; of a block that is laid out more than once, the last counts. -/
def offsets (lines : List Line) : List (Target × Nat) := (placesFrom 0 lines).reverse

/-- Adds a line with its target replaced by an offset. -/
def writeLine (offset? : Target → Option Nat) (c : Chunk) : Line → Except LowerError Chunk
  | .instr i => .ok (c.write i)
  | .label _ note => .ok (c.annotate note)
  | .jmp t => match offset? t with
    | some offset => .ok (c.write (.jmp offset.toUInt16))
    | none => .error .dangling
  | .jmpIfFalse cond t => match offset? t with
    | some offset => .ok (c.write (.jmpIfFalse cond offset.toUInt16))
    | none => .error .dangling

/-- The greatest number that an operand can be. -/
def maxOperand : Nat := 65535

def lower (f : Func) : Except LowerError Chunk := do
  if !f.slotsExist then .error .dangling
  let r := Registers.allocate f
  if maxOperand < r.count then .error .tooLarge
  let imports := importsOf f
  let blocks ← f.layout.zipIdx.mapM fun (b, n) => lowerBlock f r imports n b
  let lines := constantLines r ++ blocks.flatten
  if maxOperand < codeSize lines then .error .tooLarge
  let chunk : Chunk :=
    { name := f.name, registers := r.count, constants := r.constants.toArray
      imports := imports.toArray }
  let places := offsets lines
  lines.foldlM (writeLine fun t => places.lookup t) chunk

end ScalarLang.Bytecode
