import ScalarLang.IR.Basic

/-! The instructions of the machine. An instruction is a byte for its opcode, followed by its
operands, each two bytes with the high one first. -/

namespace ScalarLang.Bytecode

inductive Opcode where
  | ldc | mov | add | sub | mul | div | lt | ne | jmp | jmpIfFalse | call | ret
  deriving DecidableEq

namespace Opcode

/-- All opcodes, in the order of their bytes. -/
def all : List Opcode := [ldc, mov, add, sub, mul, div, lt, ne, jmp, jmpIfFalse, call, ret]

def toByte : Opcode → UInt8
  | ldc => 0
  | mov => 1
  | add => 2
  | sub => 3
  | mul => 4
  | div => 5
  | lt => 6
  | ne => 7
  | jmp => 8
  | jmpIfFalse => 9
  | call => 10
  | ret => 11

def ofByte? (byte : UInt8) : Option Opcode := all[byte.toNat]?

theorem ofByte?_toByte (op : Opcode) : ofByte? op.toByte = some op := by cases op <;> rfl

def operandCount : Opcode → Nat
  | jmp | ret => 1
  | ldc | mov | jmpIfFalse => 2
  | _ => 3

/-- The number of bytes of an instruction. -/
def size (op : Opcode) : Nat := 1 + 2 * op.operandCount

/-- The name in listings. -/
def mnemonic : Opcode → String
  | ldc => "ldc"
  | mov => "mov"
  | add => "add"
  | sub => "sub"
  | mul => "mul"
  | div => "div"
  | lt => "lt"
  | ne => "ne"
  | jmp => "jmp"
  | jmpIfFalse => "jmp_if_false"
  | call => "call"
  | ret => "ret"

/-- The name of an instruction that is cut off. -/
def title : Opcode → String
  | ldc => "Ldc"
  | mov => "Mov"
  | add => "Add"
  | sub => "Sub"
  | mul => "Mul"
  | div => "Div"
  | lt => "Lt"
  | ne => "Ne"
  | jmp => "Jmp"
  | jmpIfFalse => "JmpIfFalse"
  | call => "Call"
  | ret => "Ret"

end Opcode

/-- An instruction; registers count from the frame's first, targets are byte offsets. -/
inductive Instr where
  | ldc (dst constant : UInt16)
  | mov (dst src : UInt16)
  | binary (op : IR.BinaryOp) (dst left right : UInt16)
  | compare (test : IR.Comparison) (dst left right : UInt16)
  | jmp (target : UInt16)
  /-- Jumps if the register holds zero. -/
  | jmpIfFalse (cond target : UInt16)
  /-- The arguments are in consecutive registers from `first` on. -/
  | call (dst target first : UInt16)
  | ret (src : UInt16)
  deriving DecidableEq

namespace Instr

def opcode : Instr → Opcode
  | ldc .. => .ldc
  | mov .. => .mov
  | binary .add .. => .add
  | binary .sub .. => .sub
  | binary .mul .. => .mul
  | binary .div .. => .div
  | compare .ult .. => .lt
  | compare .one .. => .ne
  | jmp .. => .jmp
  | jmpIfFalse .. => .jmpIfFalse
  | call .. => .call
  | ret .. => .ret

def operands : Instr → List UInt16
  | ldc a b | mov a b | jmpIfFalse a b => [a, b]
  | binary _ a b c | compare _ a b c | call a b c => [a, b, c]
  | jmp a | ret a => [a]

def size (i : Instr) : Nat := i.opcode.size

end Instr

/-- The two bytes of an operand. -/
def wordBytes (w : UInt16) : List UInt8 := [(w >>> 8).toUInt8, w.toUInt8]

/-- The bytes of an opcode with operands. -/
def instrBytes (op : Opcode) (operands : List UInt16) : List UInt8 :=
  op.toByte :: operands.flatMap wordBytes

def Instr.bytes (i : Instr) : List UInt8 := instrBytes i.opcode i.operands

/-- The word at an offset, if both of its bytes are there. -/
def wordAt? (code : Array UInt8) (offset : Nat) : Option UInt16 := do
  let high ← code[offset]?
  let low ← code[offset + 1]?
  return (high.toUInt16 <<< 8) ||| low.toUInt16

/-- Reads the operands behind the opcode at an offset, as many as the machine needs to carry out the
instruction; none if the code ends before. -/
def readInstr? (code : Array UInt8) (offset : Nat) (op : Opcode) : Option Instr :=
  let one (make : UInt16 → Instr) : Option Instr := do
    let a ← wordAt? code (offset + 1)
    return make a
  let two (make : UInt16 → UInt16 → Instr) : Option Instr := do
    let a ← wordAt? code (offset + 1)
    let b ← wordAt? code (offset + 3)
    return make a b
  let three (make : UInt16 → UInt16 → UInt16 → Instr) : Option Instr := do
    let a ← wordAt? code (offset + 1)
    let b ← wordAt? code (offset + 3)
    let c ← wordAt? code (offset + 5)
    return make a b c
  match op with
  | .ldc => two .ldc
  | .mov => two .mov
  | .add => three (.binary .add)
  | .sub => three (.binary .sub)
  | .mul => three (.binary .mul)
  | .div => three (.binary .div)
  | .lt => three (.compare .ult)
  | .ne => three (.compare .one)
  | .jmp => one .jmp
  | .jmpIfFalse => two .jmpIfFalse
  | .call => three .call
  | .ret => one .ret

/-- What the machine finds at an offset. -/
inductive Fetched where
  | instr (i : Instr)
  /-- The byte is no opcode. -/
  | invalid
  /-- The code ends before the operands do. -/
  | truncated (op : Opcode)
  /-- The offset is past the end. -/
  | finished

/-- Reads the instruction at an offset. -/
def fetch (code : Array UInt8) (offset : Nat) : Fetched :=
  match code[offset]? with
  | none => .finished
  | some byte =>
    match Opcode.ofByte? byte with
    | none => .invalid
    | some op =>
      match readInstr? code offset op with
      | some i => .instr i
      | none => .truncated op

end ScalarLang.Bytecode
