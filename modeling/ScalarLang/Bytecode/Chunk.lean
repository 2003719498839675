import ScalarLang.Bytecode.Instr
import ScalarLang.Decimal.Text

/-! The code of one function with its constants, the functions it calls and notes for listings. -/

namespace ScalarLang.Bytecode

/-- A function that a chunk calls. -/
structure Import where
  name : String
  arity : Nat
  deriving DecidableEq

structure Chunk where
  name : String
  /-- The number of registers of a frame; the arguments are in the first. -/
  registers : Nat := 0
  code : Array UInt8 := #[]
  constants : Array Float := #[]
  imports : Array Import := #[]
  /-- Notes with the offsets they are about, in the order of the offsets. -/
  notes : Array (Nat × String) := #[]

/-- Indices in tables have two bytes. -/
def tableIndex? (index : Nat) : Option Nat := if index < Nat.pow 2 16 then some index else none

namespace Chunk

def writeByte (c : Chunk) (byte : UInt8) : Chunk := { c with code := c.code.push byte }

def writeBytes (c : Chunk) (bytes : List UInt8) : Chunk := bytes.foldl writeByte c

def writeWord (c : Chunk) (w : UInt16) : Chunk := c.writeBytes (wordBytes w)

def writeInstr (c : Chunk) (op : Opcode) (operands : List UInt16) : Chunk :=
  c.writeBytes (instrBytes op operands)

def write (c : Chunk) (i : Instr) : Chunk := c.writeInstr i.opcode i.operands

/-- The word at an offset, if it is inside the code. -/
def readWord? (c : Chunk) (offset : Nat) : Option UInt16 := wordAt? c.code offset

/-- Overwrites the word at an offset, if it is inside the code. -/
def patchWord? (c : Chunk) (offset : Nat) (w : UInt16) : Option Chunk :=
  if offset + 2 ≤ c.code.size then
    let code := c.code.setIfInBounds offset (w >>> 8).toUInt8
    some { c with code := code.setIfInBounds (offset + 1) w.toUInt8 }
  else none

/-- The index of a constant, which is added if it is new; none if the table is full. -/
def addConstant (c : Chunk) (v : Float) : Option Nat × Chunk :=
  match c.constants.findIdx? (· = v) with
  | some index => (tableIndex? index, c)
  | none => (tableIndex? c.constants.size, { c with constants := c.constants.push v })

/-- The index of a called function, which is added if its name is new; none if the table is full. -/
def addImport (c : Chunk) (i : Import) : Option Nat × Chunk :=
  match c.imports.findIdx? (·.name = i.name) with
  | some index => (tableIndex? index, c)
  | none => (tableIndex? c.imports.size, { c with imports := c.imports.push i })

/-- Adds a note on the instruction that is written next. -/
def annotate (c : Chunk) (note : String) : Chunk :=
  match c.notes.back? with
  | some (offset, text) =>
    if offset = c.code.size then
      { c with notes := c.notes.pop.push (offset, text ++ ", " ++ note) }
    else { c with notes := c.notes.push (c.code.size, note) }
  | none => { c with notes := c.notes.push (c.code.size, note) }

/-! ### Listings -/

/-- Constants in listings are written without an exponent. -/
def numberStyle : Decimal.Style where
  fraction := false
  exponential _ := false

def padRight (width : Nat) (text : String) : String :=
  text ++ String.ofList (List.replicate (width - text.length) ' ')

def offsetText (offset : Nat) : String := Decimal.padZeros 4 (toString offset)

def registerText (r : UInt16) : String := s!"r{r.toNat}"

/-- How operands that are all registers are listed, and the offset behind them; none if they are
not inside the code. -/
def listRegisters (c : Chunk) (offset count : Nat) : Option (String × Nat) := do
  let rs ← (List.range count).mapM fun k => c.readWord? (offset + 1 + 2 * k)
  return (", ".intercalate (rs.map registerText), offset + 1 + 2 * count)

def listConstant (c : Chunk) (offset : Nat) : Option (String × Nat) := do
  let dst ← c.readWord? (offset + 1)
  let k ← c.readWord? (offset + 3)
  let value := match c.constants[k.toNat]? with
    | some v => s!"(value = {numberStyle.write v})"
    | none => "(invalid)"
  return (s!"{registerText dst}, {padRight 3 (toString k.toNat)} {value}", offset + 5)

def listCall (c : Chunk) (offset : Nat) : Option (String × Nat) := do
  let dst ← c.readWord? (offset + 1)
  let k ← c.readWord? (offset + 3)
  let first ← c.readWord? (offset + 5)
  let callee := match c.imports[k.toNat]? with
    | some i => s!"@{i.name}/{i.arity} (args from {registerText first})"
    | none => s!"<invalid import {k.toNat}>"
  return (s!"{registerText dst}, {callee}", offset + 7)

def listJump (c : Chunk) (offset : Nat) (conditional : Bool) : Option (String × Nat) := do
  if conditional then
    let cond ← c.readWord? (offset + 1)
    let target ← c.readWord? (offset + 3)
    return (s!"{registerText cond}, {offsetText target.toNat}", offset + 5)
  else
    let target ← c.readWord? (offset + 1)
    return (offsetText target.toNat, offset + 3)

/-- How the operands of an opcode are listed, and the offset behind them. -/
def listOperands (c : Chunk) (offset : Nat) : Opcode → Option (String × Nat)
  | .ldc => c.listConstant offset
  | .mov => c.listRegisters offset 2
  | .add | .sub | .mul | .div | .lt | .ne => c.listRegisters offset 3
  | .jmp => c.listJump offset false
  | .jmpIfFalse => c.listJump offset true
  | .call => c.listCall offset
  | .ret => c.listRegisters offset 1

/-- The note on an offset. -/
def noteText (c : Chunk) (offset : Nat) : String :=
  match c.notes.find? (·.1 = offset) with
  | some (_, text) => "// " ++ text
  | none => ""

/-- One line of a listing: the offset it is about, the offset of the next line, and its text. -/
structure Line where
  start : Nat
  stop : Nat
  text : String

/-- The line on an offset; none if it is made from bytes that are not there. -/
def lineAt (c : Chunk) (offset : Nat) : Option Line := do
  let byte ← c.code[offset]?
  let note := c.noteText offset
  match Opcode.ofByte? byte with
  | none => return ⟨offset, offset + 1, s!"{offsetText offset} invalid {note}\n"⟩
  | some op =>
    -- operands that are cut off are not read
    if c.code.size < offset + 1 + 2 * op.operandCount then
      return ⟨offset, c.code.size, s!"{offsetText offset} truncated {op.title} {note}\n"⟩
    else
      let (operands, stop) ← c.listOperands offset op
      return ⟨offset, stop,
        s!"{offsetText offset} {padRight 14 op.mnemonic} {operands} {note}\n"⟩

theorem lt_of_listOperands {c : Chunk} {offset stop : Nat} {op : Opcode} {text : String}
    (h : c.listOperands offset op = some (text, stop)) : offset < stop := by
  cases op
  all_goals
    simp only [listOperands, listConstant, listRegisters, listCall, listJump, Option.bind_eq_bind,
      Option.bind_eq_some_iff, Option.pure_def, Option.some.injEq, Prod.mk.injEq, if_true,
      Bool.false_eq_true, if_false] at h
    grind

theorem lineAt_progress {c : Chunk} {offset : Nat} {line : Line}
    (h : c.lineAt offset = some line) : offset < line.stop ∧ offset < c.code.size := by
  obtain ⟨byte, hbyte, h⟩ := Option.bind_eq_some_iff.1 h
  have hinside : offset < c.code.size := (Array.getElem?_eq_some_iff.1 hbyte).1
  refine ⟨?_, hinside⟩
  split at h
  · cases h
    exact Nat.lt_succ_self _
  · split at h
    · cases h
      exact hinside
    · obtain ⟨⟨operands, stop⟩, hoperands, h⟩ := Option.bind_eq_some_iff.1 h
      cases h
      exact lt_of_listOperands hoperands

def linesFrom (c : Chunk) (offset : Nat) : List Line :=
  match h : c.lineAt offset with
  | none => []
  | some line =>
    have := lineAt_progress h
    line :: linesFrom c line.stop
termination_by c.code.size - offset
decreasing_by omega

/-- The listing of the code. -/
def listing (c : Chunk) : String :=
  s!"== {c.name} ({c.registers} registers) ==\n" ++
    String.join ((c.linesFrom 0).map Line.text)

end Chunk

end ScalarLang.Bytecode
