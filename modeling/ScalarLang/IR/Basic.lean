/-! The intermediate representation. A function owns its slots, instructions and blocks and refers
to them by index; the layout lists the blocks that are part of it, the entry block first. Removed
instructions and blocks stay where they are, so indices never change their meaning. -/

namespace ScalarLang.IR

abbrev BlockId := Nat

abbrev InstId := Nat

/-- A memory cell of the function. -/
abbrev SlotId := Nat

inductive Ty where
  | double
  /-- The result of a comparison. -/
  | bit
  deriving DecidableEq

/-- A value that an instruction uses. Two constants are the same if their bits are. -/
inductive Operand where
  | inst (id : InstId)
  | arg (index : Nat)
  | const (value : Float)
  | bool (value : Bool)
  deriving DecidableEq, Inhabited

inductive BinaryOp where
  | add | sub | mul | div
  deriving DecidableEq

def BinaryOp.apply : BinaryOp → Float → Float → Float
  | add, a, b => a + b
  | sub, a, b => a - b
  | mul, a, b => a * b
  | div, a, b => a / b

inductive Comparison where
  /-- Less than, or not comparable. -/
  | ult
  /-- Comparable and different. -/
  | one
  deriving DecidableEq

def Comparison.apply : Comparison → Float → Float → Bool
  | ult, a, b => !decide (b ≤ a)
  | one, a, b => decide (a < b) || decide (b < a)

/-- A truth value as a double. -/
def boolValue (b : Bool) : Float := if b then 1.0 else 0.0

inductive Operation where
  | binary (op : BinaryOp) (left right : Operand)
  | compare (test : Comparison) (left right : Operand)
  /-- A truth value as one or zero. -/
  | toDouble (value : Operand)
  | load (slot : SlotId)
  | store (slot : SlotId) (value : Operand)
  | call (callee : String) (args : List Operand)
  /-- The value that belongs to the block from which control came. -/
  | phi (incoming : List (Operand × BlockId))
  deriving DecidableEq

instance : Inhabited Operation := ⟨.phi []⟩

namespace Operation

/-- The type of the result, if there is one. -/
def type? : Operation → Option Ty
  | compare .. => some .bit
  | store .. => none
  | _ => some .double

/-- Whether the operation may be dropped when its result is not used. -/
def isPure : Operation → Bool
  | store .. | call .. => false
  | _ => true

def isPhi : Operation → Bool
  | phi _ => true
  | _ => false

def operands : Operation → List Operand
  | binary _ l r | compare _ l r => [l, r]
  | toDouble v => [v]
  | load _ => []
  | store _ v => [v]
  | call _ args => args
  | phi incoming => incoming.map (·.1)

def mapOperands (g : Operand → Operand) : Operation → Operation
  | binary op l r => binary op (g l) (g r)
  | compare test l r => compare test (g l) (g r)
  | toDouble v => toDouble (g v)
  | load slot => load slot
  | store slot v => store slot (g v)
  | call callee args => call callee (args.map g)
  | phi incoming => phi (incoming.map fun (v, b) => (g v, b))

/-- The slot that the operation reads or writes. -/
def slot? : Operation → Option SlotId
  | load slot | store slot _ => some slot
  | _ => none

end Operation

structure Inst where
  op : Operation
  /-- The name that the printer tries to give the result. -/
  name : String
  deriving DecidableEq, Inhabited

inductive Terminator where
  | br (target : BlockId)
  | condBr (cond : Operand) (yes no : BlockId)
  | ret (value : Operand)
  deriving DecidableEq

namespace Terminator

def successors : Terminator → List BlockId
  | br target => [target]
  | condBr _ yes no => [yes, no]
  | ret _ => []

def operands : Terminator → List Operand
  | br _ => []
  | condBr cond _ _ => [cond]
  | ret value => [value]

def mapOperands (g : Operand → Operand) : Terminator → Terminator
  | br target => br target
  | condBr cond yes no => condBr (g cond) yes no
  | ret value => ret (g value)

end Terminator

structure Block where
  name : String
  insts : List InstId := []
  terminator : Option Terminator := none
  deriving DecidableEq, Inhabited

/-- A function; without a layout it is only declared. -/
structure Func where
  name : String
  params : List String
  slots : Array String := #[]
  insts : Array Inst := #[]
  blocks : Array Block := #[]
  layout : List BlockId := []
  deriving DecidableEq

namespace Func

def declaration (name : String) (params : List String) : Func := { name, params }

def isDeclaration (f : Func) : Bool := f.layout.isEmpty

def arity (f : Func) : Nat := f.params.length

def entry? (f : Func) : Option BlockId := f.layout.head?

/-- The block with this index; one that does not exist is empty. -/
def block (f : Func) (b : BlockId) : Block := f.blocks.getD b default

/-- The instruction with this index; one that does not exist is a phi of nothing. -/
def inst (f : Func) (i : InstId) : Inst := f.insts.getD i default

/-- The operation of the instruction with this index. -/
def op (f : Func) (i : InstId) : Operation := (f.inst i).op

/-- The type of an operand; a store has none. -/
def operandType (f : Func) : Operand → Option Ty
  | .inst i => (f.op i).type?
  | .arg _ | .const _ => some .double
  | .bool _ => some .bit

def modifyBlock (f : Func) (b : BlockId) (g : Block → Block) : Func :=
  { f with blocks := f.blocks.modify b g }

def modifyOp (f : Func) (i : InstId) (g : Operation → Operation) : Func :=
  { f with insts := f.insts.modify i fun inst => { inst with op := g inst.op } }

/-- Changes a block that exists. -/
def editBlock? (f : Func) (b : BlockId) (g : Block → Block) : Option Func :=
  if b < f.blocks.size then some (f.modifyBlock b g) else none

/-- Adds a phi at the end of a block that exists. -/
def appendPhi? (f : Func) (b : BlockId) (incoming : List (Operand × BlockId)) (name : String) :
    Option (InstId × Func) :=
  let id := f.insts.size
  ({ f with insts := f.insts.push ⟨.phi incoming, name⟩ }.editBlock? b fun block =>
    { block with insts := block.insts ++ [id] }).map fun f => (id, f)

/-- Every use of a value, also in code that is not laid out, becomes `g` of it. -/
def mapOperands (f : Func) (g : Operand → Operand) : Func :=
  { f with
    insts := f.insts.map fun inst => { inst with op := inst.op.mapOperands g }
    blocks := f.blocks.map fun block =>
      { block with terminator := block.terminator.map (·.mapOperands g) } }

/-- Every use of the result of `i` becomes `value`. -/
def replaceUses (f : Func) (i : InstId) (value : Operand) : Func :=
  f.mapOperands fun v => if v = .inst i then value else v

/-- Takes instructions out of their blocks. -/
def removeInsts (f : Func) (dead : List InstId) : Func :=
  { f with blocks := f.blocks.map fun block =>
      { block with insts := block.insts.filter (!dead.contains ·) } }

end Func

end ScalarLang.IR
