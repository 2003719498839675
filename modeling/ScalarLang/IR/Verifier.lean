import ScalarLang.IR.Flow

/-! The check that a function is well put together: blocks end, branches stay inside the layout,
phis stand first and match the predecessors, and operands exist and have the right types. -/

namespace ScalarLang.IR

inductive VerifyError where
  | unterminated (func block : String)
  | missingBlock (func : String)
  | misplacedPhi (func block : String)
  | phiPredecessors (func block : String)
  | typeMismatch (func block : String) (expected : Ty) (found : Option Ty)
  | detachedOperand (func block : String)
  | outOfRange (func block : String)
  /-- A laid out block or a placed instruction does not exist. -/
  | dangling (func : String)
  deriving DecidableEq

def Ty.title : Ty → String
  | double => "Double"
  | bit => "I1"

def VerifyError.message : VerifyError → String
  | unterminated func block => s!"block `{block}` in function `{func}` has no terminator"
  | missingBlock func => s!"function `{func}` branches to a block that is not laid out"
  | misplacedPhi func block =>
    s!"phi in block `{block}` of function `{func}` is not at the start of the block"
  | phiPredecessors func block =>
    s!"phi in block `{block}` of function `{func}` does not match the block predecessors"
  | typeMismatch func block expected found =>
    let found := found.elim "None" fun type => s!"Some({type.title})"
    s!"operand in block `{block}` of function `{func}` should be {expected.title}, found {found}"
  | detachedOperand func block =>
    s!"operand in block `{block}` of function `{func}` refers to a removed instruction"
  | outOfRange func block =>
    s!"operand in block `{block}` of function `{func}` refers to a missing argument or slot"
  | dangling func => s!"function `{func}` refers to code that does not exist"

/-- The operands with the types that they must have. -/
def Operation.typedOperands : Operation → List (Operand × Ty)
  | toDouble v => [(v, .bit)]
  | op => op.operands.map fun v => (v, .double)

def Terminator.typedOperands : Terminator → List (Operand × Ty)
  | br _ => []
  | condBr cond _ _ => [(cond, .bit)]
  | ret value => [(value, .double)]

namespace Func

/-- Whether the operand is an argument of the function, or no argument at all. -/
def argExists (f : Func) : Operand → Bool
  | .arg n => n < f.arity
  | _ => true

/-- Whether the operand is the result of a placed instruction, or no result at all. -/
def isAttached (placed : Array Bool) : Operand → Bool
  | .inst i => placed.getD i false
  | _ => true

def verifyOperand (f : Func) (placed : Array Bool) (block : String) (v : Operand) (type : Ty) :
    Except VerifyError Unit :=
  if !isAttached placed v then
    -- a placed instruction beyond the last one
    if f.live.any (.inst · = v) then .error (.dangling f.name)
    else .error (.detachedOperand f.name block)
  else if !f.argExists v then .error (.outOfRange f.name block)
  else if f.operandType v ≠ some type then
    .error (.typeMismatch f.name block type (f.operandType v))
  else .ok ()

def verifyOperands (f : Func) (placed : Array Bool) (block : String)
    (operands : List (Operand × Ty)) : Except VerifyError Unit :=
  operands.forM fun (v, type) => f.verifyOperand placed block v type

/-- What an instruction demands apart from its operands; `past` tells whether it comes after one
that is no phi. -/
def verifyPlace (f : Func) (b : BlockId) (past : Bool) (op : Operation) : Except VerifyError Unit :=
  let block := (f.block b).name
  match op with
  | .phi incoming =>
    if past then .error (.misplacedPhi f.name block)
    else if (incoming.map (·.2)).isPerm (f.preds b) then .ok ()
    else .error (.phiPredecessors f.name block)
  | .load slot | .store slot _ =>
    if slot < f.slots.size then .ok () else .error (.outOfRange f.name block)
  | _ => .ok ()

def verifyInsts (f : Func) (placed : Array Bool) (b : BlockId) :
    (past : Bool) → List InstId → Except VerifyError Unit
  | _, [] => .ok ()
  | past, i :: rest => do
    if f.insts.size ≤ i then .error (.dangling f.name)
    f.verifyPlace b past (f.op i)
    f.verifyOperands placed (f.block b).name (f.op i).typedOperands
    verifyInsts f placed b (past || !(f.op i).isPhi) rest

def verifyBlock (f : Func) (placed : Array Bool) (b : BlockId) : Except VerifyError Unit :=
  match (f.block b).terminator with
  | none => .error (.unterminated f.name (f.block b).name)
  | some t => do
    if !t.successors.all f.layout.contains then .error (.missingBlock f.name)
    f.verifyInsts placed b false (f.block b).insts
    f.verifyOperands placed (f.block b).name t.typedOperands

/-- Accepts declarations and functions that are well put together. -/
def verify (f : Func) : Except VerifyError Unit :=
  if f.layoutExists then f.layout.forM (f.verifyBlock f.placedMarks)
  else .error (.dangling f.name)

end Func

end ScalarLang.IR
