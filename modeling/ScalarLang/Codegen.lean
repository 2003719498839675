import ScalarLang.IR.Builder
import ScalarLang.IR.Module
import ScalarLang.IR.Pipeline
import ScalarLang.IR.Verifier
import ScalarLang.Registry
import ScalarLang.Scope

/-! Generating functions from syntax trees. Variables live in slots; conditionals and loops become
blocks. A function that is called but not in the module yet is declared there from the registry. -/

namespace ScalarLang

/-- Why no code can be generated for a function. -/
inductive CodegenError where
  | unknownVariable (name : String)
  | unknownFunction (name : String)
  | arityMismatch (callee : String) (expected found : Nat)
  | invalidTarget
  | missingElse
  | verify (error : IR.VerifyError)
  deriving DecidableEq

def CodegenError.message : CodegenError → String
  | unknownVariable name => s!"Unknown variable name `{name}`"
  | unknownFunction name => s!"Function not found: `{name}`"
  | arityMismatch callee expected found =>
    s!"Invalid number of arguments for `{callee}`: expected {expected}, found {found}"
  | invalidTarget => "destination of '=' must be a variable"
  | missingElse => "Omitted Else are not supported yet"
  | verify error => error.message

/-- Whether the error is about a name that is not known. -/
def CodegenError.isUnresolved : CodegenError → Bool
  | unknownVariable _ | unknownFunction _ => true
  | _ => false

/-- Declares a function, also in the place of a declaration with another number of parameters. -/
def IR.Module.redeclare (m : IR.Module) (name : String) (params : List String) : IR.Module :=
  match m.find? name with
  | some f =>
    if f.isDeclaration ∧ f.arity ≠ params.length then m.define (.declaration name params) else m
  | none => m.declare name params

namespace Codegen

open IR (Operand Builder BlockId SlotId)

structure State where
  unit : IR.Module
  builder : Builder
  scope : Scope

/-- Generation with errors; what was generated before an error stays. -/
abbrev Gen := ExceptT CodegenError (StateM State)

/-! ### Steps -/

def build {α : Type} (step : Builder → α × Builder) : Gen α :=
  modifyGet fun s =>
    let (a, builder) := step s.builder
    (a, { s with builder })

def edit (step : Builder → Builder) : Gen Unit := modify fun s => { s with builder := step s.builder }

/-- Adds an instruction. -/
def emit (op : IR.Operation) (name : String) : Gen Operand := build (·.addValue op name)

/-- Ends the current block. -/
def terminate (t : IR.Terminator) : Gen Unit := edit (·.terminate t)

/-- Goes on in a block. -/
def moveTo (b : BlockId) : Gen Unit := edit (·.position b)

/-- Lays out a block and goes on in it. -/
def openBlock (b : BlockId) : Gen Unit := edit fun builder => (builder.appendBlock b).position b

/-- The block that instructions are added to. -/
def here : Gen BlockId := return (← get).builder.current

/-- The slot of a variable in scope. -/
def lookup (name : String) : Gen SlotId := do
  match (← get).scope.find? name with
  | some slot => return slot
  | none => throw (.unknownVariable name)

/-- Binds a name to a slot; gives what it shadows. -/
def bindName (name : String) (slot : SlotId) : StateM State Shadowed :=
  modifyGet fun s =>
    let (shadowed, scope) := s.scope.bind name slot
    (shadowed, { s with scope })

/-- Generates with a name bound to a slot, and closes the binding also after an error. -/
def withBinding {α : Type} (name : String) (slot : SlotId) (body : Gen α) : Gen α :=
  ExceptT.mk do
    let shadowed ← bindName name slot
    let result ← body.run
    modify fun s => { s with scope := s.scope.close shadowed }
    return result

/-- The number of parameters of a known function. -/
def arity? (registry : Registry) (name : String) : Gen (Option Nat) := do
  match (← get).unit.find? name with
  | some f => return some f.arity
  | none =>
    match registry.find? name with
    | some proto =>
      modify fun s => { s with unit := s.unit.redeclare proto.name proto.params }
      return some proto.arity
    | none => return none

/-- Fails unless the function is known and takes this many arguments. -/
def checkArity (registry : Registry) (callee : String) (found : Nat) : Gen Unit := do
  match ← arity? registry callee with
  | none => throw (.unknownFunction callee)
  | some expected =>
    if expected ≠ found then throw (.arityMismatch callee expected found)

/-- A use of an operator that is a function. -/
def operatorCall (registry : Registry) (callee : String) (args : List Operand) (name : String) :
    Gen Operand := do
  checkArity registry callee args.length
  emit (.call callee args) name

/-- A test against zero. -/
def testNonzero (v : Operand) (name : String) : Gen Operand := emit (.compare .one v (.const 0.0)) name

/-- The operators that are instructions, with the names of their results. -/
def arithmetic? : Char → Option (IR.BinaryOp × String)
  | '+' => some (.add, "addtmp")
  | '-' => some (.sub, "subtmp")
  | '*' => some (.mul, "multmp")
  | '/' => some (.div, "divtmp")
  | _ => none

/-- The result of an infix operator other than assignment. -/
def applyBinary (registry : Registry) (op : Char) (left right : Operand) : Gen Operand := do
  match arithmetic? op with
  | some (instr, name) => emit (.binary instr left right) name
  | none =>
    if op = '<' then
      let test ← emit (.compare .ult left right) "cmptmp"
      emit (.toDouble test) "booltmp"
    else operatorCall registry (Prototype.binaryName op) [left, right] "binop"

/-! ### Expressions -/

mutual

def genExpr (registry : Registry) : Expr → Gen Operand
  | .number v => return .const v
  | .var name => do emit (.load (← lookup name)) name
  | .unary op e => do
    let v ← genExpr registry e
    operatorCall registry (Prototype.unaryName op) [v] "unop"
  | .binary op left right => do
    if op = '=' then
      match left with
      | .var name =>
        let v ← genExpr registry right
        let slot ← lookup name
        edit (·.addStore slot v)
        return v
      | _ => throw .invalidTarget
    else
      let l ← genExpr registry left
      let r ← genExpr registry right
      applyBinary registry op l r
  | .declare vars body => ExceptT.mk do
    let (shadowed, bound) ← bindVars registry vars
    let result ← match bound with
      | .ok _ => (genExpr registry body).run
      | .error e => pure (.error e)
    -- closed also after an error
    modify fun s => { s with scope := s.scope.closeAll shadowed }
    return result
  | .call callee args => do
    checkArity registry callee args.length
    let vs ← genArgs registry args
    emit (.call callee vs) "calltmp"
  | .cond test yes no => do
    let v ← genExpr registry test
    let cond ← testNonzero v "ifcond"
    let yesBlock ← build (·.appendNewBlock "then")
    let noBlock ← build (·.createBlock "else")
    let joinBlock ← build (·.createBlock "ifcont")
    terminate (.condBr cond yesBlock noBlock)
    moveTo yesBlock
    let yesValue ← genExpr registry yes
    terminate (.br joinBlock)
    -- the branch may have opened blocks of its own
    let yesEnd ← here
    openBlock noBlock
    let noValue ← genElse registry no
    terminate (.br joinBlock)
    let noEnd ← here
    openBlock joinBlock
    emit (.phi [(yesValue, yesEnd), (noValue, noEnd)]) "iftmp"
  | .loop index start stop step body => do
    let slot ← build (·.addSlot index)
    let first ← genExpr registry start
    edit (·.addStore slot first)
    let loopBlock ← build (·.appendNewBlock "loop")
    terminate (.br loopBlock)
    moveTo loopBlock
    withBinding index slot do
      let _ ← genExpr registry body
      let increment ← genExpr registry step
      let current ← emit (.load slot) index
      let next ← emit (.binary .add current increment) "nextvar"
      edit (·.addStore slot next)
      -- the test sees the new value
      let v ← genExpr registry stop
      let cond ← testNonzero v "loopcond"
      let afterBlock ← build (·.appendNewBlock "afterloop")
      terminate (.condBr cond loopBlock afterBlock)
      moveTo afterBlock
    return .const 0.0

def genArgs (registry : Registry) : List Expr → Gen (List Operand)
  | [] => return []
  | e :: rest => do
    let v ← genExpr registry e
    return v :: (← genArgs registry rest)

/-- Binds variables one after the other up to the first whose initial value fails; gives what the
bound ones shadow, and the error. -/
def bindVars (registry : Registry) :
    List (String × Option Expr) → StateM State (List Shadowed × Except CodegenError Unit)
  | [] => return ([], .ok ())
  | (name, init) :: rest => do
    let stored : Gen SlotId := do
      let slot ← build (·.addSlot name)
      let v ← genInit registry init
      edit (·.addStore slot v)
      return slot
    match ← stored.run with
    | .error e => return ([], .error e)
    | .ok slot =>
      let shadowed ← bindName name slot
      let (more, bound) ← bindVars registry rest
      return (shadowed :: more, bound)

/-- The initial value of a variable. -/
def genInit (registry : Registry) : Option Expr → Gen Operand
  | some e => genExpr registry e
  | none => return .const 0.0

/-- The second branch of a conditional, which must not be missing. -/
def genElse (registry : Registry) : Option Expr → Gen Operand
  | some e => genExpr registry e
  | none => throw .missingElse

end

/-! ### Functions -/

/-- Puts the parameters into slots. -/
def genParams : List String → (index : Nat) → Gen Unit
  | [], _ => return
  | param :: rest, index => do
    let slot ← build (·.addSlot param)
    edit (·.addStore slot (.arg index))
    modify fun s => { s with scope := s.scope.insert param slot }
    genParams rest (index + 1)

def genBody (registry : Registry) (proto : Prototype) (body : Expr) : Gen Unit := do
  genParams proto.params 0
  let v ← genExpr registry body
  terminate (.ret v)

/-- Generates a function into a module and optimises it. The function is declared first, so that it
can call itself; after an error the module may keep declarations, but has no part of the body. -/
def function (registry : Registry) (passes : IR.Pipeline) (unit : IR.Module) (proto : Prototype)
    (body : Expr) : Except CodegenError IR.Func × IR.Module :=
  let start : State :=
    { unit := unit.redeclare proto.name proto.params
      builder := .start proto.name proto.params
      scope := {} }
  match (genBody registry proto body).run.run start with
  | (.error e, s) => (.error e, s.unit)
  | (.ok _, s) =>
    match s.builder.func.verify with
    | .error e => (.error (.verify e), s.unit)
    | .ok _ =>
      let f := (passes.run s.builder.func).1
      (.ok f, s.unit.define f)

end Codegen

end ScalarLang
