import ScalarLang.Codegen
import ScalarLang.IR.Printer
import ScalarLang.Machine

/-! Sessions: items are compiled and run one after the other. A function or expression is generated
into the open unit, which is then closed, so each has a unit of its own; a foreign declaration
leaves the unit open and shares it with the next item. Definitions stay loaded, a top-level
expression is removed once it has run. -/

namespace ScalarLang

structure SessionOptions where
  optimize : Bool := true
  /-- Lists the code of each function as it is linked. -/
  listCode : Bool := false
  maxDepth : Nat := Machine.defaultDepth

/-- Why an item failed. -/
inductive SessionError where
  | codegen (error : CodegenError)
  | link (error : LinkError)
  | runtime (error : RuntimeError)
  /-- The function of a top-level expression is not in the image that it was linked into. -/
  | missing (unit : String)
  deriving DecidableEq

def SessionError.message : SessionError → String
  | codegen error => error.message
  | link error => error.message
  | runtime error => error.message
  | missing unit => s!"`{Prototype.anonymousName}` is missing after linking {unit}"

structure Session where
  options : SessionOptions
  image : Image := {}
  registry : Registry := {}
  /-- The unit that the next item is generated into. -/
  openUnit : IR.Module := { name := "unit0" }
  /-- The number of units so far. -/
  units : Nat := 1

/-- An item that was evaluated: its value if it has one, what it did, and the session after it. -/
structure Evaluated where
  result : Except SessionError (Option Float)
  effects : List Effect := []
  session : Session

namespace Session

def passesFor (optimize : Bool) : IR.Pipeline := if optimize then IR.Pipeline.standard else []

def new (options : SessionOptions) : Session := { options }

def addHost (s : Session) (h : HostFn) : Session := { s with image := s.image.addHost h }

/-- An empty unit with a name of its own. -/
def freshUnit (s : Session) : IR.Module := { name := s!"unit{s.units}" }

/-- Closes the open unit. -/
def retire (s : Session) : Session := { s with openUnit := s.freshUnit, units := s.units + 1 }

/-- What linking a module shows. -/
def shown (s : Session) (linked : Image.Linked) : List Effect :=
  if s.options.listCode then linked.listings else []

/-- Generates a function into the open unit, which is closed; gives the unit. -/
def generate (s : Session) (proto : Prototype) (body : Expr) :
    Except CodegenError IR.Module × Session :=
  match Codegen.function s.registry (passesFor s.options.optimize) s.openUnit proto body with
  | (.error e, _) => (.error e, s.retire)
  | (.ok _, unit) => (.ok unit, s.retire)

/-- Compiles a top-level expression, runs it, and removes it again. -/
def evalExpression (fuel : Nat) (s : Session) (proto : Prototype) (body : Expr) :
    Option Evaluated :=
  match s.generate proto body with
  | (.error e, s) => some { result := .error (.codegen e), session := s }
  | (.ok unit, s) =>
    match s.image.link unit with
    | .error e => some { result := .error (.link e), session := s }
    | .ok linked =>
      match linked.image.find? Prototype.anonymousName with
      | none => some { result := .error (.missing unit.name), session := s }
      | some address => do
        let stop ← linked.image.call s.options.maxDepth fuel address []
        let image := (linked.image.remove? linked.key).getD linked.image
        return {
          result := match stop.result with
            | .ok v => .ok (some v)
            | .error e => .error (.runtime e)
          effects := s.shown linked ++ stop.effects.toList
          session := { s with image } }

/-- Compiles a definition and keeps it. Its prototype is recorded before it is linked; if it cannot
be linked, the record is undone. -/
def evalDefinition (s : Session) (proto : Prototype) (body : Expr) : Evaluated :=
  match s.generate proto body with
  | (.error e, s) => { result := .error (.codegen e), session := s }
  | (.ok unit, s) =>
    let previous := s.registry.find? proto.name
    let s := { s with registry := s.registry.record proto }
    match s.image.link unit with
    | .error e =>
      { result := .error (.link e)
        session := { s with registry := s.registry.rollback proto.name previous } }
    | .ok linked =>
      { result := .ok none
        effects := s.shown linked
        session := { s with image := linked.image } }

/-- Declares a function that is defined elsewhere. -/
def evalForeign (s : Session) (proto : Prototype) : Session :=
  { s with
    registry := s.registry.record proto
    openUnit := s.openUnit.redeclare proto.name proto.params }

/-- Evaluates an item; none if it does not end within the fuel. -/
def evalItem (fuel : Nat) (s : Session) : Item → Option Evaluated
  | .function proto body =>
    if proto.isAnonymous then s.evalExpression fuel proto body
    else some (s.evalDefinition proto body)
  | .foreign proto => some { result := .ok none, session := s.evalForeign proto }

/-- Evaluates items one after the other. -/
def evalItems (fuel : Nat) (s : Session) : List Item → Option (List Evaluated × Session)
  | [] => some ([], s)
  | item :: rest => do
    let e ← s.evalItem fuel item
    let (es, s) ← e.session.evalItems fuel rest
    return (e :: es, s)

/-- The values of the top-level expressions that succeed. -/
def values (evaluated : List Evaluated) : List Float :=
  evaluated.filterMap fun e => match e.result with
    | .ok v => v
    | .error _ => none

/-! ### Assembly -/

/-- The text of the function that an item is compiled to, in a unit of its own. -/
def assembleItem (s : Session) (passes : IR.Pipeline) (item : Item) : String × Session :=
  let unit := s.freshUnit
  let s := { s with units := s.units + 1 }
  match item with
  | .function proto body =>
    match Codegen.function s.registry passes unit proto body with
    | (.error _, _) => ("Error during compilation\n", s)
    | (.ok f, _) =>
      (f.text, if proto.isAnonymous then s else { s with registry := s.registry.record proto })
  | .foreign proto =>
    ((IR.Func.declaration proto.name proto.params).text,
      { s with registry := s.registry.record proto })

def assembleItems (s : Session) (passes : IR.Pipeline) : List Item → String × Session
  | [] => ("", s)
  | item :: rest =>
    let (text, s) := s.assembleItem passes item
    let (texts, s) := s.assembleItems passes rest
    (text ++ texts, s)

/-- The texts of the functions that items are compiled to, without running anything. -/
def assembly (s : Session) (items : List Item) (debug : Bool) : String × Session :=
  s.assembleItems (passesFor (s.options.optimize && !debug)) items

end Session

end ScalarLang
