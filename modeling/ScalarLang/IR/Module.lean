import ScalarLang.IR.Basic

/-! A module: functions in the order in which they were added, one for each name. -/

namespace ScalarLang.IR

structure Module where
  name : String
  functions : List Func := []

namespace Module

def find? (m : Module) (name : String) : Option Func := m.functions.find? (·.name == name)

/-- Declares a function, unless there is one of that name. -/
def declare (m : Module) (name : String) (params : List String) : Module :=
  if (m.find? name).isSome then m
  else { m with functions := m.functions ++ [.declaration name params] }

/-- Adds a function in the place of the one with its name, else at the end. -/
def define (m : Module) (f : Func) : Module :=
  if (m.find? f.name).isSome then
    { m with functions := m.functions.map fun g => if g.name == f.name then f else g }
  else { m with functions := m.functions ++ [f] }

def remove (m : Module) (name : String) : Module :=
  { m with functions := m.functions.filter (·.name != name) }

/-- The functions with a body. -/
def definitions (m : Module) : List Func := m.functions.filter (!·.isDeclaration)

def isEmpty (m : Module) : Bool := m.functions.isEmpty

end Module

end ScalarLang.IR
