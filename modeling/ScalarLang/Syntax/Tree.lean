/-! Syntax trees. Every value of the language is a double, so there are no types; a program is a
list of items. -/

namespace ScalarLang

inductive Expr where
  | number (value : Float)
  | var (name : String)
  | unary (op : Char) (operand : Expr)
  | binary (op : Char) (left right : Expr)
  /-- `var a = x, b in body`: an absent initial value is zero. -/
  | declare (vars : List (String × Option Expr)) (body : Expr)
  | call (callee : String) (args : List Expr)
  | cond (test yes : Expr) (no : Option Expr)
  /-- `for index = start, stop, step in body`. -/
  | loop (index : String) (start stop step body : Expr)
  deriving Inhabited

/-- What a prototype declares: a plain function or an operator. -/
inductive Fixity where
  | plain
  | unary
  | binary (precedence : UInt32)
  deriving DecidableEq

/-- The name and parameters of a function. -/
structure Prototype where
  name : String
  params : List String
  fixity : Fixity
  deriving DecidableEq

namespace Prototype

/-- The name under which a top-level expression is compiled. -/
def anonymousName : String := "__anon_expr"

def anonymous : Prototype := ⟨anonymousName, [], .plain⟩

def arity (p : Prototype) : Nat := p.params.length

def isAnonymous (p : Prototype) : Bool := p.name == anonymousName

/-- The function that a use of the prefix operator `op` calls. -/
def unaryName (op : Char) : String := "unary".push op

/-- The function that a use of the infix operator `op` calls. -/
def binaryName (op : Char) : String := "binary".push op

/-- The symbol of a prototype that declares an operator. -/
def operator? (p : Prototype) : Option Char :=
  match p.fixity with
  | .plain => none
  | _ => p.name.toList.getLast?

def precedence? (p : Prototype) : Option UInt32 :=
  match p.fixity with
  | .binary precedence => some precedence
  | _ => none

end Prototype

inductive Item where
  /-- A function defined elsewhere. -/
  | foreign (proto : Prototype)
  | function (proto : Prototype) (body : Expr)

namespace Item

def proto : Item → Prototype
  | foreign p => p
  | function p _ => p

def name (item : Item) : String := item.proto.name

/-- A top-level expression. -/
def ofExpr (e : Expr) : Item := function .anonymous e

end Item

end ScalarLang
