import ScalarLang.Table

/-! The table of infix operators. A program can add operators, so the table is carried through the
parser and from one text to the next. -/

namespace ScalarLang

/-- How tightly an infix operator binds on its left and on its right. -/
structure BindingPower where
  left : UInt32
  right : UInt32
  deriving DecidableEq

/-- The known infix operators with their precedences. -/
abbrev Operators := Table Char UInt32

namespace Operators

def empty : Operators := {}

/-- Adds an operator, or gives a known one a new precedence. -/
def install (t : Operators) (op : Char) (precedence : UInt32) : Operators :=
  Table.insert t op precedence

def ofList (entries : List (Char × UInt32)) : Operators :=
  entries.foldl (fun t entry => install t entry.1 entry.2) empty

/-- The operators that every program starts with. -/
def standard : Operators :=
  ofList [('=', 2), ('<', 10), ('+', 20), ('-', 20), ('*', 40), ('/', 40)]

/-- Operators associate to the left, assignment to the right. -/
def power? (t : Operators) (op : Char) : Option BindingPower :=
  (t.find? op).map fun p => if op = '=' then ⟨2 * p + 1, 2 * p⟩ else ⟨2 * p, 2 * p + 1⟩

/-- Known operators have a binding power. -/
theorem exists_power {t : Operators} {op : Char} (h : (t.find? op).isSome) :
    ∃ power, t.power? op = some power := by
  obtain ⟨precedence, h⟩ := Option.isSome_iff_exists.1 h
  exact ⟨_, by rw [power?, h, Option.map_some]⟩

/-- Whether two tables know the same operators with the same precedences. -/
def same (t u : Operators) : Bool :=
  (t.entries ++ u.entries).all fun entry => t.find? entry.1 = u.find? entry.1

/-- The precedence of an operator that is declared without one. -/
def defaultPrecedence : UInt32 := 30

end Operators

end ScalarLang
