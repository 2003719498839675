import ScalarLang.Decimal.Text

/-! The tokens of the language. -/

namespace ScalarLang

inductive Token where
  | number (value : Float)
  | ident (name : String)
  | op (symbol : Char)
  | openParen
  | closeParen
  | comma
  | semi
  | kwDef
  | kwExtern
  | kwIf
  | kwThen
  | kwElse
  | kwFor
  | kwIn
  | kwVar
  | kwBinary
  | kwUnary
  /-- Text that is no token. -/
  | error
  deriving DecidableEq, Inhabited

namespace Token

/-- The symbols that are operators. -/
def operators : List Char := "!$%&*+-/:<=>?@^|~".toList

/-- The reserved words. -/
def keyword? : String → Option Token
  | "def" => some kwDef
  | "extern" => some kwExtern
  | "if" => some kwIf
  | "then" => some kwThen
  | "else" => some kwElse
  | "for" => some kwFor
  | "in" => some kwIn
  | "var" => some kwVar
  | "binary" => some kwBinary
  | "unary" => some kwUnary
  | _ => none

/-- Numbers in messages keep a fraction and take an exponent below `1e-4` and from `1e16` on. -/
def numberStyle : Decimal.Style where
  fraction := true
  exponential point := point < -3 || 17 ≤ point

/-- How a token is named in a message. -/
def describe : Token → String
  | number v => s!"Number({numberStyle.write v})"
  | ident name => s!"Identifier(\"{name}\")"
  | op c => s!"Op('{c}')"
  | openParen => "OpenParen"
  | closeParen => "CloseParen"
  | comma => "Comma"
  | semi => "Semi"
  | kwDef => "Def"
  | kwExtern => "Extern"
  | kwIf => "If"
  | kwThen => "Then"
  | kwElse => "Else"
  | kwFor => "For"
  | kwIn => "In"
  | kwVar => "Var"
  | kwBinary => "Binary"
  | kwUnary => "Unary"
  | error => "Error"

end Token

end ScalarLang
