import ScalarLang.Token

/-! Reading tokens. The text is cut into pieces, each as long as possible; a piece is a token, or a
blank or comment that stands for none. -/

namespace ScalarLang

namespace Token

def isBlank (c : Char) : Bool := c == ' ' || c == '\t' || c == '\n' || c == '\r' || c == '\x0c'

def isNumeral (c : Char) : Bool := c.isDigit || c == '.'

def isWordChar (c : Char) : Bool := c.isAlphanum || c == '_'

def digitsValue (digits : List Char) : Nat :=
  digits.foldl (fun n c => 10 * n + (c.toNat - '0'.toNat)) 0

/-- The number that a run of digits and points spells: at least one digit and at most one point. -/
def readNumber (text : List Char) : Option Float :=
  let whole := text.takeWhile Char.isDigit
  match text.dropWhile Char.isDigit with
  | [] => if whole.isEmpty then none else some (Float.ofScientific (digitsValue whole) true 0)
  | _ :: fraction =>
    if fraction.all Char.isDigit ∧ ¬(whole ++ fraction).isEmpty then
      some (Float.ofScientific (digitsValue (whole ++ fraction)) true fraction.length)
    else none

/-- The characters that lengthen a piece that starts with `c`. -/
def continues (c : Char) : Char → Bool :=
  if isBlank c then isBlank
  else if c == '#' then (· != '\n')
  else if isNumeral c then isNumeral
  else if c.isAlpha then isWordChar
  else fun _ => false

/-- The token of a piece that starts with `c`; blanks and comments have none. -/
def ofPiece (c : Char) (text : List Char) : Option Token :=
  if isBlank c || c == '#' then none
  else if isNumeral c then some ((readNumber text).elim error number)
  else if c.isAlpha then
    let word := String.ofList text
    some ((keyword? word).getD (ident word))
  else if c ∈ operators then some (op c)
  else if c == '(' then some openParen
  else if c == ')' then some closeParen
  else if c == ',' then some comma
  else if c == ';' then some semi
  else some error

end Token

/-- A stretch of the text. -/
structure Piece where
  text : List Char
  token? : Option Token

/-- Cuts a text into its pieces. -/
def Piece.split : List Char → List Piece
  | [] => []
  | c :: cs =>
    let text := c :: cs.takeWhile (Token.continues c)
    ⟨text, Token.ofPiece c text⟩ :: split (cs.dropWhile (Token.continues c))
termination_by text => text.length
decreasing_by
  simpa using Nat.lt_succ_of_le (List.dropWhile_suffix _).length_le

def Piece.size (p : Piece) : Nat := p.text.foldr (fun c n => c.utf8Size + n) 0

/-- A token with the bytes it was read from. -/
structure Lexeme where
  token : Token
  start : Nat
  stop : Nat

/-- The tokens of pieces that begin `start` bytes into the text. -/
def Lexeme.ofPieces : (start : Nat) → List Piece → List Lexeme
  | _, [] => []
  | start, p :: ps =>
    let stop := start + p.size
    match p.token? with
    | some token => ⟨token, start, stop⟩ :: ofPieces stop ps
    | none => ofPieces stop ps

/-- The tokens of a text. -/
def lex (text : String) : List Lexeme := Lexeme.ofPieces 0 (Piece.split text.toList)

end ScalarLang
