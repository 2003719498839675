import ScalarLang.Source
import ScalarLang.Syntax.Parser
import ScalarLang.Token.Lexer

/-! Parsing prototypes, items and whole programs. A prototype of an infix operator enters it into
the operator table at once, so its own body and all that follows can use it. After an error the
parser skips to the next place where an item can begin. -/

namespace ScalarLang

open ParseResult

/-! ### How much is left -/

theorem whole_le (tokens : List Token) : tokens.length ≤ tokens.length := Nat.le_refl _

theorem tail_le (rest : List Token) : rest.length ≤ rest.length + 1 := Nat.le_succ _

theorem tail_lt (rest : List Token) : rest.length < rest.length + 1 := Nat.lt_succ_self _

theorem le_of_shorter {rest tokens : List Token} (h : rest.length < tokens.length) :
    rest.length ≤ tokens.length := Nat.le_of_lt h

/-! ### Prototypes -/

/-- The symbol of a declared operator. -/
def parseSymbol (tokens : List Token) : ParseResult Char tokens.length :=
  match tokens with
  | .op c :: rest => succeed c rest (tail_lt rest)
  | refused => fail (.expected .operator) refused (whole_le refused)

/-- The precedence that a number gives an operator: a whole number from 1 to 100. -/
def precedenceOf (value : Float) : Option UInt32 :=
  let p := value.toUInt32
  -- doubles with the same value are the same, unless they are zero, which is out of range
  if p.toFloat = value ∧ 1 ≤ p ∧ p ≤ 100 then some p else none

/-- The precedence of a declared infix operator, if it is given. -/
def parsePrecedence {n : Nat} (tokens : List Token) (h : tokens.length < n) :
    ParseResult UInt32 n :=
  match tokens with
  | .number v :: rest =>
    match precedenceOf v with
    | some p => succeed p rest (Nat.lt_of_succ_lt h)
    | none => fail (.precedence v) (.number v :: rest) (Nat.le_of_lt h)
  | others => succeed Operators.defaultPrecedence others h

/-- What a prototype begins with. -/
inductive Head where
  | plain (name : String)
  | unary (op : Char)
  | binary (op : Char) (precedence : UInt32)

def parseHead (tokens : List Token) : ParseResult Head tokens.length :=
  match tokens with
  | .ident name :: rest => succeed (.plain name) rest (tail_lt rest)
  | .kwUnary :: rest => ((parseSymbol rest).map .unary).weaken (tail_le rest)
  | .kwBinary :: rest =>
    ((parseSymbol rest).andThen fun op rest' h =>
      (parsePrecedence rest' h).map (.binary op)).weaken (tail_le rest)
  | refused => fail (.expected .functionName) refused (whole_le refused)

/-- Parameters, each with an optional comma after it, and the tokens after them. -/
def takeParams : List Token → List String × List Token
  | .ident name :: .comma :: rest => (name :: (takeParams rest).1, (takeParams rest).2)
  | .ident name :: rest => (name :: (takeParams rest).1, (takeParams rest).2)
  | rest => ([], rest)

theorem takeParams_length_le (tokens : List Token) :
    (takeParams tokens).2.length ≤ tokens.length := by
  fun_induction takeParams tokens <;> grind

/-- Parameters in parentheses. -/
def parseParams (tokens : List Token) : ParseResult (List String) tokens.length :=
  (expect .openParen tokens).andThen fun _ rest h =>
    have le := takeParams_length_le rest
    ((expect .closeParen (takeParams rest).2).map fun _ => (takeParams rest).1).weaken (by omega)

/-- The prototype with this head, if the operator has as many parameters as operands. -/
def Head.toPrototype (head : Head) (params : List String) : Except SyntaxCause Prototype :=
  match head with
  | plain name => .ok ⟨name, params, .plain⟩
  | unary op =>
    if params.length = 1 then .ok ⟨Prototype.unaryName op, params, .unary⟩
    else .error (.operands op 1 params.length)
  | binary op precedence =>
    if params.length = 2 then .ok ⟨Prototype.binaryName op, params, .binary precedence⟩
    else .error (.operands op 2 params.length)

def parsePrototype (tokens : List Token) : ParseResult Prototype tokens.length :=
  (parseHead tokens).andThen fun head rest h =>
    ((parseParams rest).weaken (le_of_shorter h)).andThen fun params rest' h' =>
      match head.toPrototype params with
      | .ok proto => succeed proto rest' h'
      | .error cause => fail cause rest' (le_of_shorter h')

/-! ### Items -/

/-- The table after a prototype was read. -/
def Operators.extend (ops : Operators) (proto : Prototype) : Operators :=
  match proto.operator?, proto.precedence? with
  | some op, some precedence => ops.install op precedence
  | _, _ => ops

/-- An item after the word that begins a definition. -/
def parseDefinition (ops : Operators) (tokens : List Token) :
    Operators × ParseResult Item tokens.length :=
  match parsePrototype tokens with
  | .error f => (ops, .error f)
  | .ok proto =>
    let ops := ops.extend proto.value
    (ops, ((parseExpr ops 0 proto.rest).map (.function proto.value)).weaken
      (Nat.le_of_lt proto.rest_lt))

/-- An item, with the operator table after it; a prototype counts even if its body is refused. -/
def parseItem (ops : Operators) (tokens : List Token) :
    Operators × ParseResult Item tokens.length :=
  match tokens with
  | .kwDef :: rest =>
    let (ops, result) := parseDefinition ops rest
    (ops, result.weaken (tail_le rest))
  | .kwExtern :: rest =>
    match parsePrototype rest with
    | .error f => (ops, weaken (tail_le rest) (.error f))
    | .ok proto =>
      (ops.extend proto.value,
        succeed (.foreign proto.value) proto.rest (Nat.lt_succ_of_lt proto.rest_lt))
  | others => (ops, (parseExpr ops 0 others).map .ofExpr)

/-- Whether an item can begin here after an error, or the text between items ends. -/
def Token.isBoundary : Token → Bool
  | .semi | .kwDef | .kwExtern => true
  | _ => false

/-- Skips what is left of a broken item. -/
def synchronize (tokens : List Token) : List Token := tokens.dropWhile (!·.isBoundary)

theorem synchronize_length_le (tokens : List Token) :
    (synchronize tokens).length ≤ tokens.length :=
  (List.dropWhile_suffix _).length_le

/-- A refused item: why, and the tokens from the one at fault on. -/
structure SyntaxError where
  cause : SyntaxCause
  rest : List Token

def Failure.toError {n : Nat} (f : Failure n) : SyntaxError := ⟨f.cause, f.rest⟩

/-- What parsing leaves: the items, the errors and the operator table. -/
structure Program where
  items : List Item
  errors : List SyntaxError
  operators : Operators

namespace Program

/-- No items and no errors. -/
def empty (ops : Operators) : Program := ⟨[], [], ops⟩

def addItem (item : Item) (p : Program) : Program := { p with items := item :: p.items }

def addError (error : SyntaxError) (p : Program) : Program :=
  { p with errors := error :: p.errors }

end Program

/-- The tokens at which parsing goes on after an item was refused whose first token stands before
`rest`. That token is skipped even if it is the one at fault. -/
def resume (rest : List Token) (f : Failure (rest.length + 1)) : List Token :=
  synchronize (if f.rest.length ≤ rest.length then f.rest else rest)

theorem resume_length_le (rest : List Token) (f : Failure (rest.length + 1)) :
    (resume rest f).length ≤ rest.length := by
  unfold resume
  split
  · exact Nat.le_trans (synchronize_length_le _) ‹_›
  · exact synchronize_length_le _

def parseProgram (ops : Operators) (tokens : List Token) : Program :=
  match tokens with
  | [] => .empty ops
  | .semi :: rest => parseProgram ops rest
  | t :: rest =>
    match parseItem ops (t :: rest) with
    | (ops, .ok item) => (parseProgram ops item.rest).addItem item.value
    | (ops, .error f) => (parseProgram ops (resume rest f)).addError f.toError
termination_by tokens.length
decreasing_by
  · exact Nat.lt_succ_self _
  · exact item.rest_lt
  · exact Nat.lt_succ_of_le (resume_length_le rest f)

/-! ### Texts -/

/-- The error with the place of the token at fault among the tokens of the text. -/
def SyntaxError.locate (lexemes : List Lexeme) (size : Nat) (e : SyntaxError) : Diagnostic :=
  let message := e.cause.message e.rest.head?
  match lexemes.drop (lexemes.length - e.rest.length) with
  | lexeme :: _ => ⟨message, lexeme.start, lexeme.stop⟩
  | [] => ⟨message, size, size⟩

/-- The source of a parsed text, with the errors that were found. -/
def Source.ofErrors (text : String) (lexemes : List Lexeme) (errors : List SyntaxError) :
    Source :=
  ⟨text, errors.map (·.locate lexemes text.utf8ByteSize)⟩

/-- A program and the source it was read from. -/
structure Reading where
  program : Program
  source : Source

def readProgram (ops : Operators) (text : String) : Reading :=
  let lexemes := lex text
  let program := parseProgram ops (lexemes.map (·.token))
  ⟨program, .ofErrors text lexemes program.errors⟩

/-- A parser in the middle of a text. -/
structure Cursor where
  tokens : List Token
  operators : Operators
  errors : List SyntaxError := []

namespace Cursor

/-- Moves past what was parsed, or records the error and stays at the token at fault. -/
def advance {α : Type} {n : Nat} (c : Cursor) (operators : Operators) (r : ParseResult α n) :
    Option α × Cursor :=
  match r with
  | .ok p => (some p.value, { c with tokens := p.rest, operators })
  | .error f => (none, ⟨f.rest, operators, c.errors ++ [f.toError]⟩)

def item (c : Cursor) : Option Item × Cursor :=
  let (operators, result) := parseItem c.operators c.tokens
  c.advance operators result

def expr (c : Cursor) : Option Expr × Cursor :=
  c.advance c.operators (parseExpr c.operators 0 c.tokens)

def prototype (c : Cursor) : Option Prototype × Cursor :=
  match c.advance c.operators (parsePrototype c.tokens) with
  | (some proto, c) => (some proto, { c with operators := c.operators.extend proto })
  | (none, c) => (none, c)

end Cursor

end ScalarLang
