import ScalarLang.Operators
import ScalarLang.Syntax.Tree
import ScalarLang.Token

/-! Parsing expressions from a list of tokens. A parser returns a value and the tokens left over, or
the cause of the failure and the tokens from the one at fault on. Both carry a bound on how many
tokens are left, which is why the parsers end. -/

namespace ScalarLang

/-- What the grammar asks for at some place. -/
inductive Wanted where
  | identifier
  | assignment
  | argumentEnd
  | operator
  | functionName

def Wanted.text : Wanted → String
  | identifier => "identifier"
  | assignment => "'='"
  | argumentEnd => "',' or ')' in argument list"
  | operator => "operator"
  | functionName => "function name in prototype"

/-- Why a text is not in the language. -/
inductive SyntaxCause where
  | unexpected
  | expected (what : Wanted)
  | precedence (value : Float)
  | operands (op : Char) (expected found : Nat)

/-- Precedences in messages are written without an exponent. -/
def SyntaxCause.numberStyle : Decimal.Style where
  fraction := false
  exponential _ := false

/-- The message of an error at the token `found`; there is none at the end of the text. -/
def SyntaxCause.message (cause : SyntaxCause) (found : Option Token) : String :=
  let token := found.elim "Eof" Token.describe
  match cause with
  | unexpected => s!"Unexpected token {token}"
  | expected what => s!"Expected {what.text}, found {token}"
  | precedence value => s!"Invalid precedence {numberStyle.write value}: must be 1..100"
  | operands op n m => s!"Invalid number of operands for operator '{op}': expected {n}, found {m}"

/-- A failure with at most `bound` tokens left, the first of them the one at fault. -/
structure Failure (bound : Nat) where
  cause : SyntaxCause
  rest : List Token
  rest_le : rest.length ≤ bound

/-- A value with fewer than `bound` tokens left. -/
structure Parsed (α : Type) (bound : Nat) where
  value : α
  rest : List Token
  rest_lt : rest.length < bound

abbrev ParseResult (α : Type) (bound : Nat) := Except (Failure bound) (Parsed α bound)

namespace ParseResult

variable {α β : Type} {m n : Nat}

/-- The parser for `tokens` refuses their first. -/
def fail (cause : SyntaxCause) (tokens : List Token) (h : tokens.length ≤ n) : ParseResult α n :=
  .error ⟨cause, tokens, h⟩

def succeed (value : α) (rest : List Token) (h : rest.length < n) : ParseResult α n :=
  .ok ⟨value, rest, h⟩

/-- The same result under a larger bound. -/
def weaken (h : m ≤ n) : ParseResult α m → ParseResult α n
  | .error f => .error ⟨f.cause, f.rest, Nat.le_trans f.rest_le h⟩
  | .ok p => .ok ⟨p.value, p.rest, Nat.lt_of_lt_of_le p.rest_lt h⟩

/-- Goes on with what the first parser left. -/
def andThen (r : ParseResult α n)
    (next : (value : α) → (rest : List Token) → rest.length < n → ParseResult β n) :
    ParseResult β n :=
  match r with
  | .error f => .error f
  | .ok p => next p.value p.rest p.rest_lt

def map (f : α → β) (r : ParseResult α n) : ParseResult β n :=
  r.andThen fun value rest h => succeed (f value) rest h

end ParseResult

open ParseResult

/-- Takes the token `t`. -/
def expect (t : Token) (tokens : List Token) : ParseResult Unit tokens.length :=
  match tokens with
  | [] => fail .unexpected [] (Nat.le_refl _)
  | found :: rest =>
    if found = t then succeed () rest (Nat.lt_succ_self _)
    else fail .unexpected (found :: rest) (Nat.le_refl _)

/-- Takes the sign of an assignment. -/
def expectAssign (tokens : List Token) : ParseResult Unit tokens.length :=
  match tokens with
  | .op '=' :: rest => succeed () rest (Nat.lt_succ_self _)
  | refused => fail (.expected .assignment) refused (Nat.le_refl _)

def parseIdent (tokens : List Token) : ParseResult String tokens.length :=
  match tokens with
  | .ident name :: rest => succeed name rest (Nat.lt_succ_self _)
  | refused => fail (.expected .identifier) refused (Nat.le_refl _)

/-- The step of a loop that gives none. -/
def Expr.defaultStep : Expr := .number 1.0

-- The measures count the tokens left, and then rank the parsers: one hands all its tokens only to
-- those below it.
mutual

/-- An expression whose infix operators bind at least as tightly as `least` on their left. -/
def parseExpr (ops : Operators) (least : UInt32) (tokens : List Token) :
    ParseResult Expr tokens.length :=
  (parseUnary ops tokens).andThen fun left rest h =>
    (parseInfix ops least left rest).weaken (by omega)
termination_by 5 * tokens.length + 3

/-- The infix operators and their right operands that follow `left`. -/
def parseInfix (ops : Operators) (least : UInt32) (left : Expr) (tokens : List Token) :
    ParseResult Expr (tokens.length + 1) :=
  match tokens with
  | .op c :: rest =>
    match ops.power? c with
    | some power =>
      if least ≤ power.left then
        ((parseExpr ops power.right rest).andThen fun right rest' h =>
          (parseInfix ops least (.binary c left right) rest').weaken h).weaken
            (Nat.le_succ_of_le (Nat.le_succ _))
      else succeed left (.op c :: rest) (Nat.lt_succ_self _)
    | none => succeed left (.op c :: rest) (Nat.lt_succ_self _)
  | others => succeed left others (Nat.lt_succ_self _)
termination_by 5 * tokens.length

/-- Prefix operators and their operand. -/
def parseUnary (ops : Operators) (tokens : List Token) : ParseResult Expr tokens.length :=
  match tokens with
  | .op c :: rest => ((parseUnary ops rest).map (.unary c)).weaken (Nat.le_succ _)
  | others => parsePrimary ops others
termination_by 5 * tokens.length + 2

def parsePrimary (ops : Operators) (tokens : List Token) : ParseResult Expr tokens.length :=
  match tokens with
  | .number v :: rest => succeed (.number v) rest (Nat.lt_succ_self _)
  | .ident name :: .openParen :: .closeParen :: rest =>
    succeed (.call name []) rest (by simp only [List.length_cons]; omega)
  | .ident name :: .openParen :: rest =>
    ((parseArgs ops rest).map (.call name)).weaken (by simp only [List.length_cons]; omega)
  | .ident name :: rest => succeed (.var name) rest (Nat.lt_succ_self _)
  | .openParen :: rest =>
    ((parseExpr ops 0 rest).andThen fun inner rest' h =>
      ((expect .closeParen rest').map fun _ => inner).weaken (by omega)).weaken (Nat.le_succ _)
  | .kwIf :: rest => (parseCond ops rest).weaken (Nat.le_succ _)
  | .kwFor :: rest => (parseLoop ops rest).weaken (Nat.le_succ _)
  | .kwVar :: rest =>
    ((parseVars ops rest).andThen fun vars rest' h =>
      ((expect .kwIn rest').weaken (by omega)).andThen fun _ rest₂ h₂ =>
        ((parseExpr ops 0 rest₂).map (.declare vars)).weaken (by omega)).weaken (Nat.le_succ _)
  | refused => fail .unexpected refused (Nat.le_refl _)
termination_by 5 * tokens.length + 1

/-- The arguments of a call, from the first on, and the parenthesis that ends them. -/
def parseArgs (ops : Operators) (tokens : List Token) : ParseResult (List Expr) tokens.length :=
  (parseExpr ops 0 tokens).andThen fun arg rest h =>
    match rest with
    | .closeParen :: rest' => succeed [arg] rest' (Nat.lt_of_succ_lt h)
    | .comma :: rest' =>
      have shorter : rest'.length < tokens.length := Nat.lt_of_succ_lt h
      ((parseArgs ops rest').map (arg :: ·)).weaken (Nat.le_of_lt shorter)
    | refused => fail (.expected .argumentEnd) refused (Nat.le_of_lt h)
termination_by 5 * tokens.length + 4

/-- A conditional after its first word. -/
def parseCond (ops : Operators) (tokens : List Token) : ParseResult Expr tokens.length :=
  (parseExpr ops 0 tokens).andThen fun test rest₁ h₁ =>
    ((expect .kwThen rest₁).weaken (by omega)).andThen fun _ rest₂ h₂ =>
      ((parseExpr ops 0 rest₂).weaken (by omega)).andThen fun yes rest₃ h₃ =>
        match rest₃ with
        | .kwElse :: rest₄ =>
          have shorter : rest₄.length < tokens.length := Nat.lt_of_succ_lt h₃
          ((parseExpr ops 0 rest₄).map fun no => .cond test yes (some no)).weaken
            (Nat.le_of_lt shorter)
        | others => succeed (.cond test yes none) others h₃
termination_by 5 * tokens.length + 4

/-- A loop after its first word. -/
def parseLoop (ops : Operators) (tokens : List Token) : ParseResult Expr tokens.length :=
  (parseIdent tokens).andThen fun index rest₁ h₁ =>
    ((expectAssign rest₁).weaken (by omega)).andThen fun _ rest₂ h₂ =>
      ((parseExpr ops 0 rest₂).weaken (by omega)).andThen fun start rest₃ h₃ =>
        ((expect .comma rest₃).weaken (by omega)).andThen fun _ rest₄ h₄ =>
          ((parseExpr ops 0 rest₄).weaken (by omega)).andThen fun stop rest₅ h₅ =>
            (parseStep ops rest₅ h₅).andThen fun step rest₆ h₆ =>
              ((expect .kwIn rest₆).weaken (by omega)).andThen fun _ rest₇ h₇ =>
                ((parseExpr ops 0 rest₇).map (.loop index start stop step)).weaken (by omega)
termination_by 5 * tokens.length + 4

/-- The step of a loop, if it is given. -/
def parseStep (ops : Operators) {n : Nat} (tokens : List Token) (h : tokens.length < n) :
    ParseResult Expr n :=
  match tokens with
  | .comma :: rest =>
    (parseExpr ops 0 rest).weaken (Nat.le_of_lt (Nat.lt_of_succ_lt h))
  | others => succeed Expr.defaultStep others h
termination_by 5 * tokens.length

/-- The variables of a declaration. -/
def parseVars (ops : Operators) (tokens : List Token) :
    ParseResult (List (String × Option Expr)) tokens.length :=
  (parseIdent tokens).andThen fun name rest h =>
    (parseInit ops rest h).andThen fun init rest' h' =>
      match rest' with
      | .comma :: rest₂ =>
        have shorter : rest₂.length < tokens.length := Nat.lt_of_succ_lt h'
        ((parseVars ops rest₂).map ((name, init) :: ·)).weaken (Nat.le_of_lt shorter)
      | others => succeed [(name, init)] others h'
termination_by 5 * tokens.length + 4

/-- The initial value of a variable, if it is given. -/
def parseInit (ops : Operators) {n : Nat} (tokens : List Token) (h : tokens.length < n) :
    ParseResult (Option Expr) n :=
  match tokens with
  | .op c :: rest =>
    if c = '=' then ((parseExpr ops 0 rest).map some).weaken (Nat.le_of_lt (Nat.lt_of_succ_lt h))
    else succeed none (.op c :: rest) h
  | others => succeed none others h
termination_by 5 * tokens.length

end

end ScalarLang
