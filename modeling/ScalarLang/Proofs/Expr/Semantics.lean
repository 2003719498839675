import ScalarLang.IR.Basic
import ScalarLang.Proofs.Process
import ScalarLang.Syntax.Tree

/-! The meaning of an expression. A variable is a name for a cell, and an assignment changes the
cell that is visible under its name; what a program can observe besides are the calls that it makes.
Loops are cut off after a given number of rounds, so an expression runs forever if it is cut off
whatever that number is. -/

namespace ScalarLang

namespace Expr

/-- Why an evaluation ends without a value. -/
inductive Halt where
  /-- A loop has made all the rounds that it may make. -/
  | cutOff
  /-- A name is not bound, the target of an assignment is no variable, or a branch is missing. -/
  | wrong
  deriving DecidableEq

structure World where
  /-- The values of all cells created so far. -/
  cells : Array Float
  /-- The calls made so far. -/
  trace : Trace

/-- The cells that the visible names stand for, the innermost first. -/
abbrev Bindings := List (String × Nat)

abbrev Eval := ExceptT Halt (StateM World)

/-! ### Cells and calls -/

def create (v : Float) : Eval Nat :=
  modifyGet fun w => (w.cells.size, { w with cells := w.cells.push v })

/-- The innermost cell that is visible under a name. -/
def cell (env : Bindings) (name : String) : Eval Nat :=
  match env.lookup name with
  | some c => pure c
  | none => throw .wrong

def read (c : Nat) : Eval Float := return (← get).cells.getD c 0.0

def write (c : Nat) (v : Float) : Eval Unit :=
  modify fun w => { w with cells := w.cells.setIfInBounds c v }

/-- Calls a function and takes the answer of the oracle. -/
def ask (o : Oracle) (callee : String) (args : List Float) : Eval Float :=
  modifyGet fun w =>
    let call : Call := ⟨callee, args⟩
    (o w.trace call, { w with trace := w.trace ++ [(call, o w.trace call)] })

/-! ### Operators -/

/-- Whether a condition holds: it is comparable to zero and different from it. -/
def isTrue (v : Float) : Bool := IR.Comparison.one.apply v 0.0

/-- Operators other than these are functions. -/
def applyBinary (o : Oracle) (op : Char) (left right : Float) : Eval Float :=
  match op with
  | '+' => return IR.BinaryOp.add.apply left right
  | '-' => return IR.BinaryOp.sub.apply left right
  | '*' => return IR.BinaryOp.mul.apply left right
  | '/' => return IR.BinaryOp.div.apply left right
  | '<' => return IR.boolValue (IR.Comparison.ult.apply left right)
  | op => ask o (Prototype.binaryName op) [left, right]

/-! ### Expressions -/

/-- Repeats a round as long as it yields true, at most `n` times. -/
def rounds : (n : Nat) → (round : Eval Bool) → Eval Unit
  | 0, _ => throw .cutOff
  | n + 1, round => do if ← round then rounds n round

mutual

/-- The value of an expression whose loops make at most `n` rounds. -/
def eval (o : Oracle) (n : Nat) : Expr → Bindings → Eval Float
  | .number v, _ => return v
  | .var name, env => do read (← cell env name)
  | .unary op e, env => do
    let v ← eval o n e env
    ask o (Prototype.unaryName op) [v]
  | .binary op left right, env =>
    if op = '=' then
      match left with
      | .var name => do
        let v ← eval o n right env
        write (← cell env name) v
        return v
      | _ => throw .wrong
    else do
      let l ← eval o n left env
      let r ← eval o n right env
      applyBinary o op l r
  | .declare vars body, env => evalVars o n vars env (eval o n body)
  | .call callee args, env => do
    let vs ← evalArgs o n args env
    ask o callee vs
  | .cond test yes no, env => do
    if isTrue (← eval o n test env) then eval o n yes env else evalElse o n no env
  | .loop index start stop step body, env => do
    let first ← eval o n start env
    let c ← create first
    let inner := (index, c) :: env
    rounds n do
      let _ ← eval o n body inner
      let increment ← eval o n step inner
      write c ((← read c) + increment)
      return isTrue (← eval o n stop inner)
    return 0.0

def evalArgs (o : Oracle) (n : Nat) : List Expr → Bindings → Eval (List Float)
  | [], _ => return []
  | e :: rest, env => do
    let v ← eval o n e env
    return v :: (← evalArgs o n rest env)

/-- Creates the variables one after the other, and evaluates the body where all are visible. -/
def evalVars (o : Oracle) (n : Nat) :
    List (String × Option Expr) → Bindings → (Bindings → Eval Float) → Eval Float
  | [], env, body => body env
  | (name, init) :: rest, env, body => do
    let v ← evalInit o n init env
    let c ← create v
    evalVars o n rest ((name, c) :: env) body

/-- An absent initial value is zero. -/
def evalInit (o : Oracle) (n : Nat) : Option Expr → Bindings → Eval Float
  | some e, env => eval o n e env
  | none, _ => return 0.0

def evalElse (o : Oracle) (n : Nat) : Option Expr → Bindings → Eval Float
  | some e, env => eval o n e env
  | none, _ => throw .wrong

end

theorem eval_binary {o : Oracle} {n : Nat} {op : Char} (hop : op ≠ '=') (left right : Expr)
    (env : Bindings) : eval o n (.binary op left right) env = (do
      let l ← eval o n left env
      let r ← eval o n right env
      applyBinary o op l r) := by
  cases left <;> simp only [eval, if_neg hop]

/-! ### Functions -/

/-- The names of the parameters stand for the first cells; of equal names the last is visible. -/
def paramBindings (params : List String) : Bindings := params.zipIdx.reverse

/-- The world in which the body of a function is evaluated. -/
def start (params : List String) (args : List Float) : World where
  cells := ((List.range params.length).map (args.getD · 0.0)).toArray
  trace := []

def evalBody (o : Oracle) (n : Nat) (params : List String) (body : Expr) (args : List Float) :
    Except Halt Float × World :=
  (eval o n body (paramBindings params)).run.run (start params args)

/-- What can be observed of a function with this body. -/
def behaviour (params : List String) (body : Expr) (args : List Float) (o : Oracle) :
    Behaviour where
  returns t v := ∃ n w, evalBody o n params body args = (.ok v, w) ∧ w.trace = t
  diverges := ∀ n, (evalBody o n params body args).1 = .error .cutOff
  fails t := ∃ n w, evalBody o n params body args = (.error .wrong, w) ∧ w.trace = t
  calls t := ∃ n, t <+: (evalBody o n params body args).2.trace

end Expr

end ScalarLang
