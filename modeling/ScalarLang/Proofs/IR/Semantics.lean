import ScalarLang.IR.Basic
import ScalarLang.Proofs.Process

/-! Running a function of the intermediate representation. All values are doubles, truth values
among them. Entering a block gives all its phis their values at once; then its other instructions
are carried out in order. -/

namespace ScalarLang.IR

/-- The values of slots and results; both are zero at first. -/
structure Env where
  args : List Float
  slots : SlotId → Float
  results : InstId → Float

namespace Env

def start (args : List Float) : Env := ⟨args, fun _ => 0.0, fun _ => 0.0⟩

def value (env : Env) : Operand → Float
  | .inst i => env.results i
  | .arg n => env.args.getD n 0.0
  | .const v => v
  | .bool b => boolValue b

def setResult (env : Env) (i : InstId) (v : Float) : Env :=
  { env with results := fun j => if j = i then v else env.results j }

def setSlot (env : Env) (s : SlotId) (v : Float) : Env :=
  { env with slots := fun s' => if s' = s then v else env.slots s' }

end Env

/-- A place in the code, with the values there. -/
structure State where
  block : BlockId
  /-- The instructions of the block that are left. -/
  rest : List InstId
  env : Env

/-- The value that a phi receives from a block, if it receives one. -/
def incoming? (incoming : List (Operand × BlockId)) (source : BlockId) : Option Operand :=
  (incoming.find? (·.2 = source)).map (·.1)

namespace Func

def isPhiInst (f : Func) (i : InstId) : Bool := (f.op i).isPhi

/-- The instructions of a block without its phis. -/
def body (f : Func) (b : BlockId) : List InstId := (f.block b).insts.filter (!f.isPhiInst ·)

/-- The new value of a phi of a block that is entered from `source`. -/
def phiValue? (f : Func) (source : BlockId) (env : Env) (i : InstId) : Option Float :=
  match f.op i with
  | .phi incoming => (incoming? incoming source).map env.value
  | _ => none

/-- The phis of `target` read their values before any of them is changed. -/
def enterEnv (f : Func) (source target : BlockId) (env : Env) : Env :=
  { env with results := fun i =>
      if i ∈ (f.block target).insts then (f.phiValue? source env i).getD (env.results i)
      else env.results i }

/-- The state after a branch from `source` to `target`. -/
def enter (f : Func) (source target : BlockId) (env : Env) : State :=
  ⟨target, f.body target, f.enterEnv source target env⟩

/-- The values after an operation, other than a call, whose result belongs to instruction `i`. -/
def evalOp (i : InstId) (env : Env) : Operation → Env
  | .binary op l r => env.setResult i (op.apply (env.value l) (env.value r))
  | .compare test l r => env.setResult i (boolValue (test.apply (env.value l) (env.value r)))
  | .toDouble v => env.setResult i (env.value v)
  | .load s => env.setResult i (env.slots s)
  | .store s v => env.setSlot s (env.value v)
  | .call .. | .phi _ => env

/-- Carries out instruction `i`; `rest` comes after it. -/
def stepInst (f : Func) (b : BlockId) (i : InstId) (rest : List InstId) (env : Env) :
    Action State :=
  match f.op i with
  | .call callee args =>
    .ask ⟨callee, args.map env.value⟩ fun v => ⟨b, rest, env.setResult i v⟩
  | op => .next ⟨b, rest, evalOp i env op⟩

/-- Leaves a block; a truth value is taken for false if it is zero. -/
def stepTerminator (f : Func) (b : BlockId) (env : Env) : Option Terminator → Action State
  | some (.br target) => .next (f.enter b target env)
  | some (.condBr cond yes no) =>
    .next (f.enter b (if env.value cond == 0.0 then no else yes) env)
  | some (.ret v) => .done (env.value v)
  | none => .stuck

def step (f : Func) (s : State) : Action State :=
  match s.rest with
  | i :: rest => f.stepInst s.block i rest s.env
  | [] => f.stepTerminator s.block s.env (f.block s.block).terminator

/-- The run of a function begins in its entry block; that of a declaration has no block to be in. -/
def startState (f : Func) (args : List Float) : State :=
  match f.entry? with
  | some b => ⟨b, f.body b, .start args⟩
  | none => ⟨f.blocks.size, [], .start args⟩

/-- The run of a function with these arguments. -/
def process (f : Func) (args : List Float) : Process := ⟨State, f.step, f.startState args⟩

end Func

end ScalarLang.IR
