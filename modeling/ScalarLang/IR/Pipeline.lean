import ScalarLang.IR.Pass.Dead
import ScalarLang.IR.Pass.Fold
import ScalarLang.IR.Pass.Promote
import ScalarLang.IR.Pass.Simplify

/-! Passes and pipelines of them. A pipeline is run in rounds until one of them changes nothing, but
not for more than `maxRounds`; after the last of these, another could still change the function. -/

namespace ScalarLang.IR

inductive Pass where
  | promote | fold | simplify | dead
  deriving DecidableEq

namespace Pass

def name : Pass → String
  | promote => "promote-single-store"
  | fold => "constant-fold"
  | simplify => "simplify-cfg"
  | dead => "dce"

/-- The function after the pass, and whether the pass changed it. -/
def run : Pass → Func → Func × Bool
  | promote => Promote.run
  | fold => Fold.run
  | simplify => Simplify.run
  | dead => Dead.run

/-- Whether all that the pass looks at in the function exists. -/
def runs : Pass → Func → Bool
  | promote, f => f.slotsExist
  | fold, f => f.placedExists
  | simplify, f => Simplify.runs f
  | dead, f => f.usesExist && f.slotsExist

/-- The pass on a function that need not make sense. -/
def run? (p : Pass) (f : Func) : Option (Func × Bool) :=
  if p.runs f then some (p.run f) else none

end Pass

abbrev Pipeline := List Pass

namespace Pipeline

/-- All passes, in the order in which they help each other. -/
def standard : Pipeline := [.promote, .fold, .simplify, .dead]

/-- How often a pipeline is run at most. -/
def maxRounds : Nat := 8

/-- Runs each pass once. -/
def round (passes : Pipeline) (f : Func) : Func × Bool :=
  passes.foldl (fun (f, changed) p =>
    let (f, c) := p.run f
    (f, changed || c)) (f, false)

/-- Runs at most `n` rounds and counts those that changed something. -/
def rounds (passes : Pipeline) : (n : Nat) → Func → Func × Nat
  | 0, f => (f, 0)
  | n + 1, f =>
    match round passes f with
    | (f, false) => (f, 0)
    | (f, true) =>
      let (f, k) := rounds passes n f
      (f, k + 1)

def run (passes : Pipeline) (f : Func) : Func × Nat :=
  if f.isDeclaration then (f, 0) else rounds passes maxRounds f

/-! ### Functions that need not make sense -/

def round? (passes : Pipeline) (f : Func) : Option (Func × Bool) :=
  passes.foldlM (fun (f, changed) p => do
    let (f, c) ← p.run? f
    return (f, changed || c)) (f, false)

def rounds? (passes : Pipeline) : (n : Nat) → Func → Option (Func × Nat)
  | 0, f => some (f, 0)
  | n + 1, f => do
    match ← round? passes f with
    | (f, false) => return (f, 0)
    | (f, true) =>
      let (f, k) ← rounds? passes n f
      return (f, k + 1)

def run? (passes : Pipeline) (f : Func) : Option (Func × Nat) :=
  if f.isDeclaration then some (f, 0) else rounds? passes maxRounds f

end Pipeline

end ScalarLang.IR
