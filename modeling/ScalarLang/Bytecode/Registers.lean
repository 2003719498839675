import ScalarLang.IR.Flow

/-! Registers for the values of a function: first the arguments, then the slots in use, the
constants, the results, and room for the arguments of calls and for the copies at block ends. -/

namespace ScalarLang.Bytecode

open IR (Func Operand)

/-- The constant that an operand stands for. -/
def constant? : Operand → Option Float
  | .const v => some v
  | .bool b => some (IR.boolValue b)
  | _ => none

/-- The different constants of a list, told apart by their bits, in order. -/
def distinct (values : List Float) : List Float :=
  values.foldl (fun seen v => if seen.any (· = v) then seen else seen ++ [v]) []

/-- The constants that laid out code uses. -/
def constantsOf (f : Func) : List Float := distinct (f.usedOperands.filterMap constant?)

def maxOf (ns : List Nat) : Nat := ns.foldl max 0

/-- The greatest number of arguments of a call. -/
def maxCallArgs (f : Func) : Nat :=
  maxOf (f.live.map fun i => match f.op i with
    | .call _ args => args.length
    | _ => 0)

/-- The greatest number of phis in a block. -/
def maxPhis (f : Func) : Nat :=
  maxOf (f.layout.map fun b => (f.block b).insts.countP fun i => (f.op i).isPhi)

structure Registers where
  slots : Array (Option Nat)
  constants : List Float
  /-- The register of the first constant. -/
  firstConstant : Nat
  results : Array (Option Nat)
  callScratch : Nat
  phiScratch : Nat
  count : Nat

namespace Registers

/-- Gives registers from `next` on to the slots in use. -/
def placeSlots (f : Func) (next : Nat) : Array (Option Nat) × Nat :=
  f.slotUsage.foldl (fun (slots, next) usage =>
    if usage.isUsed then (slots.push (some next), next + 1) else (slots.push none, next))
    (#[], next)

/-- Gives registers from `next` on to the results of placed instructions. -/
def placeResults (f : Func) (next : Nat) : Array (Option Nat) × Nat :=
  f.live.foldl (fun (results, next) i =>
    if (f.op i).type?.isSome then (results.setIfInBounds i (some next), next + 1)
    else (results, next)) (Array.replicate f.insts.size none, next)

def allocate (f : Func) : Registers :=
  let (slots, firstConstant) := placeSlots f f.arity
  let constants := constantsOf f
  let (results, callScratch) := placeResults f (firstConstant + constants.length)
  let phiScratch := callScratch + maxCallArgs f
  { slots, constants, firstConstant, results, callScratch, phiScratch
    count := phiScratch + maxPhis f }

def constant (r : Registers) (v : Float) : Nat :=
  r.firstConstant + r.constants.findIdx (· = v)

/-- The register of a result; one that is not placed shares the first. -/
def result (r : Registers) (i : IR.InstId) : Nat := (r.results.getD i none).getD 0

def slot (r : Registers) (s : IR.SlotId) : Nat := (r.slots.getD s none).getD 0

/-- Registers are named by two bytes. -/
def limit : Nat := Nat.pow 2 16

/-- The register that holds an operand; none if it is a result that does not exist. -/
def operand? (r : Registers) : Operand → Option Nat
  | .inst i => if i < r.results.size then some (r.result i) else none
  | .arg n => some (n % limit)
  | .const v => some (r.constant v)
  | .bool b => some (r.constant (IR.boolValue b))

end Registers

end ScalarLang.Bytecode
