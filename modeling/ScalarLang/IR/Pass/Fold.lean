import ScalarLang.IR.Flow

/-! Constant folding: instructions whose operands are constants become their value, and phis that
always have the same value become that value. -/

namespace ScalarLang.IR.Fold

/-- The value of instruction `i`, if it is known without running it. A phi may also be fed by
itself. -/
def value? (i : InstId) : Operation → Option Operand
  | .binary op (.const a) (.const b) => some (.const (op.apply a b))
  | .compare test (.const a) (.const b) => some (.bool (test.apply a b))
  | .toDouble (.bool b) => some (.const (boolValue b))
  | .phi incoming =>
    match (incoming.map (·.1)).filter (· ≠ .inst i) with
    | [] => none
    | first :: rest => if rest.all (· = first) then some first else none
  | _ => none

/-- Folds one instruction, after those before it, and lists it if it folds. -/
def inst (f : Func) (dead : List InstId) (i : InstId) : Func × List InstId :=
  match value? i (f.op i) with
  | some v => (f.replaceUses i v, i :: dead)
  | none => (f, dead)

def run (f : Func) : Func × Bool :=
  let (f, dead) := f.live.foldl (fun (f, dead) i => inst f dead i) (f, [])
  (f.removeInsts dead, !dead.isEmpty)

end ScalarLang.IR.Fold
