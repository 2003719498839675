import ScalarLang.IR.Flow

/-! Promotion of slots that are written once. If the entry block writes a slot before it reads it,
and nothing else writes it, every read yields the value that was written. -/

namespace ScalarLang.IR.Promote

/-- The first access to `slot` in a list of instructions, if it is a write. -/
def firstStore (f : Func) (slot : SlotId) : List InstId → Option (InstId × Operand)
  | [] => none
  | i :: rest =>
    match f.op i with
    | .load s => if s = slot then none else firstStore f slot rest
    | .store s value => if s = slot then some (i, value) else firstStore f slot rest
    | _ => firstStore f slot rest

/-- The placed reads of a slot. -/
def loads (f : Func) (slot : SlotId) : List InstId := f.live.filter (f.op · = .load slot)

/-- Replaces the reads of a slot by the value that the entry block writes to it. -/
def slot (f : Func) (entry : BlockId) (s : SlotId) : Option Func :=
  (firstStore f s (f.block entry).insts).map fun (store, value) =>
    let reads := loads f s
    (reads.foldl (fun f i => f.replaceUses i value) f).removeInsts (store :: reads)

/-- The slots that are written once and read. -/
def candidates (f : Func) : List SlotId :=
  let usage := f.slotUsage
  (List.range f.slots.size).filter fun s =>
    let u := usage.getD s {}
    u.stores = 1 ∧ 0 < u.loads

/-- Promotes all slots that can be. -/
def run (f : Func) : Func × Bool :=
  match f.entry? with
  | none => (f, false)
  | some entry =>
    (candidates f).foldl (fun (f, changed) s => match slot f entry s with
      | some f => (f, true)
      | none => (f, changed)) (f, false)

end ScalarLang.IR.Promote
