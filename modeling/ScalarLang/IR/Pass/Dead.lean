import ScalarLang.IR.Flow

/-! Removal of dead code: results that nothing uses, and writes to slots that nothing reads. What a
removed instruction used may be dead in turn, so this is repeated until nothing is left to do. -/

namespace ScalarLang.IR

namespace Func

theorem insts_block_removeInsts (f : Func) (dead : List InstId) (b : BlockId) :
    ((f.removeInsts dead).block b).insts = (f.block b).insts.filter (!dead.contains ·) := by
  by_cases hb : b < f.blocks.size
  · simp [block, removeInsts, Array.getD, hb]
  · simp only [block, removeInsts, Array.getD, Array.size_map, hb, ↓reduceDIte]
    rfl

theorem live_removeInsts (f : Func) (dead : List InstId) :
    (f.removeInsts dead).live = f.live.filter (!dead.contains ·) := by
  simp only [live, List.filter_flatMap, insts_block_removeInsts]
  rfl

end Func

namespace Dead

/-- The placed instructions that have no effect and whose result is not used. -/
def insts (f : Func) : List InstId :=
  let uses := f.useCounts
  let usage := f.slotUsage
  f.live.filter fun i =>
    match f.op i with
    | .store slot _ => (usage.getD slot {}).loads = 0
    | op => op.isPure && uses.getD i 0 = 0

theorem mem_live_of_mem_insts {f : Func} {i : InstId} (h : i ∈ insts f) : i ∈ f.live :=
  (List.mem_filter.1 h).1

def run (f : Func) : Func × Bool :=
  match h : insts f with
  | [] => (f, false)
  | i :: rest =>
    have : i ∈ f.live := mem_live_of_mem_insts (h ▸ List.mem_cons_self)
    ((run (f.removeInsts (i :: rest))).1, true)
termination_by f.live.length
decreasing_by
  rw [Func.live_removeInsts, List.length_filter_lt_length_iff_exists]
  exact ⟨i, this, by simp⟩

end Dead

end ScalarLang.IR
