import ScalarLang.IR.Flow

/-! Simplification of the control flow: branches on constants become jumps, blocks that cannot be
reached are dropped, and a block is merged into its only predecessor. -/

namespace ScalarLang.IR.Simplify

/-! ### Phi sources -/

/-- Drops what a phi receives from `source`. -/
def dropSource (source : BlockId) : Operation → Operation
  | .phi incoming => .phi (incoming.filter (·.2 ≠ source))
  | op => op

/-- What a phi receives from `source` comes from `target` instead. -/
def renameSource (source target : BlockId) : Operation → Operation
  | .phi incoming => .phi (incoming.map fun (v, b) => (v, if b = source then target else b))
  | op => op

/-- Changes the operations of the instructions of a block. -/
def mapBlock (f : Func) (b : BlockId) (g : Operation → Operation) : Func :=
  (f.block b).insts.foldl (fun f i => f.modifyOp i g) f

/-! ### Constant branches -/

/-- The way a branch always goes, and the way it never goes. -/
def decided : Terminator → Option (BlockId × Option BlockId)
  | .condBr cond yes no =>
    if yes = no then some (yes, none)
    else match cond with
      | .bool true => some (yes, some no)
      | .bool false => some (no, some yes)
      | _ => none
  | _ => none

def foldBranch (f : Func) (b : BlockId) : Option Func :=
  ((f.block b).terminator.bind decided).map fun (taken, untaken) =>
    let f := f.modifyBlock b fun block => { block with terminator := some (.br taken) }
    match untaken with
    | some other => mapBlock f other (dropSource b)
    | none => f

def foldBranches (f : Func) : Func × Bool :=
  f.layout.foldl (fun (f, changed) b => match foldBranch f b with
    | some f => (f, true)
    | none => (f, changed)) (f, false)

/-- The ways that constant branches never go exist. -/
def branchesExist (f : Func) : Bool :=
  f.layoutExists && f.layout.all fun b =>
    match (f.block b).terminator.bind decided with
    | some (_, some other) => f.blockExists other
    | _ => true

/-! ### Unreachable blocks -/

/-- The blocks that have not been seen. -/
def unseen (f : Func) (seen : List BlockId) : List BlockId :=
  (List.range f.blocks.size).filter (!seen.contains ·)

theorem unseen_cons (f : Func) (b : BlockId) (seen : List BlockId) :
    unseen f (b :: seen) = (unseen f seen).filter (· ≠ b) := by
  simp [unseen, List.filter_filter]

theorem length_unseen_cons_lt (f : Func) {b : BlockId} {seen : List BlockId}
    (hb : b < f.blocks.size) (hs : b ∉ seen) :
    (unseen f (b :: seen)).length < (unseen f seen).length := by
  rw [unseen_cons, List.length_filter_lt_length_iff_exists]
  exact ⟨b, by simp [unseen, hb, hs], by simp⟩

theorem successors_of_size_le (f : Func) {b : BlockId} (hb : f.blocks.size ≤ b) :
    f.successors b = [] := by
  have : f.block b = default := by simp [Func.block, Array.getD, Nat.not_lt.2 hb]
  rw [Func.successors, this]
  rfl

theorem length_successors_le (f : Func) (b : BlockId) : (f.successors b).length ≤ 2 := by
  unfold Func.successors
  cases (f.block b).terminator with
  | none => simp
  | some t => cases t <;> simp [Terminator.successors]

/-- The blocks that can be reached from those in `work`, besides those `seen` before. -/
def reach (f : Func) (work seen : List BlockId) : List BlockId :=
  match work with
  | [] => seen
  | b :: rest =>
    if b ∈ seen then reach f rest seen
    else reach f (f.successors b ++ rest) (b :: seen)
termination_by 2 * (unseen f seen).length + work.length
decreasing_by
  · exact Nat.lt_succ_self _
  · by_cases hb : b < f.blocks.size
    · have hseen := length_unseen_cons_lt f hb ‹_›
      have hsuccessors := length_successors_le f b
      rw [List.length_append, List.length_cons]
      omega
    · -- a block that does not exist leads nowhere
      have hseen := List.length_filter_le (· ≠ b) (unseen f seen)
      rw [successors_of_size_le f (Nat.not_lt.1 hb), unseen_cons, List.nil_append,
        List.length_cons]
      omega

/-- The blocks that can be reached from the entry block. -/
def reachable (f : Func) : List BlockId := reach f f.entry?.toList []

def dropUnreachable (f : Func) : Func × Bool :=
  let reached := reachable f
  if reached.length = f.layout.length then (f, false)
  else
    let dead := f.layout.filter (!reached.contains ·)
    let f := { f with layout := f.layout.filter reached.contains }
    (f.layout.foldl (fun f b => dead.foldl (fun f d => mapBlock f b (dropSource d)) f) f, true)

/-- The blocks that dropping the others looks at exist. Those that stay are looked at only if some
are dropped. -/
def reachedExist (f : Func) : Bool :=
  let reached := reachable f
  reached.all (· < f.blocks.size) &&
    (reached.length == f.layout.length || f.layout.all reached.contains ||
      (f.layout.filter reached.contains).all f.blockExists)

/-! ### Merging -/

/-- The first block that can be merged into its predecessor, with the predecessor. -/
def candidate (f : Func) : Option (BlockId × BlockId) :=
  let table := f.predTable
  f.layout.findSome? fun b =>
    match table.getD b [] with
    | [p] =>
      if f.entry? ≠ some b ∧ p ≠ b ∧ (f.block p).terminator = some (.br b) then some (p, b)
      else none
    | _ => none

/-- Gives the phis of a list of instructions the first value that they receive, and lists the other
instructions. -/
def resolvePhis (f : Func) : List InstId → Func × List InstId
  | [] => (f, [])
  | i :: rest =>
    match f.op i with
    | .phi [] => resolvePhis f rest
    | .phi ((v, _) :: _) => resolvePhis (f.replaceUses i v) rest
    | _ =>
      let (f, moved) := resolvePhis f rest
      (f, i :: moved)

/-- Moves the code of block `b` to the end of its predecessor `p`. -/
def merge (f : Func) (p b : BlockId) : Func :=
  let insts := (f.block b).insts
  let (f, moved) := resolvePhis f insts
  let terminator := (f.block b).terminator
  let f := f.modifyBlock b fun block => { block with insts := [], terminator := none }
  let targets := (terminator.map Terminator.successors).getD []
  let f := targets.foldl (fun f s => mapBlock f s (renameSource b p)) f
  let f := f.modifyBlock p fun block => { block with insts := block.insts ++ moved, terminator }
  { f with layout := f.layout.filter (· ≠ b) }

theorem candidate_mem {f : Func} {p b : BlockId} (h : candidate f = some (p, b)) :
    b ∈ f.layout := by
  obtain ⟨c, hc, h⟩ := List.exists_of_findSome?_eq_some h
  split at h
  · split at h
    · cases h
      exact hc
    · cases h
  · cases h

theorem layout_mapBlock (f : Func) (b : BlockId) (g : Operation → Operation) :
    (mapBlock f b g).layout = f.layout := by
  unfold mapBlock
  generalize (f.block b).insts = insts
  induction insts generalizing f with
  | nil => rfl
  | cons i rest ih => exact ih _

theorem layout_resolvePhis (f : Func) (insts : List InstId) :
    (resolvePhis f insts).1.layout = f.layout := by
  fun_induction resolvePhis f insts <;> simp_all [Func.replaceUses, Func.mapOperands]

theorem layout_merge (f : Func) (p b : BlockId) :
    (merge f p b).layout = f.layout.filter (· ≠ b) := by
  have targets (g : Func) (targets : List BlockId) :
      (targets.foldl (fun f s => mapBlock f s (renameSource b p)) g).layout = g.layout := by
    induction targets generalizing g with
    | nil => rfl
    | cons s rest ih => rw [List.foldl_cons, ih, layout_mapBlock]
  simp [merge, Func.modifyBlock, targets, layout_resolvePhis]

theorem length_layout_merge_lt {f : Func} {p b : BlockId} (h : candidate f = some (p, b)) :
    (merge f p b).layout.length < f.layout.length := by
  rw [layout_merge, List.length_filter_lt_length_iff_exists]
  exact ⟨b, candidate_mem h, by simp⟩

/-- Merges blocks as long as one can be merged. -/
def mergeAll (f : Func) : Func × Bool :=
  match h : candidate f with
  | none => (f, false)
  | some (p, b) =>
    have : (merge f p b).layout.length < f.layout.length := length_layout_merge_lt h
    ((mergeAll (merge f p b)).1, true)
termination_by f.layout.length

/-- The blocks that merging looks at exist: each that is merged, and those that follow it. -/
def mergedExist (f : Func) : Bool :=
  match h : candidate f with
  | none => true
  | some (p, b) =>
    have : (merge f p b).layout.length < f.layout.length := length_layout_merge_lt h
    f.blockExists b && (f.successors b).all f.blockExists && mergedExist (merge f p b)
termination_by f.layout.length

def run (f : Func) : Func × Bool :=
  let (f, folded) := foldBranches f
  let (f, dropped) := dropUnreachable f
  let (f, merged) := mergeAll f
  (f, folded || dropped || merged)

/-- All that the pass looks at exists. -/
def runs (f : Func) : Bool :=
  branchesExist f && reachedExist (foldBranches f).1 &&
    mergedExist (dropUnreachable (foldBranches f).1).1

end ScalarLang.IR.Simplify
