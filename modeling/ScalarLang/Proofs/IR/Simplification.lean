import ScalarLang.Proofs.IR.Folding
import ScalarLang.Proofs.IR.Merging
import ScalarLang.Proofs.IR.Pruning
import ScalarLang.Proofs.IR.Usage

/-! Simplification of the control flow. A block whose only predecessor jumps to it gives up its
phis, which have only one value, and becomes part of the predecessor. -/

namespace ScalarLang.IR

/-! ### Candidates -/

namespace Func

variable {f : Func} {p b : BlockId}

theorem mem_predTable (hb : b < f.blocks.size) {q : BlockId} :
    q ∈ f.predTable.getD b [] ↔ q ∈ f.layout ∧ b ∈ f.successors q := by
  let mark (p : BlockId) (table : Array (List BlockId)) (b : BlockId) : Array (List BlockId) :=
    table.modify b fun ps => if p ∈ ps then ps else ps ++ [p]
  have edges (p : BlockId) (targets : List BlockId) (table : Array (List BlockId))
      (ht : b < table.size) : b < (targets.foldl (mark p) table).size ∧
        (q ∈ (targets.foldl (mark p) table).getD b [] ↔
          q ∈ table.getD b [] ∨ q = p ∧ b ∈ targets) := by
    induction targets generalizing table with
    | nil => simp [ht]
    | cons c targets ih =>
      obtain ⟨hs, hq⟩ := ih (mark p table c) (by simpa [mark] using ht)
      refine ⟨hs, ?_⟩
      rw [List.foldl_cons, hq]
      by_cases hc : c = b <;> simp [mark, Array.getD, ht, Array.getElem_modify, hc] <;> grind
  have blocks (l : List BlockId) (table : Array (List BlockId)) (ht : b < table.size) :
      q ∈ (l.foldl (fun table p => (f.successors p).foldl (mark p) table) table).getD b [] ↔
        q ∈ table.getD b [] ∨ q ∈ l ∧ b ∈ f.successors q := by
    induction l generalizing table with
    | nil => simp
    | cons p l ih =>
      obtain ⟨hs, hq⟩ := edges p (f.successors p) table ht
      rw [List.foldl_cons, ih _ hs, hq]
      grind
  refine (blocks f.layout _ (by simpa using hb)).trans ?_
  simp [Array.getD, hb]

end Func

namespace Simplify

variable {f g : Func} {p b : BlockId}

theorem candidate_solePred (hv : f.Verified) (h : candidate f = some (p, b)) : f.SolePred p b := by
  obtain ⟨c, hc, h⟩ := List.exists_of_findSome?_eq_some h
  split at h
  · next p' ht =>
    split at h
    · next hcond =>
      cases h
      have hmem {q : BlockId} := Func.mem_predTable (f := f) (q := q) (hv.block_lt hc)
      rw [ht] at hmem
      exact {
        ne := hcond.2.1
        block_mem := hc
        pred_mem := (hmem.1 (List.mem_singleton_self p)).1
        not_entry := hcond.1
        jump := hcond.2.2
        only := fun hq hs => List.mem_singleton.1 (hmem.2 ⟨hq, hs⟩) }
    · cases h
  · cases h

/-! ### Phis with one value -/

/-- Function `g` is `f` after the listed phis of `b` have been replaced. -/
structure Resolved (f g : Func) (p b : BlockId) (phis : List InstId) : Prop where
  refines : f.Refines g
  flow : Func.SameFlow f g
  sole : g.SolePred p b
  reached : AllReached g
  isPhi (i : InstId) : (g.op i).isPhi = (f.op i).isPhi
  unused {i : InstId} : i ∈ phis → .inst i ∉ g.usedOperands

/-- A phi of `b` receives one value, from `p`. -/
theorem incoming_eq (hv : f.Verified) (h : f.SolePred p b) {i : InstId}
    (hi : i ∈ (f.block b).insts) {incoming : List (Operand × BlockId)}
    (ho : f.op i = .phi incoming) : ∃ v, incoming = [(v, p)] := by
  have hp {q : BlockId} : q ∈ incoming.map (·.2) ↔ q = p := by
    rw [hv.mem_sources h.block_mem hi ho]
    refine ⟨fun hq => h.only hq.1 hq.2, ?_⟩
    rintro rfl
    exact ⟨h.pred_mem, by simp [h.successors_pred]⟩
  have hn : (incoming.map (·.2)).Nodup :=
    (hv.phi_sources h.block_mem hi ho).nodup_iff.2 (f.preds_nodup b)
  rcases incoming with - | ⟨⟨v, q⟩, - | ⟨⟨v', q'⟩, rest⟩⟩
  · exact absurd (hp.2 rfl) List.not_mem_nil
  · obtain rfl : q = p := hp.1 (List.mem_singleton_self q)
    exact ⟨v, rfl⟩
  · have hq : q = p := hp.1 (by simp)
    have hq' : q' = p := hp.1 (by simp)
    simp [hq, hq'] at hn

/-- That value is not the phi itself, which is not there when `b` is reached first. -/
theorem incoming_ne (hf : f.WellFormed) (h : f.SolePred p b) (hr : AllReached f) {i : InstId}
    (hi : i ∈ (f.block b).insts) {v : Operand} (ho : f.op i = .phi [(v, p)]) : v ≠ .inst i := by
  rintro rfl
  obtain ⟨π, hπ⟩ := hr b h.block_mem
  obtain ⟨π', hπ', hb, -⟩ := hπ.exists_first
  have hl := (hπ'.mem_layout hf.toVerified).2
  cases hπ' with
  | entry he => exact h.not_entry he
  | @step π' q _ hq hs =>
    rw [List.forall_mem_cons] at hl
    obtain rfl := h.only hl.1 hs
    simp only [List.mem_cons, not_or] at hb
    rcases hf.dominated_phi h.block_mem hi ho (List.mem_singleton_self _) i rfl π' hq with
      hm | ⟨c, hc, hm⟩
    · exact hb.1 (Func.block_unique hf.live_nodup h.block_mem hl.1 hi hm)
    · rw [Func.block_unique hf.live_nodup h.block_mem (hl.2 c hc) hi hm] at hb
      exact hb.2 hc

theorem Resolved.step {phis : List InstId} (h : Resolved f g p b phis) {i : InstId}
    (hi : i ∈ (g.block b).insts) {v : Operand} (ho : g.op i = .phi [(v, p)]) :
    Resolved f (g.replaceUses i v) p b (i :: phis) := by
  have hg := h.refines.wellFormed
  have hne := incoming_ne hg h.sole h.reached hi ho
  have hr : g.Replaceable i v :=
    .of_phi hg h.sole.block_mem hi ho (by simp) hne fun x hx => .inr (by simpa using hx)
  have hflow := Func.sameFlow_mapOperands g fun x => if x = .inst i then v else x
  have hjump : ((g.replaceUses i v).block p).terminator = some (.br b) := by
    simp only [Func.replaceUses, Func.block_mapOperands, h.sole.jump, Option.map_some,
      Terminator.mapOperands]
  have hused : v ∈ g.usedOperands := by
    refine Func.mem_usedOperands.2 (.inl ⟨b, h.sole.block_mem, i, hi, ?_⟩)
    simp [ho, Operation.operands]
  exact {
    refines := h.refines.trans (hr.refines hg)
    flow := h.flow.trans hflow
    sole := h.sole.of_sameFlow hflow hjump
    reached := fun c hc => (h.reached c hc).imp fun _ => hflow.path
    isPhi := fun j => by
      rw [Func.replaceUses, Func.op_mapOperands, Operation.isPhi_mapOperands, h.isPhi]
    unused := fun hj => by
      rcases List.mem_cons.1 hj with rfl | hj
      · exact Func.not_used_replaceUses_self hne
      · refine Func.not_used_replaceUses (fun hv => ?_) (h.unused hj)
        exact h.unused hj (hv ▸ hused) }

theorem Resolved.resolvePhis {phis insts : List InstId} (h : Resolved f g p b phis)
    (hs : ∀ i ∈ insts, i ∈ (f.block b).insts) :
    Resolved f (resolvePhis g insts).1 p b (insts.filter f.isPhiInst ++ phis) ∧
      (Simplify.resolvePhis g insts).2 = insts.filter (!f.isPhiInst ·) := by
  fun_induction Simplify.resolvePhis g insts generalizing phis with
  | case1 g => exact ⟨h, rfl⟩
  | case2 g i rest ho ih =>
    rw [List.forall_mem_cons, ← h.flow.insts] at hs
    obtain ⟨v, hv⟩ := incoming_eq h.refines.wellFormed.toVerified h.sole hs.1 ho
    cases hv
  | case3 g i rest v source tail ho ih =>
    rw [List.forall_mem_cons] at hs
    have hi : i ∈ (g.block b).insts := h.flow.insts b ▸ hs.1
    obtain ⟨v', hv⟩ := incoming_eq h.refines.wellFormed.toVerified h.sole hi ho
    cases hv
    have hphi : f.isPhiInst i := by
      rw [Func.isPhiInst, ← h.isPhi, ho]
      rfl
    obtain ⟨hr, hm⟩ := ih (h.step hi ho) hs.2
    refine ⟨{ hr with unused := fun hj => hr.unused ?_ }, by simp [hphi, hm]⟩
    simp [hphi] at hj ⊢
    tauto
  | case4 g i rest g' moved hrest hnil hcons ih =>
    rw [List.forall_mem_cons] at hs
    have hphi : ¬f.isPhiInst i := by
      rw [Func.isPhiInst, ← h.isPhi]
      rcases ho : g.op i with - | - | - | - | - | - | (- | ⟨⟨v, source⟩, tail⟩) <;>
        simp_all [Operation.isPhi]
    obtain ⟨hr, hm⟩ := ih h hs.2
    rw [hrest] at hr hm
    exact ⟨by simpa [hphi] using hr, by simp [hphi, ← hm]⟩

/-! ### Merging -/

theorem renameSource_idem (hne : p ≠ b) (op : Operation) :
    renameSource b p (renameSource b p op) = renameSource b p op := by
  cases op with
  | phi incoming =>
    simp only [renameSource, List.map_map, Operation.phi.injEq]
    refine List.map_congr_left fun x _ => ?_
    by_cases hx : x.2 = b <;> simp [hx, hne]
  | _ => rfl

theorem sameBlocks_renameAll (f : Func) (p b : BlockId) (targets : List BlockId) :
    Func.SameBlocks f (targets.foldl (fun f s => mapBlock f s (renameSource b p)) f) := by
  induction targets generalizing f with
  | nil => exact .refl f
  | cons s targets ih => exact (sameBlocks_mapBlock f s _).trans (ih _)

theorem op_renameAll (f : Func) (hne : p ≠ b) (targets : List BlockId) (i : InstId) :
    (targets.foldl (fun f s => mapBlock f s (renameSource b p)) f).op i =
      if ∃ s ∈ targets, i ∈ (f.block s).insts then renameSource b p (f.op i) else f.op i := by
  induction targets generalizing f with
  | nil => simp
  | cons s targets ih =>
    rw [List.foldl_cons, ih, op_mapBlock f s _ (renameSource_idem hne) rfl]
    simp only [(sameBlocks_mapBlock f s _).block, List.exists_mem_cons_iff]
    by_cases hs : i ∈ (f.block s).insts <;> simp [hs, renameSource_idem hne]

/-- Renaming `b` changes nothing in a block to which `b` does not lead. -/
theorem renameSource_of_not_successor (hv : f.Verified) {c : BlockId} (hc : c ∈ f.layout)
    (hs : c ∉ f.successors b) {i : InstId} (hi : i ∈ (f.block c).insts) :
    renameSource b p (f.op i) = f.op i := by
  cases ho : f.op i with
  | phi incoming =>
    simp only [renameSource, Operation.phi.injEq]
    conv_rhs => rw [← List.map_id incoming]
    refine List.map_congr_left fun x hx => ?_
    have hx := (hv.mem_sources hc hi ho).1 (List.mem_map_of_mem (f := (·.2)) hx)
    have hxb : x.2 ≠ b := fun he => hs (he ▸ hx.2)
    simp [hxb]
  | _ => rfl

/-- Empties block `b` and renames it in the phis of the blocks to which it leads. -/
def emptied (f : Func) (p b : BlockId) : Func :=
  (f.successors b).foldl (fun f s => mapBlock f s (renameSource b p))
    (f.modifyBlock b fun block => { block with insts := [], terminator := none })

/-- The last part of a merge, where `moved` is the code of `b` without its phis. -/
def splice (f : Func) (moved : List InstId) (p b : BlockId) : Func :=
  { (emptied f p b).modifyBlock p fun block =>
      { block with insts := block.insts ++ moved, terminator := (f.block b).terminator } with
    layout := (emptied f p b).layout.filter (· ≠ b) }

theorem merge_eq_splice (f : Func) (p b : BlockId) : merge f p b =
    splice (resolvePhis f (f.block b).insts).1 (resolvePhis f (f.block b).insts).2 p b := rfl

theorem sameSizes_emptied (f : Func) (p b : BlockId) : Func.SameSizes f (emptied f p b) :=
  (Func.sameSizes_modifyBlock f b _).trans (sameBlocks_renameAll ..).sizes

theorem block_emptied (f : Func) (p : BlockId) {c : BlockId} (hc : c ≠ b) :
    (emptied f p b).block c = f.block c := by
  rw [emptied, (sameBlocks_renameAll ..).block, Func.block_modifyBlock, if_neg fun he => hc he.1]

theorem op_emptied (h : f.SolePred p b) (i : InstId) : (emptied f p b).op i =
    if ∃ s ∈ f.successors b, i ∈ (f.block s).insts then renameSource b p (f.op i)
    else f.op i := by
  -- the block does not lead to itself
  have hblock {s : BlockId} (hs : s ∈ f.successors b) : (f.modifyBlock b fun block =>
      { block with insts := [], terminator := none }).block s = f.block s := by
    have hsb : s ≠ b := fun he => h.not_successor_self (he ▸ hs)
    rw [Func.block_modifyBlock, if_neg fun he => hsb he.1]
  rw [emptied, op_renameAll _ h.ne]
  refine if_congr (exists_congr fun s => and_congr_right fun hs => ?_) rfl rfl
  rw [hblock hs]

/-- The phis of a block are in no other one. -/
theorem insts_removePhis (hf : f.WellFormed) (hb : b ∈ f.layout) {c : BlockId} (hc : c ∈ f.layout)
    (hcb : c ≠ b) : ((f.removeInsts (f.phis b)).block c).insts = (f.block c).insts := by
  rw [Func.insts_block_removeInsts, List.filter_eq_self]
  intro i hi
  simp only [List.contains_eq_mem, Bool.not_eq_true', decide_eq_false_iff_not]
  exact fun hp => hcb (Func.block_unique hf.live_nodup hc hb hi (Func.mem_phis.1 hp).1)

theorem insts_removePhis_self (f : Func) (b : BlockId) :
    ((f.removeInsts (f.phis b)).block b).insts = f.body b := by
  rw [Func.insts_block_removeInsts, Func.body]
  refine List.filter_congr fun i hi => ?_
  by_cases hp : (f.op i).isPhi <;> simp [Func.mem_phis, Func.isPhiInst, hi, hp]

theorem merged_splice (h : f.SolePred p b) (hf : f.WellFormed) :
    (f.removeInsts (f.phis b)).Merged (splice f (f.body b) p b) p b := by
  have hv := hf.toVerified
  have hsizes := sameSizes_emptied f p b
  have hblock (c : BlockId) : (splice f (f.body b) p b).block c = if c = p then
      { (emptied f p b).block p with insts := ((emptied f p b).block p).insts ++ f.body b,
                                     terminator := (f.block b).terminator }
      else (emptied f p b).block c := by
    refine (Func.block_modifyBlock _ p c _).trans ?_
    simp [hsizes.blocks, hv.block_lt h.pred_mem]
  have hlayout : (splice f (f.body b) p b).layout = f.layout.filter (· ≠ b) :=
    congrArg (List.filter (· ≠ b)) (sameBlocks_renameAll _ p b _).layout
  have hmem {c : BlockId} (hc : c ∈ (splice f (f.body b) p b).layout) : c ∈ f.layout ∧ c ≠ b := by
    rw [hlayout] at hc
    simpa using hc
  exact {
    ne := h.ne
    block_mem := h.block_mem
    pred_mem := h.pred_mem
    not_entry := h.not_entry
    jump := (Func.terminator_removeInsts ..).trans h.jump
    only := fun hc hs => h.only hc (Func.successors_removeInsts f _ _ ▸ hs)
    no_phi := fun hi => by
      rw [insts_removePhis_self] at hi
      exact (Func.mem_body.1 hi).2
    sizes := ⟨hsizes.params, hsizes.slots, hsizes.insts, by
      rw [show (splice f (f.body b) p b).blocks.size = _ from
        (Func.sameSizes_modifyBlock _ p _).blocks, hsizes.blocks]
      simp [Func.removeInsts]⟩
    layout := hlayout
    insts_pred := by
      rw [hblock, if_pos rfl, block_emptied f p h.ne, insts_removePhis_self,
        insts_removePhis hf h.block_mem h.pred_mem h.ne]
    terminator_pred := by rw [hblock, if_pos rfl, Func.terminator_removeInsts]
    insts := fun hc hcp => by
      rw [hblock, if_neg hcp, block_emptied f p (hmem hc).2,
        insts_removePhis hf h.block_mem (hmem hc).1 (hmem hc).2]
    terminator := fun hc hcp => by
      rw [hblock, if_neg hcp, block_emptied f p (hmem hc).2, Func.terminator_removeInsts]
    op := fun {i} hi => by
      refine (op_emptied h i).trans ?_
      rw [Func.op_removeInsts]
      split
      · rfl
      · next hs =>
        obtain ⟨c, hc, hi⟩ := Func.mem_live.1 ((Func.mem_live_removeInsts ..).1 hi).1
        exact (renameSource_of_not_successor hv hc (fun hcs => hs ⟨c, hcs, hi⟩) hi).symm }

/-! ### The pass -/

/-- A merge first takes the phis out of the block, and then moves what is left of it. -/
theorem merge_splits (hf : f.WellFormed) (hr : AllReached f) (h : f.SolePred p b)
    (hg : (resolvePhis f (f.block b).insts).1 = g) :
    g.phis b = (f.block b).insts.filter f.isPhiInst ∧ f.Refines (g.removeInsts (g.phis b)) ∧
      AllReached (g.removeInsts (g.phis b)) ∧
      (g.removeInsts (g.phis b)).Merged (merge f p b) p b := by
  have h₀ : Resolved f f p b [] :=
    ⟨.refl hf, ⟨rfl, fun _ => rfl, fun _ => rfl⟩, h, hr, fun _ => rfl, nofun⟩
  obtain ⟨hres, hmoved⟩ := h₀.resolvePhis fun i (hi : i ∈ (f.block b).insts) => hi
  rw [merge_eq_splice, hmoved]
  rw [hg] at hres ⊢
  have hphis : g.phis b = (f.block b).insts.filter f.isPhiInst := by
    rw [Func.phis, hres.flow.insts]
    exact List.filter_congr fun i _ => hres.isPhi i
  have hbody : g.body b = (f.block b).insts.filter (!f.isPhiInst ·) := by
    rw [Func.body, hres.flow.insts]
    exact List.filter_congr fun i _ => congrArg _ (hres.isPhi i)
  have hrem : g.Removable (g.phis b) := {
    unused := fun hi => hres.unused (by rwa [List.append_nil, ← hphis])
    kind := fun {i} hi _ => .inl (by
      have := (Func.mem_phis.1 hi).2
      cases ho : g.op i <;> simp_all [Operation.isPhi, Operation.isPure]) }
  have hmerged := merged_splice hres.sole hres.refines.wellFormed
  rw [hbody] at hmerged
  exact ⟨hphis, hres.refines.trans (hrem.refines hres.refines.wellFormed), fun c hc =>
    (hres.reached c hc).imp fun _ => (Func.path_removeInsts g (g.phis b)).2, hmerged⟩

theorem merge_refines (hf : f.WellFormed) (hr : AllReached f) (h : f.SolePred p b) :
    f.Refines (merge f p b) ∧ AllReached (merge f p b) := by
  obtain ⟨-, hrefines, hreached, hmerged⟩ := merge_splits hf hr h rfl
  refine ⟨hrefines.trans (hmerged.refines hrefines.wellFormed), fun c hc => ?_⟩
  have hc := hmerged.mem_layout.1 hc
  obtain ⟨π, hπ⟩ := hreached c hc.1
  have := hmerged.exists_path hrefines.wellFormed.toVerified hπ
  rwa [Func.mergedInto_of_ne hc.2] at this

theorem mergeAll_refines (hf : f.WellFormed) (hr : AllReached f) : f.Refines (mergeAll f).1 := by
  fun_induction mergeAll f with
  | case1 f _ => exact .refl hf
  | case2 f p b hc _ ih =>
    obtain ⟨hm, hr⟩ := merge_refines hf hr (candidate_solePred hf.toVerified hc)
    exact hm.trans (ih hm.wellFormed hr)

theorem run_refines (hf : f.WellFormed) : f.Refines (run f).1 := by
  have hfold := foldBranches_refines hf
  obtain ⟨hdrop, hr⟩ := dropUnreachable_refines hfold.wellFormed
  exact (hfold.trans hdrop).trans (mergeAll_refines hdrop.wellFormed hr)

/-! ### Everything that the pass looks at exists -/

theorem branchesExist_of_verified (hv : f.Verified) : branchesExist f := by
  simp only [branchesExist, Func.layoutExists, Bool.and_eq_true, List.all_eq_true,
    decide_eq_true_eq]
  refine ⟨fun b hb => hv.block_lt hb, fun b hb => ?_⟩
  split
  · next taken other hd =>
    obtain ⟨t, ht, hd⟩ := Option.bind_eq_some_iff.1 hd
    have hs : other ∈ f.successors b := by
      simpa [Func.successors, ht] using ((decided_eq_some hd).1 other).2 (.inr rfl)
    exact hv.blockExists (hv.successor_mem hb hs)
  · rfl

theorem reachedExist_of_verified (hv : f.Verified) : reachedExist f := by
  have hmem {b : BlockId} (hb : b ∈ reachable f) : b ∈ f.layout := by
    obtain ⟨π, hπ⟩ := mem_reachable.1 hb
    exact (hπ.mem_layout hv).1
  simp only [reachedExist, Bool.and_eq_true, Bool.or_eq_true, List.all_eq_true,
    decide_eq_true_eq]
  exact ⟨fun b hb => hv.block_lt (hmem hb), .inr fun b hb =>
    hv.blockExists (List.mem_filter.1 hb).1⟩

theorem mergedExist_of_wellFormed (hf : f.WellFormed) (hr : AllReached f) : mergedExist f := by
  fun_induction mergedExist f with
  | case1 f _ => rfl
  | case2 f p b hc _ ih =>
    have hv := hf.toVerified
    have hs := candidate_solePred hv hc
    obtain ⟨hm, hr⟩ := merge_refines hf hr hs
    simp only [Bool.and_eq_true, List.all_eq_true]
    exact ⟨⟨hv.blockExists hs.block_mem, fun c hc =>
      hv.blockExists (hv.successor_mem hs.block_mem hc)⟩, ih hm.wellFormed hr⟩

theorem runs_of_wellFormed (hf : f.WellFormed) : runs f := by
  have hfold := (foldBranches_refines hf).wellFormed
  obtain ⟨hdrop, hr⟩ := dropUnreachable_refines hfold
  simp only [runs, Bool.and_eq_true]
  exact ⟨⟨branchesExist_of_verified hf.toVerified, reachedExist_of_verified hfold.toVerified⟩,
    mergedExist_of_wellFormed hdrop.wellFormed hr⟩

end Simplify

end ScalarLang.IR
