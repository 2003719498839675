import ScalarLang.Proofs.IR.Restriction

/-! Branches that always go the same way become jumps, and blocks that cannot be reached are
dropped. -/

namespace ScalarLang.IR

namespace Simplify

variable {f g : Func}

theorem dropSource_idem (d : BlockId) (op : Operation) :
    dropSource d (dropSource d op) = dropSource d op := by
  cases op <;> simp [dropSource, List.filter_filter]

/-! ### Constant branches -/

/-- A decided branch leads to the block it takes and to the one it does not take, if there is
one. -/
theorem decided_eq_some {t : Terminator} {taken : BlockId} {untaken : Option BlockId}
    (h : decided t = some (taken, untaken)) :
    (∀ c, c ∈ t.successors ↔ c = taken ∨ untaken = some c) ∧ untaken ≠ some taken := by
  cases t with
  | condBr cond yes no =>
    simp only [decided] at h
    split at h
    · next hyn =>
      cases h
      simp [Terminator.successors, hyn]
    · next hyn =>
      split at h <;> cases h <;> grind [Terminator.successors]
  | _ => cases h

/-- What becomes of the blocks and operations when the branch of a block is decided. -/
theorem foldBranch_eq_some {b : BlockId} (hb : b < f.blocks.size) (h : foldBranch f b = some g) :
    ∃ taken untaken, (f.block b).terminator.bind decided = some (taken, untaken) ∧
      Func.SameSizes f g ∧ g.layout = f.layout ∧
      (∀ c, g.block c = if c = b then { f.block b with terminator := some (.br taken) }
        else f.block c) ∧
      ∀ i, g.op i = if ∃ c, untaken = some c ∧ i ∈ (f.block c).insts then dropSource b (f.op i)
        else f.op i := by
  obtain ⟨⟨taken, untaken⟩, hd, rfl⟩ := Option.map_eq_some_iff.1 h
  refine ⟨taken, untaken, hd, ?_⟩
  let f' := f.modifyBlock b fun block => { block with terminator := some (.br taken) }
  have hblock (c : BlockId) : f'.block c =
      if c = b then { f.block b with terminator := some (.br taken) } else f.block c := by
    simp only [f', Func.block_modifyBlock, hb, and_true]
  have hinsts (c : BlockId) : (f'.block c).insts = (f.block c).insts := by
    rw [hblock]
    split <;> simp_all
  have hsizes : Func.SameSizes f f' := Func.sameSizes_modifyBlock ..
  cases untaken with
  | none => exact ⟨hsizes, rfl, hblock, by simp⟩
  | some other =>
    have hs := sameBlocks_mapBlock f' other (dropSource b)
    refine ⟨hsizes.trans hs.sizes, hs.layout, fun c => (hs.block c).trans (hblock c), fun i => ?_⟩
    · simp only [Option.some.injEq, exists_eq_left', ← hinsts]
      exact op_mapBlock f' other _ (dropSource_idem b) rfl i

theorem foldBranch_restricts (hf : f.WellFormed) {b : BlockId} (hb : b ∈ f.layout)
    (h : foldBranch f b = some g) : f.Restricts g := by
  obtain ⟨taken, untaken, hd, hsizes, hlayout, hblock, hop⟩ :=
    foldBranch_eq_some (hf.toVerified.block_lt hb) h
  obtain ⟨t, ht, hdt⟩ := Option.bind_eq_some_iff.1 hd
  obtain ⟨hsucc, hne⟩ := decided_eq_some hdt
  have hinsts (c : BlockId) : (g.block c).insts = (f.block c).insts := by
    rw [hblock]
    split <;> simp_all
  have hsuccb (c : BlockId) : c ∈ f.successors b ↔ c = taken ∨ untaken = some c := by
    rw [← hsucc, Func.successors, ht]
    rfl
  have hgsuccb : g.successors b = [taken] := by
    simp [Func.successors, hblock, Terminator.successors]
  have hgsucc {c : BlockId} (hc : c ≠ b) : g.successors c = f.successors c := by
    simp [Func.successors, hblock, hc]
  have hentry : g.entry? = f.entry? := by rw [Func.entry?, hlayout, Func.entry?]
  exact {
    sizes := hsizes
    layout := hlayout ▸ .refl _
    entry? := hentry
    insts := fun _ => hinsts _
    terminator := fun {c} _ => by
      by_cases hc : c = b
      · subst hc
        exact .inr ⟨taken, untaken, hd, by simp [hblock]⟩
      · exact .inl (by simp [hblock, hc])
    successor_mem := fun {c d} hc hs => by
      rw [hlayout] at hc ⊢
      refine hf.toVerified.successor_mem hc ?_
      by_cases hcb : c = b
      · subst hcb
        rw [hgsuccb, List.mem_singleton] at hs
        exact (hsuccb d).2 (.inl hs)
      · rwa [hgsucc hcb] at hs
    op := fun {c i} hc hi => by
      rw [hlayout] at hc
      rw [hop]
      cases ho : f.op i with
      | phi incoming =>
        -- only what came over the edge that is gone is dropped
        have hs {p : Operand × BlockId} (hp : p ∈ incoming) :=
          (hf.toVerified.mem_sources hc hi ho).1 (List.mem_map_of_mem (f := (·.2)) hp)
        have hkept : ∀ p ∈ incoming, decide (p.2 ∈ g.layout ∧ c ∈ g.successors p.2) =
            decide (p.2 = b → c = taken) := by
          intro p hp
          by_cases hpb : p.2 = b
          · simp [hpb, hlayout, hb, hgsuccb]
          · simp [hpb, hlayout, hgsucc, hs hp]
        simp only [Func.keepSources, List.filter_congr hkept]
        split
        · next hu =>
          obtain ⟨c', hu, hi'⟩ := hu
          have hc' := hf.toVerified.successor_mem hb ((hsuccb c').2 (.inr hu))
          obtain rfl := Func.block_unique hf.live_nodup hc hc' hi hi'
          have hct : c ≠ taken := fun he => hne (he ▸ hu)
          simp [dropSource, hct]
        · next hu =>
          rw [List.filter_eq_self.2]
          intro p hp
          simp only [decide_eq_true_eq]
          rintro rfl
          exact ((hsuccb c).1 (hs hp).2).resolve_right fun he => hu ⟨c, he, hi⟩
      | _ => simp [Func.keepSources, dropSource]
    reached := fun hπ => hlayout ▸ (hπ.mem_layout hf.toVerified).1
    layout_or := .inl hlayout }

theorem foldBranches_refines (hf : f.WellFormed) : f.Refines (foldBranches f).1 := by
  refine (List.foldlRecOn (motive := fun x : Func × Bool => f.Refines x.1 ∧ x.1.layout = f.layout)
    f.layout _ ⟨.refl hf, rfl⟩ ?_).1
  rintro ⟨g, changed⟩ ⟨h, hl⟩ b hb
  dsimp only
  split
  · next g' hg =>
    have hr := foldBranch_restricts h.wellFormed (hl ▸ hb) hg
    obtain ⟨-, -, -, -, hl', -⟩ :=
      foldBranch_eq_some (h.wellFormed.toVerified.block_lt (hl ▸ hb)) hg
    exact ⟨h.trans (hr.refines h.wellFormed), hl'.trans hl⟩
  · exact ⟨h, hl⟩

/-! ### Unreachable blocks -/

/-- The search finds no more than a set that it cannot leave. -/
theorem reach_subset {P : BlockId → Prop} {work seen : List BlockId}
    (hc : ∀ b, P b → ∀ c ∈ f.successors b, P c) (hw : ∀ b ∈ work, P b) (hs : ∀ b ∈ seen, P b) :
    ∀ b ∈ reach f work seen, P b := by
  fun_induction reach f work seen with
  | case1 seen => exact hs
  | case2 seen b rest hb ih => exact ih (List.forall_mem_cons.1 hw).2 hs
  | case3 seen b rest hb ih =>
    rw [List.forall_mem_cons] at hw
    refine ih (fun c hm => ?_) (List.forall_mem_cons.2 ⟨hw.1, hs⟩)
    rcases List.mem_append.1 hm with hm | hm
    · exact hc b hw.1 c hm
    · exact hw.2 c hm

/-- It finds where it starts and does not stop before all that follows is found. -/
theorem reach_closed {work seen : List BlockId}
    (hc : ∀ b ∈ seen, ∀ c ∈ f.successors b, c ∈ work ∨ c ∈ seen) :
    (∀ b, b ∈ work ∨ b ∈ seen → b ∈ reach f work seen) ∧
      ∀ b ∈ reach f work seen, ∀ c ∈ f.successors b, c ∈ reach f work seen := by
  fun_induction reach f work seen with
  | case1 seen => simpa using hc
  | case2 seen b rest hb ih => grind
  | case3 seen b rest hb ih => grind

theorem reach_nodup {work seen : List BlockId} (hs : seen.Nodup) : (reach f work seen).Nodup := by
  fun_induction reach f work seen with
  | case1 seen => exact hs
  | case2 seen b rest hb ih => exact ih hs
  | case3 seen b rest hb ih => exact ih (List.nodup_cons.2 ⟨hb, hs⟩)

theorem mem_reachable {b : BlockId} : b ∈ reachable f ↔ ∃ π, f.Path π b := by
  constructor
  · refine reach_subset (P := fun b => ∃ π, f.Path π b) (fun b ⟨π, hπ⟩ c hc => ⟨b :: π, hπ.step hc⟩)
      (fun b hb => ⟨[], .entry (by simpa using hb)⟩) (by simp) b
  · rintro ⟨π, hπ⟩
    obtain ⟨hw, hc⟩ : (∀ b, b ∈ f.entry?.toList ∨ b ∈ [] → b ∈ reachable f) ∧
        ∀ b ∈ reachable f, ∀ c ∈ f.successors b, c ∈ reachable f := reach_closed (by simp)
    induction hπ with
    | entry he => exact hw _ (.inl (by simp [he]))
    | step _ hs ih => exact hc _ ih _ hs

/-- Drops what a phi receives from any of these blocks. -/
def dropSources (sources : List BlockId) : Operation → Operation
  | .phi incoming => .phi (incoming.filter (·.2 ∉ sources))
  | op => op

theorem dropSources_idem (sources : List BlockId) (op : Operation) :
    dropSources sources (dropSources sources op) = dropSources sources op := by
  cases op <;> simp [dropSources, List.filter_filter]

theorem dropSources_nil (op : Operation) : dropSources [] op = op := by
  cases op <;> simp [dropSources]

theorem dropSources_cons (d : BlockId) (sources : List BlockId) (op : Operation) :
    dropSources (d :: sources) op = dropSources sources (dropSource d op) := by
  cases op with
  | phi incoming =>
    simp only [dropSource, dropSources, List.filter_filter]
    congr 2
    funext p
    simp [Bool.and_comm]
  | _ => rfl

theorem sameBlocks_dropDead (f : Func) (b : BlockId) (dead : List BlockId) :
    Func.SameBlocks f (dead.foldl (fun f d => mapBlock f b (dropSource d)) f) := by
  induction dead generalizing f with
  | nil => exact .refl f
  | cons d dead ih => exact (sameBlocks_mapBlock f b _).trans (ih _)

theorem op_dropDead (f : Func) (b : BlockId) (dead : List BlockId) (i : InstId) :
    (dead.foldl (fun f d => mapBlock f b (dropSource d)) f).op i =
      if i ∈ (f.block b).insts then dropSources dead (f.op i) else f.op i := by
  induction dead generalizing f with
  | nil => simp [dropSources_nil]
  | cons d dead ih =>
    rw [List.foldl_cons, ih, (sameBlocks_mapBlock f b _).block,
      op_mapBlock f b _ (dropSource_idem d) rfl]
    split
    · rw [dropSources_cons]
    · rfl

theorem sameBlocks_dropAll (f : Func) (dead blocks : List BlockId) : Func.SameBlocks f
    (blocks.foldl (fun f b => dead.foldl (fun f d => mapBlock f b (dropSource d)) f) f) := by
  induction blocks generalizing f with
  | nil => exact .refl f
  | cons b blocks ih => exact (sameBlocks_dropDead f b dead).trans (ih _)

theorem op_dropAll (f : Func) (dead blocks : List BlockId) (i : InstId) :
    (blocks.foldl (fun f b => dead.foldl (fun f d => mapBlock f b (dropSource d)) f) f).op i =
      if ∃ b ∈ blocks, i ∈ (f.block b).insts then dropSources dead (f.op i) else f.op i := by
  induction blocks generalizing f with
  | nil => simp
  | cons b blocks ih =>
    rw [List.foldl_cons, ih, op_dropDead]
    simp only [(sameBlocks_dropDead f b dead).block, List.exists_mem_cons_iff]
    by_cases hb : i ∈ (f.block b).insts <;> simp [hb, dropSources_idem]

/-- All laid out blocks can be reached. -/
def AllReached (f : Func) : Prop := ∀ b ∈ f.layout, ∃ π, f.Path π b

theorem dropUnreachable_restricts (hf : f.WellFormed)
    (hr : (reachable f).length ≠ f.layout.length) :
    f.Restricts (dropUnreachable f).1 ∧ AllReached (dropUnreachable f).1 := by
  let f' : Func := { f with layout := f.layout.filter (reachable f).contains }
  let dead := f.layout.filter (!(reachable f).contains ·)
  have hs := sameBlocks_dropAll f' dead f'.layout
  have hop := op_dropAll f' dead f'.layout
  have hg : (dropUnreachable f).1 = f'.layout.foldl
      (fun f b => dead.foldl (fun f d => mapBlock f b (dropSource d)) f) f' := by
    rw [dropUnreachable, if_neg hr]
  rw [hg]
  generalize List.foldl _ _ _ = g at hs hop
  have hlayout : g.layout = f.layout.filter (reachable f).contains := hs.layout
  have hmem {b : BlockId} : b ∈ g.layout ↔ b ∈ f.layout ∧ b ∈ reachable f := by
    simp [hlayout]
  have hpath {b : BlockId} : b ∈ g.layout ↔ ∃ π, f.Path π b := by
    rw [hmem, mem_reachable, and_iff_right_iff_imp]
    exact fun ⟨π, hπ⟩ => (hπ.mem_layout hf.toVerified).1
  have hblock (b : BlockId) : g.block b = f.block b := hs.block b
  have hsucc (b : BlockId) : g.successors b = f.successors b := by
    rw [Func.successors, hblock, Func.successors]
  have hentry : g.entry? = f.entry? := by
    rw [Func.entry?, hlayout, Func.entry?]
    cases hl : f.layout with
    | nil => rfl
    | cons e rest =>
      have he : f.entry? = some e := by rw [Func.entry?, hl, List.head?_cons]
      rw [List.filter_cons_of_pos (by simpa using mem_reachable.2 ⟨[], .entry he⟩)]
      rfl
  have hpath' {π : List BlockId} {b : BlockId} (hπ : f.Path π b) : g.Path π b := by
    induction hπ with
    | entry he => exact .entry (hentry.trans he)
    | step _ hc ih => exact ih.step (by rwa [hsucc])
  refine ⟨?_, fun b hb => (hpath.1 hb).imp fun _ => hpath'⟩
  exact {
    sizes := ⟨hs.sizes.params, hs.sizes.slots, hs.sizes.insts, hs.sizes.blocks⟩
    layout := hlayout ▸ List.filter_sublist
    entry? := hentry
    insts := fun _ => by rw [hblock]
    terminator := fun _ => .inl (by rw [hblock])
    successor_mem := fun hb hc => by
      obtain ⟨π, hπ⟩ := hpath.1 hb
      exact hpath.2 ⟨_, hπ.step (hsucc _ ▸ hc)⟩
    op := fun {b i} hb hi => by
      rw [hop, if_pos ⟨b, hs.layout ▸ hb, hi⟩]
      change dropSources _ (f.op i) = _
      cases ho : f.op i with
      | phi incoming =>
        simp only [dropSources, Func.keepSources, hsucc]
        congr 1
        refine List.filter_congr fun p hp => ?_
        have hp := (hf.toVerified.mem_sources (hmem.1 hb).1 hi ho).1
          (List.mem_map_of_mem (f := (·.2)) hp)
        simp [dead, hmem, hp]
      | _ => rfl
    reached := fun hπ => hpath.2 ⟨_, hπ⟩
    layout_or := .inr fun _ hb => hpath.1 hb }

theorem dropUnreachable_refines (hf : f.WellFormed) :
    f.Refines (dropUnreachable f).1 ∧ AllReached (dropUnreachable f).1 := by
  by_cases hr : (reachable f).length = f.layout.length
  · have hg : (dropUnreachable f).1 = f := by rw [dropUnreachable, if_pos hr]
    rw [hg]
    refine ⟨.refl hf, fun b hb => mem_reachable.1 ?_⟩
    -- as many blocks are reached as there are
    have hsub : reachable f ⊆ f.layout := fun c hc => by
      obtain ⟨π, hπ⟩ := mem_reachable.1 hc
      exact (hπ.mem_layout hf.toVerified).1
    have hperm := (List.subperm_of_subset (reach_nodup List.nodup_nil) hsub).perm_of_length_le hr.ge
    exact hperm.mem_iff.2 hb
  · obtain ⟨h, hall⟩ := dropUnreachable_restricts hf hr
    exact ⟨h.refines hf, hall⟩

end Simplify

end ScalarLang.IR
