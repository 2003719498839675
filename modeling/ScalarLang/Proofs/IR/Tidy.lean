import ScalarLang.Proofs.IR.Fixpoint

/-! Functions whose control flow is tidy: blocks have at most one phi, and every edge goes forward
in some order of the blocks, or back to a block without phis that is on every way to where the edge
begins. Optimisation keeps functions tidy, and a phi of a tidy function never receives its own
value. -/

namespace ScalarLang.IR

open Simplify

namespace Func

variable {f g : Func} {rank : BlockId → Nat} {b c : BlockId}

/-- An edge from `b` to `c` closes a loop: it begins at `c`, which has no phis, or behind it. -/
structure Closes (f : Func) (b c : BlockId) : Prop where
  no_phi : f.phis c = []
  passed {π : List BlockId} : f.Path π b → c ∈ b :: π

structure Tidy (f : Func) (rank : BlockId → Nat) : Prop where
  phis {b : BlockId} : b ∈ f.layout → (f.phis b).length ≤ 1
  edge {b c : BlockId} : b ∈ f.layout → c ∈ f.successors b → rank b < rank c ∨ f.Closes b c

/-! ### Phis -/

/-- Every block that can be reached can be reached by a way that only goes forward. -/
theorem Tidy.exists_forward (h : f.Tidy rank) (hv : f.Verified) {π : List BlockId}
    (hπ : f.Path π b) : ∃ π', f.Path π' b ∧ ∀ d ∈ π', rank d < rank b := by
  induction hn : π.length using Nat.strongRecOn generalizing π b with
  | ind n ih =>
    cases hπ with
    | entry he => exact ⟨[], .entry he, by simp⟩
    | @step π c _ hc hb =>
      rw [List.length_cons] at hn
      rcases h.edge (hc.mem_layout hv).1 hb with hlt | hback
      · obtain ⟨π', hπ', hall⟩ := ih _ (by omega) hc rfl
        exact ⟨c :: π', hπ'.step hb,
          List.forall_mem_cons.2 ⟨hlt, fun d hd => (hall d hd).trans hlt⟩⟩
      · -- the block was passed before, so the way can be cut short
        rcases List.mem_cons.1 (hback.passed hc) with rfl | hm
        · exact ih _ (by omega) hc rfl
        · obtain ⟨π₁, π₂, rfl, hπ₂⟩ := hc.of_mem hm
          exact ih _ (by simp [← hn]; omega) hπ₂ rfl

theorem Tidy.incoming_ne (h : f.Tidy rank) (hf : f.WellFormed) (hr : AllReached f)
    (hb : b ∈ f.layout) {i : InstId} (hi : i ∈ (f.block b).insts)
    {incoming : List (Operand × BlockId)} (ho : f.op i = .phi incoming) {v : Operand}
    (hv : (v, c) ∈ incoming) : v ≠ .inst i := by
  rintro rfl
  have hc := (hf.toVerified.mem_sources hb hi ho).1 (List.mem_map_of_mem (f := (·.2)) hv)
  have hlt : rank c < rank b := by
    refine (h.edge hc.1 hc.2).resolve_right fun hback => ?_
    have hphi : i ∈ f.phis b := mem_phis.2 ⟨hi, by rw [ho]; rfl⟩
    rw [hback.no_phi] at hphi
    cases hphi
  obtain ⟨π, hπ⟩ := hr c hc.1
  obtain ⟨π', hπ', hall⟩ := h.exists_forward hf.toVerified hπ
  rcases hf.dominated_phi hb hi ho hv i rfl π' hπ' with hm | ⟨d, hd, hm⟩
  · rw [block_unique hf.live_nodup hb hc.1 hi hm] at hlt
    exact Nat.lt_irrefl _ hlt
  · rw [block_unique hf.live_nodup hb ((hπ'.mem_layout hf.toVerified).2 d hd) hi hm] at hlt
    exact Nat.lt_asymm hlt (hall d hd)

/-! ### Steps -/

/-- Control comes to a merged block for the first time over the edge that is taken away. -/
theorem Merged.not_closes {p : BlockId} (h : f.Merged g p b) (hv : f.Verified)
    (hr : AllReached f) : ¬f.Closes p b := by
  intro hback
  obtain ⟨π, hπ⟩ := hr b h.block_mem
  obtain ⟨π', hπ', hb, -⟩ := hπ.exists_first
  cases hπ' with
  | entry he => exact h.not_entry he
  | @step π' q _ hq hs =>
    obtain rfl := h.only (hq.mem_layout hv).1 hs
    exact hb (hback.passed hq)

theorem mem_unmerge {p : BlockId} {π : List BlockId} (hc : c ∈ unmerge p b π) (hne : c ≠ b) :
    c ∈ π := by
  obtain ⟨d, hd, hc⟩ := List.mem_flatMap.1 hc
  split at hc
  · next hdp =>
    obtain rfl : c = p := by simpa [hne] using hc
    exact hdp ▸ hd
  · rwa [List.mem_singleton.1 hc]

theorem Merged.edge {p : BlockId} (h : f.Merged g p b) (hf : f.WellFormed) (hr : AllReached f)
    (ht : f.Tidy rank) {c d : BlockId} (hc : c ∈ g.layout) (hd : d ∈ g.successors c) :
    rank c < rank d ∨ g.Closes c d := by
  have hv := hf.toVerified
  have hdg := h.successor_mem hv hc hd
  have hno (hback : f.phis d = []) : g.phis d = [] := (h.phis hdg).trans hback
  obtain ⟨c', hcc', hc', hdc', hdb⟩ := (h.mem_successors hc).1 hd
  by_cases hcb : c' = b
  · -- the edge left the merged block, to which control came by a forward edge
    rw [hcb, mergedInto_self] at hcc'
    rw [hcb] at hdc'
    subst hcc'
    have hpb : rank p < rank b := by
      refine (ht.edge h.pred_mem ?_).resolve_right (h.not_closes hv hr)
      rw [h.successors_pred]
      exact List.mem_singleton_self b
    rcases ht.edge h.block_mem hdc' with hlt | hback
    · exact .inl (hpb.trans hlt)
    · refine .inr ⟨hno hback.no_phi, fun {π} hπ => ?_⟩
      have hpath := (h.path hv hπ).1.step (c := b) (by simp [h.successors_pred])
      rcases List.mem_cons.1 ((List.mem_cons.1 (hback.passed hpath)).resolve_left hdb) with he | hm
      · exact List.mem_cons.2 (.inl he)
      · exact List.mem_cons_of_mem _ (mem_unmerge hm hdb)
  · rw [mergedInto_of_ne hcb] at hcc'
    subst hcc'
    rcases ht.edge hc' hdc' with hlt | hback
    · exact .inl hlt
    · refine .inr ⟨hno hback.no_phi, fun {π} hπ => ?_⟩
      rcases List.mem_cons.1 (hback.passed (h.path hv hπ).1) with he | hm
      · exact List.mem_cons.2 (.inl he)
      · exact List.mem_cons_of_mem _ (mem_unmerge hm hdb)

theorem Reduction.tidy (h : Reduction f g) (ht : f.Tidy rank) : g.Tidy rank where
  phis hb := (h.phis_sublist hb).length_le.trans (ht.phis (h.layout_subset hb))
  edge {b c} hb hc := by
    have hphis (hc : c ∈ g.layout) (hn : f.phis c = []) : g.phis c = [] :=
      List.eq_nil_of_sublist_nil (hn ▸ h.phis_sublist hc)
    cases h with
    | edit h =>
      refine (ht.edge (h.layout ▸ hb) (h.successors b ▸ hc)).imp_right fun hback => ?_
      exact ⟨List.eq_nil_of_sublist_nil (hback.no_phi ▸ h.phis_sublist c),
        fun hπ => hback.passed (h.path_iff.1 hπ)⟩
    | restrict hf h hlt =>
      refine (ht.edge (h.mem_layout hb) (h.successors_subset hb hc)).imp_right fun hback => ?_
      exact ⟨hphis (h.successor_mem hb hc) hback.no_phi, fun hπ => hback.passed (h.path hπ).1⟩
    | merge hf h hr => exact h.edge hf hr ht hb hc

theorem Edit.allReached (h : Edit f g) (hr : AllReached f) : AllReached g :=
  fun b hb => (hr b (h.layout ▸ hb)).imp fun _ => h.path_iff.2

end Func

open Func

variable {f : Func} {rank : BlockId → Nat}

/-! ### Passes -/

theorem Simplify.mergeAll_reached (hf : f.WellFormed) (hr : AllReached f) :
    AllReached (mergeAll f).1 := by
  fun_induction mergeAll f with
  | case1 f _ => exact hr
  | case2 f p b hc _ ih =>
    obtain ⟨hm, hr⟩ := merge_refines hf hr (candidate_solePred hf.toVerified hc)
    exact ih hm.wellFormed hr

theorem Pass.allReached (p : Pass) (hf : f.WellFormed) (hr : AllReached f) :
    AllReached (p.run f).1 := by
  cases p with
  | promote => exact (Promote.run_outcome hf.live_nodup).invariant (fun _ _ h => h.allReached) hr
  | fold => exact (Fold.run_outcome hf.live_nodup).invariant (fun _ _ h => h.allReached) hr
  | dead => exact (Dead.run_outcome f).invariant (fun _ _ h => h.allReached) hr
  | simplify =>
    obtain ⟨hdrop, hr⟩ := dropUnreachable_refines (foldBranches_refines hf).wellFormed
    exact mergeAll_reached hdrop.wellFormed hr

namespace Pipeline

/-- What every pass keeps, a pipeline keeps. -/
theorem run_invariant (passes : Pipeline) {P : Func → Prop}
    (hP : ∀ (p : Pass) (f : Func), f.WellFormed → P f → P (p.run f).1) (hf : f.WellFormed)
    (h : P f) : P (passes.run f).1 := by
  have round {f : Func} (hf : f.WellFormed) (h : P f) : P (round passes f).1 := by
    refine (List.foldlRecOn (motive := fun x : Func × Bool => P x.1 ∧ x.1.WellFormed)
      passes _ ⟨h, hf⟩ ?_).1
    rintro ⟨g, changed⟩ ⟨h, hg⟩ p _
    exact ⟨hP p g hg h, (p.run_refines hg).wellFormed⟩
  have rounds {f : Func} (n : Nat) (hf : f.WellFormed) (h : P f) : P (rounds passes n f).1 := by
    induction n generalizing f with
    | zero => exact h
    | succ n ih =>
      have hr := round hf h
      have hg := (round_refines passes hf).wellFormed
      rw [Pipeline.rounds]
      split
      · next g he => rwa [he] at hr
      · next g he =>
        rw [he] at hr hg
        exact ih hg hr
  rw [run]
  split
  · exact h
  · exact rounds maxRounds hf h

theorem run_allReached (passes : Pipeline) (hf : f.WellFormed) (hr : AllReached f) :
    AllReached (passes.run f).1 :=
  run_invariant passes (fun p _ => p.allReached) hf hr

/-- What every step keeps, a pipeline keeps. -/
theorem run_keeps (passes : Pipeline) {P : Func → Prop} (hP : ∀ f g, Reduction f g → P f → P g)
    (hf : f.WellFormed) (h : P f) : P (passes.run f).1 :=
  run_invariant passes (fun p _ hf => (p.run_outcome hf).invariant hP) hf h

end Pipeline

end ScalarLang.IR
