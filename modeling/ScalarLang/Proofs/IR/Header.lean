import ScalarLang.Proofs.IR.Optimisation

/-! The header of a function, which is all that its callers see. Optimisation does not change it, and
a function that can be called still can. -/

namespace ScalarLang.IR

/-- The name of a function and its parameters. -/
def Func.header (f : Func) : String × List String := (f.name, f.params)

theorem Func.name_of_header {f : Func} {name : String} {params : List String}
    (h : f.header = (name, params)) : f.name = name := congrArg Prod.fst h

theorem Func.arity_of_header {f : Func} {name : String} {params : List String}
    (h : f.header = (name, params)) : f.arity = params.length :=
  congrArg (fun header : String × List String => header.2.length) h

variable {σ α : Type}

/-- A fold whose steps keep a header keeps it. -/
theorem header_foldl (get : σ → Func) (step : σ → α → σ)
    (h : ∀ s a, (get (step s a)).header = (get s).header) (as : List α) (s : σ) :
    (get (as.foldl step s)).header = (get s).header :=
  List.foldlRecOn as step (motive := fun t => (get t).header = (get s).header) rfl
    fun t ht a _ => (h t a).trans ht

namespace Promote

theorem header_slot {f g : Func} {entry : BlockId} {s : SlotId} (h : slot f entry s = some g) :
    g.header = f.header := by
  obtain ⟨⟨store, value⟩, -, rfl⟩ := Option.map_eq_some_iff.1 h
  exact header_foldl id (fun f i => f.replaceUses i value) (fun _ _ => rfl) (loads f s) f

theorem header_run (f : Func) : (run f).1.header = f.header := by
  unfold run
  split
  · rfl
  · next entry _ =>
    refine header_foldl Prod.fst _ (fun x s => ?_) (candidates f) (f, false)
    dsimp only
    split
    · next g hg => exact header_slot hg
    · rfl

end Promote

theorem Fold.header_run (f : Func) : (run f).1.header = f.header := by
  refine header_foldl Prod.fst _ (fun x i => ?_) f.live (f, ([] : List InstId))
  change (inst x.1 x.2 i).1.header = _
  unfold inst
  split <;> rfl

namespace Simplify

theorem header_mapBlock (f : Func) (b : BlockId) (g : Operation → Operation) :
    (mapBlock f b g).header = f.header :=
  header_foldl id (fun f i => f.modifyOp i g) (fun _ _ => rfl) (f.block b).insts f

theorem header_foldBranch {f g : Func} {b : BlockId} (h : foldBranch f b = some g) :
    g.header = f.header := by
  obtain ⟨⟨taken, untaken⟩, -, rfl⟩ := Option.map_eq_some_iff.1 h
  cases untaken with
  | none => rfl
  | some other => exact header_mapBlock _ other _

theorem header_foldBranches (f : Func) : (foldBranches f).1.header = f.header := by
  refine header_foldl Prod.fst _ (fun x b => ?_) f.layout (f, false)
  dsimp only
  split
  · next g hg => exact header_foldBranch hg
  · rfl

theorem header_dropUnreachable (f : Func) : (dropUnreachable f).1.header = f.header := by
  simp only [dropUnreachable]
  split
  · rfl
  · refine header_foldl id _ (fun g b => ?_) _ { f with layout := _ }
    exact header_foldl id _ (fun g d => header_mapBlock g b (dropSource d)) _ g

theorem header_resolvePhis (f : Func) (insts : List InstId) :
    (resolvePhis f insts).1.header = f.header := by
  fun_induction resolvePhis f insts with
  | case1 => rfl
  | case2 _ _ _ _ ih => exact ih
  | case3 _ _ _ _ _ _ _ ih => exact ih
  | case4 _ _ _ _ _ ih => simp_all

theorem header_merge (f : Func) (p b : BlockId) : (merge f p b).header = f.header := by
  have htargets (g : Func) (targets : List BlockId) :
      (targets.foldl (fun f s => mapBlock f s (renameSource b p)) g).header = g.header :=
    header_foldl id _ (fun f s => header_mapBlock f s (renameSource b p)) targets g
  have hresolve := header_resolvePhis f (f.block b).insts
  simp only [merge, Func.header, Func.modifyBlock] at htargets hresolve ⊢
  rw [htargets, hresolve]

theorem header_mergeAll (f : Func) : (mergeAll f).1.header = f.header := by
  fun_induction mergeAll f with
  | case1 => rfl
  | case2 f p b _ _ ih => exact ih.trans (header_merge f p b)

theorem header_run (f : Func) : (run f).1.header = f.header :=
  (header_mergeAll _).trans ((header_dropUnreachable _).trans (header_foldBranches f))

end Simplify

theorem Dead.header_run (f : Func) : (run f).1.header = f.header := by
  fun_induction run f with
  | case1 => rfl
  | case2 f _ _ _ _ ih => exact ih

theorem Pass.header_run (p : Pass) (f : Func) : (p.run f).1.header = f.header := by
  cases p with
  | promote => exact Promote.header_run f
  | fold => exact Fold.header_run f
  | simplify => exact Simplify.header_run f
  | dead => exact Dead.header_run f

namespace Pipeline

theorem header_round (passes : Pipeline) (f : Func) : (round passes f).1.header = f.header :=
  header_foldl Prod.fst _ (fun x p => p.header_run x.1) passes (f, false)

theorem header_rounds (passes : Pipeline) (n : Nat) (f : Func) :
    (rounds passes n f).1.header = f.header := by
  induction n generalizing f with
  | zero => rfl
  | succ n ih =>
    have hround := header_round passes f
    unfold rounds
    split
    · next g hg => rwa [hg] at hround
    · next g hg =>
      rw [hg] at hround
      exact (ih g).trans hround

theorem header_run (passes : Pipeline) (f : Func) : (passes.run f).1.header = f.header := by
  unfold run
  split
  · rfl
  · exact header_rounds passes maxRounds f

end Pipeline

/-- The function has code, which is well formed, and calls each name in one way. -/
structure Func.Callable (f : Func) : Prop where
  wellFormed : f.WellFormed
  uniformCalls : f.UniformCalls
  layout : f.layout ≠ []

theorem Func.Callable.isDeclaration {f : Func} (h : f.Callable) : f.isDeclaration = false := by
  simpa [Func.isDeclaration] using h.layout

theorem Func.Callable.run {f : Func} (h : f.Callable) (passes : Pipeline) :
    (passes.run f).1.Callable := by
  have hrefines := passes.run_refines h.wellFormed
  refine ⟨hrefines.wellFormed, hrefines.uniformCalls h.uniformCalls, fun hnil => h.layout ?_⟩
  have hentry := hrefines.entry?
  rw [Func.entry?, hnil] at hentry
  exact List.head?_eq_none_iff.1 hentry.symm

end ScalarLang.IR
