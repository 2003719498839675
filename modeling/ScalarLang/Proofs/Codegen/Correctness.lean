import ScalarLang.Proofs.Codegen.Simulation

/-! A function behaves as the expression that it was generated from. -/

namespace ScalarLang

namespace Expr

theorem paramBindings_append (params : List String) (param : String) :
    paramBindings (params ++ [param]) = (param, params.length) :: paramBindings params := by
  simp [paramBindings, List.zipIdx_append]

theorem size_cells_start (params : List String) (args : List Float) :
    (start params args).cells.size = params.length := by
  simp [start]

theorem cells_start_append (params : List String) (param : String) (args : List Float) :
    (start (params ++ [param]) args).cells =
      (start params args).cells.push (args.getD params.length 0.0) := by
  simp [start, List.range_succ]

end Expr

namespace Codegen

open IR (Builder Env Func SlotId)

variable {registry : Registry} {σ σ' : State} {F : Func} {args : List Float} {o : Oracle}

/-! ### Parameters -/

theorem genParams_growth {params : List String} {index : Nat} {u : Unit}
    (h : (genParams params index).Yields σ u σ') (hs : σ.builder.Ready) :
    σ.builder.Growth σ'.builder := by
  induction params generalizing σ index with
  | nil =>
    rw [genParams, yields_pure] at h
    obtain ⟨-, rfl⟩ := h
    exact .refl hs
  | cons param rest ih =>
    have hslot := (Builder.Growth.refl hs).addSlot param
    have hstore := hslot.addInst hs (.store σ.builder.func.slots.size (.arg index)) ""
      (.inl Bool.false_ne_true)
    exact hstore.trans hs (ih (yields_params_cons h) hstore.ready)

/-- The first code of a function puts the arguments where the parameters are. -/
theorem run_params (done : List String) {params : List String} {u : Unit}
    {Λ : List (Nat × SlotId)} {ρ : Env} {t : Trace}
    (h : (genParams params done.length).Yields σ u σ') (hs : σ.builder.Ready)
    (hF : σ'.builder.func.Grows F) (hargs : ρ.args = args)
    (hl : Linked Λ σ (Expr.paramBindings done) (Expr.start done args).cells ρ.slots) :
    ∃ k Λ' ρ', (F.process args).run o k (σ.builder.at F ρ, t) = some (σ'.builder.at F ρ', t) ∧
      Linked Λ' σ' (Expr.paramBindings (done ++ params)) (Expr.start (done ++ params) args).cells
        ρ'.slots := by
  induction params generalizing σ done Λ ρ with
  | nil =>
    rw [genParams, yields_pure] at h
    obtain ⟨-, rfl⟩ := h
    exact ⟨0, Λ, ρ, rfl, by simpa using hl⟩
  | cons param rest ih =>
    have h := yields_params_cons h
    have hslot := State.Grown.addSlot hs param
    have hstore := hslot.emit hs
      (rfl : (IR.Operation.store σ.builder.func.slots.size (.arg done.length)).isPhi = false) ""
    have hFstore := (genParams_growth h hstore.builder.ready).grows.trans hF
    have hlt : σ.builder.func.slots.size <
        (σ.update fun b => (b.addSlot param).2).builder.func.slots.size := by
      simp [State.update, Builder.addSlot]
    have hl₁ := (hl.grown hstore).push hlt (fun c hm => Nat.lt_irrefl _ (hl.slot_lt hm)) param
      (args.getD done.length 0.0)
    rw [Expr.size_cells_start, ← Expr.paramBindings_append,
      ← Expr.cells_start_append done param] at hl₁
    have hvalue : ρ.value (.arg done.length) = args.getD done.length 0.0 := by rw [← hargs]; rfl
    rw [← hvalue] at hl₁
    have hlen : done.length + 1 = (done ++ [param]).length := by simp
    rw [hlen] at h
    obtain ⟨k, Λ', ρ', hrun, hl'⟩ := ih (done ++ [param]) h hstore.builder.ready hargs hl₁
      (ρ := ρ.setSlot σ.builder.func.slots.size (ρ.value (.arg done.length)))
    refine ⟨1 + k, Λ', ρ', ?_, by simpa using hl'⟩
    exact Process.run_trans (run_emit hslot.builder.ready hFstore rfl (by simp)) hrun

/-! ### Functions -/

/-- A run begins at the first code that was generated. -/
theorem startState_eq_at (args : List Float) {name : String} {params : List String}
    (hF : (Builder.start name params).func.Grows F) :
    F.startState args = (Builder.start name params).at F (.start args) := by
  obtain ⟨rest, hrest⟩ := hF.layout
  have hentry : F.entry? = some 0 := by rw [Func.entry?, ← hrest]; rfl
  rw [Func.startState_of_entry hentry]
  rfl

/-- The code of a function follows the evaluation of its body, and returns its value. -/
theorem follows_body {proto : Prototype} {body : Expr} {unit : IR.Module}
    (h : (genBody registry proto body).Yields (startState unit proto) () σ) (n : Nat) :
    (σ.builder.func.process args).Follows o n (σ.builder.func.startState args, [])
      (fun r _ s => σ.builder.func.step s = .done r)
      (Expr.evalBody o n proto.params body args) := by
  obtain ⟨σ₁, v, σ₂, hp, hb, rfl⟩ := yields_body h
  have hstart := Builder.ready_start proto.name proto.params
  have h₁ := genParams_growth hp hstart
  have h₂ := (genExpr_grows registry body hb h₁.ready).builder
  have hret := Builder.ends_terminate h₂.ready.current_lt (.ret v)
  have hF := hret.grows h₂.ready.not_ended
  have hF₁ := h₂.grows.trans hF
  have hl : Linked [] (startState unit proto) (Expr.paramBindings []) (Expr.start [] args).cells
      (Env.start args).slots := ⟨nofun, nofun, nofun, nofun, fun _ => .none⟩
  obtain ⟨k, Λ, ρ, hrun, hl₁⟩ := run_params [] hp hstart hF₁ rfl hl (o := o) (t := [])
  have hat := startState_eq_at args (h₁.grows.trans hF₁)
  refine .after ((congrArg (fun s => Process.run _ o k (s, [])) hat).trans hrun) ?_
  refine (genExpr_simulates registry _ args o n body hb h₁.ready hF hl₁).imp ?_
  rintro r w _ ⟨ρ', rfl, -, -, rfl⟩
  exact Builder.step_end hret.code

/-- A run that follows all evaluations of a body, with whatever bound, shows what the body means. -/
theorem shows_of_follows {p : Process} {params : List String} {body : Expr}
    (h : ∀ n, p.Follows o n (p.start, []) (fun r _ s => p.step s = .done r)
      (Expr.evalBody o n params body args)) : p.Shows o (Expr.behaviour params body args o) where
  total := by
    by_cases hd : ∀ n, (Expr.evalBody o n params body args).1 = .error .cutOff
    · exact .inr (.inr hd)
    · obtain ⟨n, hn⟩ := not_forall.1 hd
      rcases he : Expr.evalBody o n params body args with ⟨(- | -) | v, w⟩
      · exact absurd (by rw [he]) hn
      · exact .inr (.inl ⟨w.trace, n, w, he, rfl⟩)
      · exact .inl ⟨w.trace, v, n, w, he, rfl⟩
  calls_of_returns := by
    rintro t u v ⟨n, w, he, rfl⟩ hu
    exact ⟨n, by rwa [he]⟩
  calls_of_fails := by
    rintro t u ⟨n, w, he, rfl⟩ hu
    exact ⟨n, by rwa [he]⟩
  calls_of_prefix := fun ⟨n, ht⟩ hu => ⟨n, hu.trans ht⟩
  returns := by
    rintro t v ⟨n, w, he, rfl⟩
    obtain ⟨k, s, hk, hs⟩ := he ▸ h n
    exact ⟨k, s, hk, hs⟩
  fails := by
    rintro t ⟨n, w, he, rfl⟩
    exact absurd (he ▸ h n) Process.Follows.not_wrong
  calls := by
    rintro t ⟨n, ht⟩
    have hn := h n
    rcases he : Expr.evalBody o n params body args with ⟨(- | -) | v, w⟩ <;> rw [he] at hn ht
    · obtain ⟨k, s, -, hk⟩ := hn
      exact Process.calls_of_prefix ⟨k, s, hk⟩ ht
    · exact absurd hn Process.Follows.not_wrong
    · obtain ⟨k, s, hk, -⟩ := hn
      exact Process.calls_of_prefix ⟨k, s, hk⟩ ht
  diverges k hd := by
    have hk := h k
    rcases he : Expr.evalBody o k params body args with ⟨e, w⟩
    have hcut : e = .error .cutOff := by simpa [he] using hd k
    rw [he, hcut] at hk
    obtain ⟨m, s, hm, hrun⟩ := hk
    exact ⟨m, s, w.trace, hm, hrun, k, by rw [he]⟩

theorem run_nil (f : Func) : IR.Pipeline.run [] f = (f, 0) := by
  unfold IR.Pipeline.run
  split <;> rfl

/-- A function that is generated, and not optimised, makes the calls of its body, returns the value
of its body, and runs forever if its body does; it never gets stuck. -/
theorem function_behaviour_eq (registry : Registry) (unit unit' : IR.Module) (proto : Prototype)
    (body : Expr) (f : Func) (h : function registry [] unit proto body = (.ok f, unit'))
    (args : List Float) (o : Oracle) :
    (f.process args).behaviour o = Expr.behaviour proto.params body args o ∧
      ∀ t, ¬(Expr.behaviour proto.params body args o).fails t := by
  obtain ⟨σ, hbody, -, hf, -⟩ := function_eq_ok h
  rw [run_nil] at hf
  subst hf
  refine ⟨(shows_of_follows (follows_body hbody)).eq.symm, ?_⟩
  rintro t ⟨n, w, he, -⟩
  exact absurd (he ▸ follows_body hbody n) Process.Follows.not_wrong

/-- The body of a function that calls itself: one up to two, and else the sum of the two before. -/
def fibonacci : Expr :=
  .cond (.binary '<' (.var "x") (.number 3.0)) (.number 1.0)
    (some (.binary '+' (.call "fib" [.binary '-' (.var "x") (.number 1.0)])
      (.call "fib" [.binary '-' (.var "x") (.number 2.0)])))

theorem function_behaviour_eq_fibonacci :
    ∃ f unit', function {} [] ⟨"unit", []⟩ ⟨"fib", ["x"], .plain⟩ fibonacci = (.ok f, unit') ∧
      ∀ args o, (f.process args).behaviour o = Expr.behaviour ["x"] fibonacci args o := by
  have hok : (function {} [] ⟨"unit", []⟩ ⟨"fib", ["x"], .plain⟩ fibonacci).1.isOk = true := by
    decide +kernel
  match h : function {} [] ⟨"unit", []⟩ ⟨"fib", ["x"], .plain⟩ fibonacci with
  | (.ok f, unit') =>
    exact ⟨f, unit', rfl, fun args o => (function_behaviour_eq _ _ _ _ _ f h args o).1⟩
  | (.error e, unit') => simp [h, Except.isOk, Except.toBool] at hok

end Codegen

end ScalarLang
