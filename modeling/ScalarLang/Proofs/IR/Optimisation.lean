import ScalarLang.IR.Pipeline
import ScalarLang.Proofs.IR.Promotion
import ScalarLang.Proofs.IR.Simplification

/-! Optimisation as a whole. Each pass may take the place of what it is given, so any pipeline of
passes may, however often it is run. -/

namespace ScalarLang.IR

variable {f : Func}

theorem Pass.run_refines (p : Pass) (hf : f.WellFormed) : f.Refines (p.run f).1 := by
  cases p with
  | promote => exact Promote.run_refines hf
  | fold => exact Fold.run_refines hf
  | simplify => exact Simplify.run_refines hf
  | dead => exact Dead.run_refines hf

/-- A pass looks at nothing that a well-formed function does not have. -/
theorem Pass.run?_eq (p : Pass) (hf : f.WellFormed) : p.run? f = some (p.run f) := by
  refine if_pos ?_
  have hv := hf.toVerified
  cases p with
  | promote => exact hv.slotsExist
  | fold => exact hv.placedExists
  | simplify => exact Simplify.runs_of_wellFormed hf
  | dead => exact Bool.and_eq_true_iff.2 ⟨hv.usesExist, hv.slotsExist⟩

namespace Pipeline

theorem round_refines (passes : Pipeline) (hf : f.WellFormed) : f.Refines (round passes f).1 := by
  refine List.foldlRecOn (motive := fun x : Func × Bool => f.Refines x.1) passes _ (.refl hf) ?_
  intro x h p _
  exact h.trans (p.run_refines h.wellFormed)

theorem rounds_refines (passes : Pipeline) (n : Nat) (hf : f.WellFormed) :
    f.Refines (rounds passes n f).1 := by
  induction n generalizing f with
  | zero => exact .refl hf
  | succ n ih =>
    have hr := round_refines passes hf
    unfold rounds
    split
    · next g hg => rwa [hg] at hr
    · next g hg =>
      rw [hg] at hr
      exact hr.trans (ih hr.wellFormed)

theorem run_refines (passes : Pipeline) (hf : f.WellFormed) : f.Refines (passes.run f).1 := by
  unfold run
  split
  · exact .refl hf
  · exact rounds_refines passes maxRounds hf

theorem foldlM_run? (passes : Pipeline) (hf : f.WellFormed) (changed : Bool) :
    passes.foldlM (fun (f, changed) (p : Pass) => do
      let (f, c) ← p.run? f
      return (f, changed || c)) (f, changed) = some (passes.foldl (fun (f, changed) (p : Pass) =>
        let (f, c) := p.run f
        (f, changed || c)) (f, changed)) := by
  induction passes generalizing f changed with
  | nil => rfl
  | cons p passes ih =>
    simp only [List.foldlM_cons, p.run?_eq hf]
    exact ih (p.run_refines hf).wellFormed _

theorem round?_eq (passes : Pipeline) (hf : f.WellFormed) :
    round? passes f = some (round passes f) :=
  foldlM_run? passes hf false

theorem rounds?_eq (passes : Pipeline) (n : Nat) (hf : f.WellFormed) :
    rounds? passes n f = some (rounds passes n f) := by
  induction n generalizing f with
  | zero => rfl
  | succ n ih =>
    have hr := (round_refines passes hf).wellFormed
    rw [rounds?, rounds, round?_eq passes hf]
    rcases hg : round passes f with ⟨g, - | -⟩
    · rfl
    · rw [hg] at hr
      simp [ih hr]

theorem run?_eq (passes : Pipeline) (hf : f.WellFormed) :
    passes.run? f = some (passes.run f) := by
  unfold run? run
  split
  · rfl
  · exact rounds?_eq passes maxRounds hf

/-- Optimisation preserves meaning. It does not fail on a well-formed function, and under every
oracle the result makes the same calls with the same arguments, returns the same value bit for bit,
and runs forever exactly when the function does. -/
theorem run_behaviour_eq (passes : Pipeline) (f : Func) (hf : f.WellFormed) :
    passes.run? f = some (passes.run f) ∧ ∀ (args : List Float) (o : Oracle),
      ((passes.run f).1.process args).behaviour o = (f.process args).behaviour o :=
  ⟨run?_eq passes hf, (run_refines passes hf).behaviour⟩

/-- The argument, and one more unless it is zero. -/
def grow : Func where
  name := "grow"
  params := ["x"]
  slots := #["x"]
  insts := #[⟨.store 0 (.arg 0), ""⟩, ⟨.load 0, "x"⟩,
    ⟨.compare .one (.inst 1) (.const 0.0), "test"⟩,
    ⟨.binary .add (.inst 1) (.const 1.0), "sum"⟩, ⟨.phi [(.inst 1, 0), (.inst 3, 1)], "result"⟩]
  blocks := #[⟨"entry", [0, 1, 2], some (.condBr (.inst 2) 1 2)⟩, ⟨"then", [3], some (.br 2)⟩,
    ⟨"join", [4], some (.ret (.inst 4))⟩]
  layout := [0, 1, 2]

theorem grow_entry_mem {π : List BlockId} (h : grow.Path π 1) : 0 ∈ π := by
  cases h with
  | entry he => cases he
  | @step _ b _ _ hc =>
    match b with
    | 0 => exact List.mem_cons_self ..
    | 1 | 2 => exact absurd hc (by decide)
    | _ + 3 => exact nomatch hc

theorem wellFormed_grow : grow.WellFormed where
  verified := by rfl
  layout_nodup := by decide
  live_nodup := by decide
  entry_preds he := by
    cases he
    rfl
  dominated_inst {b i before after v} hb hl ho hv j hj π hπ := by
    subst hj
    have hi : i ∈ (grow.block b).insts := by simp [hl]
    have hb : b = 0 ∨ b = 1 ∨ b = 2 := by simpa [grow] using hb
    rcases hb with rfl | rfl | rfl
    · have hi : i = 0 ∨ i = 1 ∨ i = 2 := by simpa [grow, Func.block] using hi
      rcases hi with rfl | rfl | rfl
      · simp [grow, Func.op, Func.inst, Operation.operands] at hv
      · cases hv
      · obtain rfl : j = 1 := by simpa [grow, Func.op, Func.inst, Operation.operands] using hv
        have hl : [0, 1] ++ 2 :: [] = before ++ 2 :: after := hl
        exact .inl ((Func.split_unique (by decide) hl).1 ▸ by decide)
    · obtain rfl : i = 3 := by simpa [grow, Func.block] using hi
      obtain rfl : j = 1 := by simpa [grow, Func.op, Func.inst, Operation.operands] using hv
      exact .inr ⟨0, grow_entry_mem hπ, by decide⟩
    · obtain rfl : i = 4 := by simpa [grow, Func.block] using hi
      exact absurd rfl ho
  dominated_phi {b source i incoming v} hb hi ho hv j hj π _ := by
    have hb : b = 0 ∨ b = 1 ∨ b = 2 := by simpa [grow] using hb
    rcases hb with rfl | rfl | rfl
    · have hi : i = 0 ∨ i = 1 ∨ i = 2 := by simpa [grow, Func.block] using hi
      rcases hi with rfl | rfl | rfl <;> cases ho
    · obtain rfl : i = 3 := by simpa [grow, Func.block] using hi
      cases ho
    · obtain rfl : i = 4 := by simpa [grow, Func.block] using hi
      cases ho
      left
      rcases List.mem_pair.1 hv with hv | hv <;> cases hv <;> cases hj <;> decide
  dominated_terminator {b t v} hb ht hv j hj π _ := by
    left
    have hb : b = 0 ∨ b = 1 ∨ b = 2 := by simpa [grow] using hb
    rcases hb with rfl | rfl | rfl <;> cases ht <;>
      simp only [Terminator.operands, List.mem_singleton, List.not_mem_nil] at hv <;>
      cases hv.symm.trans hj <;> decide

theorem run_behaviour_eq_grow : grow.WellFormed ∧ standard.run? grow = some (standard.run grow) ∧
    ∀ (args : List Float) (o : Oracle),
      ((standard.run grow).1.process args).behaviour o = (grow.process args).behaviour o :=
  ⟨wellFormed_grow, run_behaviour_eq standard grow wellFormed_grow⟩

end Pipeline

end ScalarLang.IR
