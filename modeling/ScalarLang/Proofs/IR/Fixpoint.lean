import ScalarLang.Proofs.IR.Reduction

/-! Optimisation comes to an end. Each step makes a function lighter, so a pass that says that it
changed something has, and a pipeline that stops before its last round has reached a function that
none of its passes changes. -/

namespace ScalarLang.IR

open Relation

namespace Func

variable {f g : Func} {p b : BlockId}

/-- The number of placed instructions, of laid out blocks and of conditional branches. -/
def weight (f : Func) : Nat := f.live.length + f.flowSize

/-! ### Steps -/

theorem branches_mapOperands (f : Func) (m : Operand → Operand) (b : BlockId) :
    (f.mapOperands m).branches b = f.branches b := by
  rw [branches, block_mapOperands, branches]
  rcases (f.block b).terminator with - | - | - | - <;> rfl

theorem branches_removeInsts (f : Func) (dead : List InstId) (b : BlockId) :
    (f.removeInsts dead).branches b = f.branches b := by
  rw [branches, terminator_removeInsts, branches]

theorem flowSize_removeInsts (f : Func) (dead : List InstId) :
    (f.removeInsts dead).flowSize = f.flowSize := by
  rw [flowSize, layout_removeInsts, funext (branches_removeInsts f dead), flowSize]

theorem flowSize_substitute (f : Func) (i : InstId) (v : Operand) :
    (f.substitute i v).flowSize = f.flowSize := by
  rw [substitute, flowSize_removeInsts, replaceUses, flowSize, funext (branches_mapOperands f _)]
  rfl

/-- The branch at the end of the merged block is the one at the end of the block that jumped to
it. -/
theorem Merged.flowSize_lt (h : f.Merged g p b) (hn : f.layout.Nodup) :
    g.flowSize < f.flowSize := by
  obtain ⟨rest, hf, hg, hrest⟩ := h.layout_perm hn
  have hsame : rest.countP g.branches = rest.countP f.branches :=
    List.countP_congr fun c hc => by
      rw [branches, h.terminator (hrest c hc).1 (hrest c hc).2, branches]
  have hjump : f.branches p = false := by simp [branches, h.jump]
  have hpred : g.branches p = f.branches b := by rw [branches, h.terminator_pred, branches]
  simp only [flowSize, hf.length_eq, hg.length_eq, hf.countP_eq, hg.countP_eq, List.length_cons,
    List.countP_cons, hsame, hjump, hpred, Bool.false_eq_true, if_false]
  omega

theorem Edit.weight_lt (h : Edit f g) : g.weight < f.weight := by
  cases h with
  | @substitute i v hi hv =>
    rw [weight, live_substitute, flowSize_substitute, weight, Nat.add_lt_add_iff_right,
      List.length_filter_lt_length_iff_exists]
    exact ⟨i, hi, by simp⟩
  | @remove dead i hi hl =>
    rw [weight, live_removeInsts, flowSize_removeInsts, weight, Nat.add_lt_add_iff_right,
      List.length_filter_lt_length_iff_exists]
    exact ⟨i, hl, by simpa using hi⟩

theorem Reduction.weight_lt (h : Reduction f g) : g.weight < f.weight := by
  have hle := h.live_subperm.length_le
  cases h with
  | edit h => exact h.weight_lt
  | restrict hf h hlt => exact Nat.add_lt_add_of_le_of_lt hle hlt
  | merge hf h hr => exact Nat.add_lt_add_of_le_of_lt hle (h.flowSize_lt hf.layout_nodup)

/-! ### Runs -/

theorem weight_lt_of_transGen (h : TransGen Reduction f g) : g.weight < f.weight := by
  induction h with
  | single h => exact h.weight_lt
  | tail _ h ih => exact h.weight_lt.trans ih

theorem Outcome.eq_of_false (h : f.Outcome Reduction (g, false)) : g = f := by
  cases h
  rfl

theorem Outcome.weight_lt (h : f.Outcome Reduction (g, true)) : g.weight < f.weight := by
  cases h with
  | reduced h => exact weight_lt_of_transGen h

end Func

open Func

namespace Pipeline

variable {f : Func}

theorem round_outcome (passes : Pipeline) (hf : f.WellFormed) :
    f.Outcome Reduction (round passes f) := by
  refine (List.foldlRecOn (motive := fun x : Func × Bool =>
    f.Outcome Reduction x ∧ x.1.WellFormed) passes _ ⟨.same, hf⟩ ?_).1
  rintro ⟨g, changed⟩ ⟨h, hg⟩ p _
  exact ⟨h.trans (p.run_outcome hg), (p.run_refines hg).wellFormed⟩

/-- A round that changed nothing ran passes that change nothing. -/
theorem run_eq_of_foldl (passes : Pipeline) (hf : f.WellFormed) {changed : Bool}
    (h : (passes.foldl (fun (f, changed) (p : Pass) =>
      let (f, c) := p.run f
      (f, changed || c)) (f, changed)).2 = false) :
    changed = false ∧ ∀ p ∈ passes, p.run f = (f, false) := by
  induction passes generalizing f changed with
  | nil => exact ⟨h, by simp⟩
  | cons p passes ih =>
    have ho := p.run_outcome hf
    have hg := (p.run_refines hf).wellFormed
    rcases hp : p.run f with ⟨g, c⟩
    simp only [List.foldl_cons, hp] at h
    rw [hp] at ho hg
    obtain ⟨hc, hrest⟩ := ih hg h
    obtain ⟨rfl, rfl⟩ := Bool.or_eq_false_iff.1 hc
    obtain rfl := ho.eq_of_false
    exact ⟨rfl, List.forall_mem_cons.2 ⟨hp, hrest⟩⟩

theorem run_eq_of_round {passes : Pipeline} (hf : f.WellFormed) (h : round passes f = (f, false)) :
    ∀ p ∈ passes, p.run f = (f, false) :=
  (run_eq_of_foldl passes hf (congrArg (·.2) h)).2

/-- Every round that is counted makes the function lighter. -/
theorem weight_rounds (passes : Pipeline) (n : Nat) (hf : f.WellFormed) :
    (rounds passes n f).1.weight + (rounds passes n f).2 ≤ f.weight := by
  induction n generalizing f with
  | zero => exact Nat.le_refl _
  | succ n ih =>
    have ho := round_outcome passes hf
    have hr := (round_refines passes hf).wellFormed
    rw [rounds]
    split
    · next g hg =>
      rw [hg] at ho
      rw [ho.eq_of_false]
      exact Nat.le_refl _
    · next g hg =>
      rw [hg] at ho hr
      have hrest := ih hr
      have hlt := ho.weight_lt
      dsimp only at hrest ⊢
      omega

/-- If fewer rounds are counted than were allowed, the next one changes nothing. -/
theorem round_rounds (passes : Pipeline) (n : Nat) (hf : f.WellFormed) :
    (rounds passes n f).2 ≤ n ∧ ((rounds passes n f).2 < n →
      round passes (rounds passes n f).1 = ((rounds passes n f).1, false)) := by
  induction n generalizing f with
  | zero => exact ⟨Nat.le_refl _, fun h => absurd h (Nat.lt_irrefl _)⟩
  | succ n ih =>
    have ho := round_outcome passes hf
    have hr := (round_refines passes hf).wellFormed
    rw [rounds]
    split
    · next g hg =>
      rw [hg] at ho
      obtain rfl := ho.eq_of_false
      exact ⟨Nat.zero_le _, fun _ => hg⟩
    · next g hg =>
      rw [hg] at hr
      obtain ⟨hle, hlast⟩ := ih hr
      exact ⟨Nat.succ_le_succ hle, fun h => hlast (Nat.lt_of_succ_lt_succ h)⟩

/-- No pass changes a function without code. -/
theorem round_declaration (passes : Pipeline) (hf : f.WellFormed) (hd : f.isDeclaration) :
    round passes f = (f, false) := by
  have hl : f.layout = [] := List.isEmpty_iff.1 hd
  have ho := round_outcome passes hf
  rcases hr : round passes f with ⟨g, - | -⟩
  · rw [hr] at ho
    rw [ho.eq_of_false]
  · rw [hr] at ho
    have hlt := ho.weight_lt
    simp [weight, flowSize, live, hl] at hlt

theorem run_of_round {passes : Pipeline} (h : round passes f = (f, false)) :
    passes.run f = (f, 0) := by
  rw [run]
  split
  · rfl
  · rw [maxRounds, rounds, h]

theorem round_run (passes : Pipeline) (hf : f.WellFormed) :
    (passes.run f).1.weight + (passes.run f).2 ≤ f.weight ∧ (passes.run f).2 ≤ maxRounds ∧
      ((passes.run f).2 < maxRounds →
        round passes (passes.run f).1 = ((passes.run f).1, false)) := by
  by_cases hd : f.isDeclaration
  · have hr := round_declaration passes hf hd
    rw [run_of_round hr]
    exact ⟨Nat.le_refl _, Nat.zero_le _, fun _ => hr⟩
  · rw [run, if_neg hd]
    exact ⟨weight_rounds passes maxRounds hf, round_rounds passes maxRounds hf⟩

/-- Passes tell the truth about what they change, and a pipeline stops when nothing is left to do.
Every pass does something with a well-formed function; if it reports no change it has left the
function as it was, and if it reports one the function is lighter. So a pipeline that counts fewer
rounds than it may take has reached a function that none of its passes changes, and it does nothing
with it when it is run again. Each round that it counts has made the function lighter. -/
theorem run_fixpoint (f : Func) (hf : f.WellFormed) :
    (∀ p : Pass, ∃ g changed, p.run? f = some (g, changed) ∧ (changed = false → g = f) ∧
      (changed = true → g.weight < f.weight)) ∧
    ∀ passes : Pipeline, ∃ g n, passes.run? f = some (g, n) ∧ n ≤ maxRounds ∧
      g.weight + n ≤ f.weight ∧ (n < maxRounds → (∀ p ∈ passes, p.run? g = some (g, false)) ∧
        passes.run? g = some (g, 0)) := by
  constructor
  · intro p
    have ho := p.run_outcome hf
    refine ⟨(p.run f).1, (p.run f).2, p.run?_eq hf, fun hc => ?_, fun hc => ?_⟩
    · exact (hc ▸ ho : f.Outcome Reduction ((p.run f).1, false)).eq_of_false
    · exact (hc ▸ ho : f.Outcome Reduction ((p.run f).1, true)).weight_lt
  · intro passes
    have hg := (run_refines passes hf).wellFormed
    obtain ⟨hweight, hle, hlast⟩ := round_run passes hf
    refine ⟨(passes.run f).1, (passes.run f).2, run?_eq passes hf, hle, hweight, fun hlt =>
      ⟨fun p hp => ?_, ?_⟩⟩
    · rw [p.run?_eq hg, run_eq_of_round hg (hlast hlt) p hp]
    · rw [run?_eq passes hg, run_of_round (hlast hlt)]

theorem run_fixpoint_grow : grow.WellFormed ∧ grow.weight = 9 ∧
    (∀ p : Pass, ∃ g changed, p.run? grow = some (g, changed) ∧ (changed = false → g = grow) ∧
      (changed = true → g.weight < grow.weight)) ∧
    ∀ passes : Pipeline, ∃ g n, passes.run? grow = some (g, n) ∧ n ≤ maxRounds ∧
      g.weight + n ≤ grow.weight ∧
      (n < maxRounds → (∀ p ∈ passes, p.run? g = some (g, false)) ∧
        passes.run? g = some (g, 0)) :=
  ⟨wellFormed_grow, by decide, run_fixpoint grow wellFormed_grow⟩

end Pipeline

end ScalarLang.IR
