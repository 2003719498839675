import ScalarLang.Proofs.Process

/-! What a run shows of itself. A deterministic run calls functions of the host on its way, one after
the other, and may come to an end. Where the run of a process is part of a larger run, its calls are
runs of their own; what it shows is put together from what they show. -/

namespace ScalarLang

/-- What can be seen of a run. -/
@[ext] structure Conduct (ω : Type) where
  /-- The run ends like this after these calls of host functions. -/
  ends : List Call → ω → Prop
  /-- These are the first calls of host functions, perhaps not all. -/
  shows : List Call → Prop

namespace Conduct

variable {σ ω : Type}

/-- A run that ends at once. -/
def ended (r : ω) : Conduct ω := ⟨fun l r' => l = [] ∧ r' = r, fun l => l = []⟩

/-- The same run, with something else made of its end. -/
def map {ω' : Type} (g : ω → ω') (c : Conduct ω) : Conduct ω' :=
  ⟨fun l r => ∃ r', c.ends l r' ∧ g r' = r, c.shows⟩

/-- A run that makes one call and ends. -/
def single (c : Call) (r : ω) : Conduct ω := ⟨fun l r' => l = [c] ∧ r' = r, fun l => l <+: [c]⟩

section

variable (step : σ → List Call × (σ ⊕ ω))

/-! ### Runs -/

/-- The calls of the first steps, and the end if they come to it. -/
def run : Nat → σ → List Call × Option ω
  | 0, _ => ([], none)
  | n + 1, s =>
    match step s with
    | (l, .inl s') => (l ++ (run n s').1, (run n s').2)
    | (l, .inr r) => (l, some r)

/-- What the run from a state shows. -/
def of (s : σ) : Conduct ω where
  ends l r := ∃ n, run step n s = (l, some r)
  shows l := ∃ n, l <+: (run step n s).1

/-- After `n` steps and these calls the run is in state `s'`. -/
inductive Goes : Nat → σ → List Call → σ → Prop where
  | zero (s : σ) : Goes 0 s [] s
  | succ {n : Nat} {s s₁ s' : σ} {l l' : List Call} (h : step s = (l, .inl s₁))
      (hrest : Goes n s₁ l' s') : Goes (n + 1) s (l ++ l') s'

end

variable {step : σ → List Call × (σ ⊕ ω)} {n k : Nat} {s s' s₁ : σ} {l l' : List Call} {r r' : ω}

theorem Goes.single (h : step s = (l, .inl s₁)) : Goes step 1 s l s₁ := by
  have := Goes.succ h (.zero s₁)
  rwa [List.append_nil] at this

theorem Goes.trans (h : Goes step n s l s₁) (h' : Goes step k s₁ l' s') :
    Goes step (n + k) s (l ++ l') s' := by
  induction h with
  | zero s => rwa [Nat.zero_add]
  | @succ n s s₀ s₁ l₀ l hs _ ih =>
    rw [List.append_assoc, Nat.succ_add]
    exact .succ hs (ih h')

theorem Goes.run (h : Goes step n s l s') (k : Nat) :
    run step (n + k) s = (l ++ (run step k s').1, (run step k s').2) := by
  induction h with
  | zero s => simp
  | @succ n s s₁ s' l l' hs _ ih =>
    rw [Nat.succ_add, Conduct.run, hs]
    simp [ih]

/-- A run is on its way after `n` steps, or has come to its end. -/
theorem run_cases (step : σ → List Call × (σ ⊕ ω)) (n : Nat) (s : σ) :
    (∃ l s', Goes step n s l s' ∧ run step n s = (l, none)) ∨
      ∃ l r, ∀ k, run step (n + k) s = (l, some r) := by
  induction n generalizing s with
  | zero => exact .inl ⟨[], s, .zero s, rfl⟩
  | succ n ih =>
    rcases hs : step s with ⟨l, s₁ | r⟩
    · rcases ih s₁ with ⟨l', s', hgoes, hrun⟩ | ⟨l', r, hrun⟩
      · exact .inl ⟨l ++ l', s', .succ hs hgoes, by simp [run, hs, hrun]⟩
      · refine .inr ⟨l ++ l', r, fun k => ?_⟩
        rw [Nat.succ_add, run, hs]
        simp [hrun k]
    · refine .inr ⟨l, r, fun k => ?_⟩
      rw [Nat.succ_add, run, hs]

theorem run_mono (h : run step n s = (l, some r)) (k : Nat) :
    run step (n + k) s = (l, some r) := by
  rcases run_cases step n s with ⟨l', s', -, hrun⟩ | ⟨l', r', hrun⟩
  · cases h.symm.trans hrun
  · cases h.symm.trans (hrun 0)
    exact hrun k

/-- More steps make the same calls first. -/
theorem prefix_run (step : σ → List Call × (σ ⊕ ω)) (n k : Nat) (s : σ) :
    (run step n s).1 <+: (run step (n + k) s).1 := by
  rcases run_cases step n s with ⟨l, s', hgoes, hrun⟩ | ⟨l, r, hrun⟩
  · rw [hrun, hgoes.run]
    exact List.prefix_append _ _
  · rw [hrun k, show run step n s = _ from hrun 0]

/-! ### What a run shows -/

theorem ends_unique (h : (of step s).ends l r) (h' : (of step s).ends l' r') : l = l' ∧ r = r' := by
  obtain ⟨n, hn⟩ := h
  obtain ⟨k, hk⟩ := h'
  have hn := run_mono hn k
  rw [Nat.add_comm, run_mono hk n] at hn
  cases hn
  exact ⟨rfl, rfl⟩

/-- The last step of a run. -/
theorem exists_last (h : (of step s).ends l r) :
    ∃ k l₁ l₂ s', Goes step k s l₁ s' ∧ step s' = (l₂, .inr r) ∧ l = l₁ ++ l₂ := by
  obtain ⟨n, hn⟩ := h
  induction n generalizing s l with
  | zero => cases hn
  | succ n ih =>
    rcases hs : step s with ⟨l₀, s₁ | r₀⟩
    · simp only [run, hs, Prod.mk.injEq] at hn
      obtain ⟨rfl, hr⟩ := hn
      obtain ⟨k, l₁, l₂, s', hgoes, hlast, hl⟩ := ih (Prod.ext rfl hr)
      refine ⟨k + 1, l₀ ++ l₁, l₂, s', .succ hs hgoes, hlast, ?_⟩
      rw [List.append_assoc, ← hl]
    · simp only [run, hs, Prod.mk.injEq, Option.some.injEq] at hn
      obtain ⟨rfl, rfl⟩ := hn
      exact ⟨0, [], l₀, s, .zero s, hs, rfl⟩

theorem ends_of_step (h : step s = (l, .inr r)) : (of step s).ends l r :=
  ⟨1, by simp [run, h]⟩

theorem shows_iff_of_ends (h : (of step s).ends l r) :
    (of step s).shows l' ↔ l' <+: l := by
  obtain ⟨n, hn⟩ := h
  constructor
  · rintro ⟨k, hk⟩
    refine hk.trans ((prefix_run step k n s).trans ?_)
    rw [Nat.add_comm, run_mono hn k]
  · intro hl
    exact ⟨n, by rwa [hn]⟩

theorem Goes.ends (h : Goes step n s l s') (he : (of step s').ends l' r) :
    (of step s).ends (l ++ l') r := by
  obtain ⟨k, hk⟩ := he
  exact ⟨n + k, by rw [h.run, hk]⟩

theorem Goes.shows (h : Goes step n s l s') (he : (of step s').shows l') :
    (of step s).shows (l ++ l') := by
  obtain ⟨k, hk⟩ := he
  refine ⟨n + k, ?_⟩
  rw [h.run]
  exact List.prefix_append_right_inj l |>.2 hk

theorem Goes.shows_within (h : Goes step n s l s') (hl : l' <+: l) : (of step s).shows l' := by
  refine ⟨n + 0, hl.trans ?_⟩
  rw [h.run]
  exact List.prefix_append _ _

/-- A run comes to its end, or goes on forever. -/
theorem ends_or_goes (step : σ → List Call × (σ ⊕ ω)) (s : σ) :
    (∃ l r, (of step s).ends l r) ∨ ∀ n, ∃ l s', Goes step n s l s' := by
  by_cases h : ∃ l r, (of step s).ends l r
  · exact .inl h
  · refine .inr fun n => ?_
    rcases run_cases step n s with ⟨l, s', hgoes, -⟩ | ⟨l, r, hrun⟩
    · exact ⟨l, s', hgoes⟩
    · exact absurd ⟨l, r, n, hrun 0⟩ h

/-- What `c` must have so that it is the conduct of a run: it is complete, and the run shows all of
it. A run is deterministic, so it shows nothing else. -/
structure Describes (step : σ → List Call × (σ ⊕ ω)) (s : σ) (c : Conduct ω) : Prop where
  ends {l : List Call} {r : ω} : c.ends l r → (of step s).ends l r
  shows {l : List Call} : c.shows l → (of step s).shows l
  total : (∃ l r, c.ends l r ∧ ∀ l', l' <+: l → c.shows l') ∨
    ∀ n, ∃ k l s', n ≤ k ∧ Goes step k s l s' ∧ ∀ l', l' <+: l → c.shows l'

theorem Describes.eq {c : Conduct ω} (h : Describes step s c) : c = of step s := by
  rcases h.total with ⟨l, r, hends, hshows⟩ | hgoes
  · have hl := h.ends hends
    ext l' r'
    · refine ⟨h.ends, fun h' => ?_⟩
      obtain ⟨rfl, rfl⟩ := ends_unique hl h'
      exact hends
    · exact ⟨h.shows, fun h' => hshows l' ((shows_iff_of_ends hl).1 h')⟩
  · ext l' r'
    · refine ⟨h.ends, fun ⟨n, hn⟩ => ?_⟩
      -- the run is still on its way after as many steps
      obtain ⟨k, l, s', hk, hrun, -⟩ := hgoes n
      obtain ⟨j, rfl⟩ := Nat.exists_eq_add_of_le hk
      have hend := run_mono hn j
      rw [show n + j = n + j + 0 from rfl, hrun.run 0] at hend
      cases hend
    · refine ⟨h.shows, fun ⟨n, hn⟩ => ?_⟩
      obtain ⟨k, l, s', hk, hrun, hshows⟩ := hgoes n
      obtain ⟨j, rfl⟩ := Nat.exists_eq_add_of_le hk
      refine hshows l' (hn.trans ((prefix_run step n j s).trans ?_))
      rw [show n + j = n + j + 0 from rfl, hrun.run 0]
      simp [run]

/-- Steps without calls change nothing of what is shown. -/
theorem Goes.of_eq (h : Goes step n s [] s') : of step s = of step s' := by
  have hdescribes : Describes step s (of step s') := by
    refine ⟨h.ends, h.shows, ?_⟩
    rcases ends_or_goes step s' with ⟨l, r, hr⟩ | hgoes
    · exact .inl ⟨l, r, hr, fun l' hl => (shows_iff_of_ends hr).2 hl⟩
    · refine .inr fun k => ?_
      obtain ⟨l, s₁, hs₁⟩ := hgoes k
      exact ⟨n + k, l, s₁, by omega, h.trans hs₁, fun l' hl => hs₁.shows_within hl⟩
  exact hdescribes.eq.symm

theorem shows_of_prefix (h : (of step s).shows l) (hl : l' <+: l) : (of step s).shows l' := by
  obtain ⟨n, hn⟩ := h
  exact ⟨n, hl.trans hn⟩

end Conduct

/-! ### Runs within runs -/

section

variable {ε : Type} (call : Call → Conduct (Except ε Float))

/-- The calls of a trace end with the answers that they have there, after these calls of host
functions. -/
inductive Answered : Trace → List Call → Prop where
  | nil : Answered [] []
  | snoc {t : Trace} {l l' : List Call} {c : Call} {v : Float} (h : Answered t l)
      (hc : (call c).ends l' (.ok v)) : Answered (t ++ [(c, v)]) (l ++ l')

/-- What a process shows whose calls are runs. -/
def Behaviour.conduct (b : Behaviour) : Conduct (Except ε Float) where
  ends l
    | .ok v => ∃ t, b.returns t v ∧ Answered call t l
    | .error e => ∃ t c v l₁ l₂, b.calls (t ++ [(c, v)]) ∧ Answered call t l₁ ∧
      (call c).ends l₂ (.error e) ∧ l = l₁ ++ l₂
  shows l := ∃ t l₁, b.calls t ∧ Answered call t l₁ ∧ (l <+: l₁ ∨
    ∃ c v l₂, b.calls (t ++ [(c, v)]) ∧ (call c).shows l₂ ∧ l <+: l₁ ++ l₂)

open Classical in
/-- Answers a call with the value that it ends with. -/
noncomputable def callOracle : Oracle := fun _ c =>
  if h : ∃ v l, (call c).ends l (.ok v) then h.choose else 0.0

variable {call}

theorem Answered.of_snoc {t : Trace} {c : Call} {v : Float} {l : List Call}
    (h : Answered call (t ++ [(c, v)]) l) :
    ∃ l₁ l₂, l = l₁ ++ l₂ ∧ Answered call t l₁ ∧ (call c).ends l₂ (.ok v) := by
  generalize hu : t ++ [(c, v)] = u at h
  cases h with
  | nil => simp at hu
  | @snoc t' l₁ l₂ c' v' h hc =>
    obtain ⟨rfl, hlast⟩ := List.append_inj' hu rfl
    cases hlast
    exact ⟨l₁, l₂, rfl, h, hc⟩

theorem callOracle_eq {c : Call} {l : List Call} {v : Float} (t : Trace)
    (hunique : ∀ {l l' r r'}, (call c).ends l r → (call c).ends l' r' → l = l' ∧ r = r')
    (h : (call c).ends l (.ok v)) : callOracle call t c = v := by
  have hex : ∃ v l, (call c).ends l (.ok v) := ⟨v, l, h⟩
  obtain ⟨l', hl'⟩ := hex.choose_spec
  rw [callOracle, dif_pos hex]
  exact Except.ok.inj (hunique hl' h).2

end

end ScalarLang
