import Mathlib.Data.List.Infix
import Mathlib.Logic.Relation

/-! Processes that compute a number and call functions on the way. An oracle answers the calls, and
what can be observed under it is the process's behaviour: the calls it makes, the value it ends
with, and whether it ends at all. A process that can follow every step of another one, without
standing still forever, has the same behaviour. -/

namespace ScalarLang

/-- A call of a function by its name. -/
structure Call where
  callee : String
  args : List Float

/-- Calls with their answers, in order. -/
abbrev Trace := List (Call × Float)

/-- What answers calls; it may take all earlier calls into account. -/
abbrev Oracle := Trace → Call → Float

/-- What a process does next. -/
inductive Action (σ : Type) where
  | next (s : σ)
  | ask (c : Call) (resume : Float → σ)
  | done (v : Float)
  | stuck

/-- All states that the action can lead to have a property. -/
def Action.Keeps {σ : Type} (P : σ → Prop) : Action σ → Prop
  | next s => P s
  | ask _ resume => ∀ v, P (resume v)
  | done _ | stuck => True

/-- Actions of the same kind, with the same call or value, that lead to related states. -/
inductive Action.Matches {σ τ : Type} (R : σ → τ → Prop) : Action σ → Action τ → Prop where
  | next {s : σ} {s' : τ} (h : R s s') : Matches R (.next s) (.next s')
  | ask {c : Call} {resume : Float → σ} {resume' : Float → τ} (h : ∀ v, R (resume v) (resume' v)) :
      Matches R (.ask c resume) (.ask c resume')
  | done (v : Float) : Matches R (.done v) (.done v)
  | stuck : Matches R .stuck .stuck

structure Process where
  State : Type
  step : State → Action State
  start : State

/-- What can be observed of a run. -/
@[ext] structure Behaviour where
  /-- The run ends with this value after these calls. -/
  returns : Trace → Float → Prop
  diverges : Prop
  /-- The run stops without a value after these calls. -/
  fails : Trace → Prop
  /-- These are the first calls of the run, perhaps not all. -/
  calls : Trace → Prop

namespace Process

variable {p q : Process} {o : Oracle}

/-! ### Runs -/

/-- One step, with the calls before it. -/
def advance (p : Process) (o : Oracle) (c : p.State × Trace) : Option (p.State × Trace) :=
  match p.step c.1 with
  | .next s => some (s, c.2)
  | .ask call resume => some (resume (o c.2 call), c.2 ++ [(call, o c.2 call)])
  | .done _ | .stuck => none

def run (p : Process) (o : Oracle) : Nat → p.State × Trace → Option (p.State × Trace)
  | 0, c => some c
  | n + 1, c => (p.advance o c).bind (p.run o n)

theorem run_add (n m : Nat) (c : p.State × Trace) :
    p.run o (n + m) c = (p.run o n c).bind (p.run o m) := by
  induction n generalizing c with
  | zero => simp [run]
  | succ n ih =>
    rw [Nat.succ_add, run, run, Option.bind_assoc]
    exact congrArg _ (funext ih)

theorem run_one (c : p.State × Trace) : p.run o 1 c = p.advance o c := by
  simp [run]

theorem run_trans {n m : Nat} {c d e : p.State × Trace} (h : p.run o n c = some d)
    (h' : p.run o m d = some e) : p.run o (n + m) c = some e := by
  rw [run_add, h, Option.bind_some, h']

theorem run_split {n m : Nat} {c d : p.State × Trace} (h : p.run o (n + m) c = some d) :
    ∃ e, p.run o n c = some e ∧ p.run o m e = some d := by
  rwa [run_add, Option.bind_eq_some_iff] at h

theorem advance_eq_none {s : p.State} {t : Trace} :
    p.advance o (s, t) = none ↔ (∃ v, p.step s = .done v) ∨ p.step s = .stuck := by
  cases h : p.step s <;> simp [advance, h]

/-- Calls that were made stay made. -/
theorem trace_of_advance {s s' : p.State} {t t' : Trace} (h : p.advance o (s, t) = some (s', t')) :
    t' = t ∨ ∃ x, t' = t ++ [x] := by
  cases hs : p.step s <;>
    simp only [advance, hs, Option.some.injEq, Prod.mk.injEq, reduceCtorEq] at h
  · exact .inl h.2.symm
  · exact .inr ⟨_, h.2.symm⟩

theorem prefix_of_run {n : Nat} {s s' : p.State} {t t' : Trace}
    (h : p.run o n (s, t) = some (s', t')) : t <+: t' := by
  induction n generalizing s t with
  | zero => cases h; exact List.prefix_rfl
  | succ n ih =>
    obtain ⟨⟨s₁, t₁⟩, h₁, h⟩ := Option.bind_eq_some_iff.1 h
    refine List.IsPrefix.trans ?_ (ih h)
    rcases trace_of_advance h₁ with rfl | ⟨x, rfl⟩
    · exact List.prefix_rfl
    · exact List.prefix_append _ _

/-- A run goes through all calls between its first and its last. -/
theorem run_of_prefix {n : Nat} {s s' : p.State} {t t' u : Trace}
    (h : p.run o n (s, t) = some (s', t')) (hu : t <+: u) (hu' : u <+: t') :
    ∃ m s₁, p.run o m (s, t) = some (s₁, u) := by
  induction n generalizing s t with
  | zero =>
    cases h
    exact ⟨0, s', by rw [hu.eq_of_length_le hu'.length_le]; rfl⟩
  | succ n ih =>
    by_cases hut : u = t
    · exact ⟨0, s, by rw [hut]; rfl⟩
    obtain ⟨⟨s₁, t₁⟩, h₁, h⟩ := Option.bind_eq_some_iff.1 h
    have hu₁ : t₁ <+: u := by
      rcases trace_of_advance h₁ with rfl | ⟨x, rfl⟩
      · exact hu
      · -- both `u` and the calls after the step go on from `t`
        refine List.prefix_of_prefix_length_le (prefix_of_run h) hu' ?_
        have := hu.length_le
        have : u.length ≠ t.length := fun he => hut (hu.eq_of_length he.symm).symm
        simp only [List.length_append, List.length_singleton]
        omega
    obtain ⟨m, s₂, h₂⟩ := ih h hu₁
    exact ⟨m + 1, s₂, by rw [run, h₁, Option.bind_some, h₂]⟩

/-- Before the last call of a run the process asked for it. -/
theorem exists_ask {n : Nat} {s s' : p.State} {t u : Trace} {c : Call} {v : Float}
    (h : p.run o n (s, u) = some (s', t ++ [(c, v)])) (hu : u <+: t) :
    ∃ k s₁ resume, p.run o k (s, u) = some (s₁, t) ∧ p.step s₁ = .ask c resume := by
  induction n generalizing s' with
  | zero =>
    cases h
    exact absurd hu.length_le (by simp)
  | succ n ih =>
    obtain ⟨⟨s₁, t₁⟩, h₁, hlast⟩ := run_split h
    rw [run_one] at hlast
    cases hs : p.step s₁ with
    | next s₂ =>
      simp only [advance, hs, Option.some.injEq, Prod.mk.injEq] at hlast
      rw [hlast.2] at h₁
      exact ih h₁
    | ask c' resume =>
      simp only [advance, hs, Option.some.injEq, Prod.mk.injEq] at hlast
      obtain ⟨rfl, hc⟩ := List.append_inj' hlast.2 rfl
      cases hc
      exact ⟨n, s₁, resume, h₁, hs⟩
    | done v => simp [advance, hs] at hlast
    | stuck => simp [advance, hs] at hlast

/-- Two runs that cannot go on end alike. -/
theorem run_final {n m : Nat} {c d e : p.State × Trace} (hd : p.run o n c = some d)
    (hd' : p.advance o d = none) (he : p.run o m c = some e) (he' : p.advance o e = none) :
    d = e := by
  have stops {n k : Nat} {d e : p.State × Trace} (hd : p.run o n c = some d)
      (hd' : p.advance o d = none) (he : p.run o (n + k) c = some e) : e = d := by
    obtain ⟨x, hx, he⟩ := run_split he
    cases hd.symm.trans hx
    cases k with
    | zero => cases he; rfl
    | succ k => simp [run, hd'] at he
  rcases Nat.le_total n m with h | h
  · obtain ⟨k, rfl⟩ := Nat.exists_eq_add_of_le h
    exact (stops hd hd' he).symm
  · obtain ⟨k, rfl⟩ := Nat.exists_eq_add_of_le h
    exact stops he he' hd

/-- A run that cannot go on has no run that is longer. -/
theorem run_le_final {n m : Nat} {c d e : p.State × Trace} (hd : p.run o n c = some d)
    (hd' : p.advance o d = none) (he : p.run o m c = some e) : m ≤ n := by
  by_contra h
  obtain ⟨k, rfl⟩ := Nat.exists_eq_add_of_lt (Nat.not_le.1 h)
  obtain ⟨x, hx, he⟩ := run_split (n := n) (m := k + 1) he
  cases hd.symm.trans hx
  simp [run, hd'] at he

/-- A shorter part of a run makes a first part of its calls. -/
theorem prefix_of_run_le {n m : Nat} {c : p.State × Trace} {s s' : p.State} {t t' : Trace}
    (hn : p.run o n c = some (s, t)) (hm : p.run o m c = some (s', t')) (h : n ≤ m) :
    t <+: t' := by
  obtain ⟨k, rfl⟩ := Nat.exists_eq_add_of_le h
  obtain ⟨x, hx, hm⟩ := run_split hm
  cases hn.symm.trans hx
  exact prefix_of_run hm

/-! ### Behaviour -/

/-- What can be observed if the calls are answered by an oracle. -/
def behaviour (p : Process) (o : Oracle) : Behaviour where
  returns t v := ∃ n s, p.run o n (p.start, []) = some (s, t) ∧ p.step s = .done v
  diverges := ∀ n, (p.run o n (p.start, [])).isSome
  fails t := ∃ n s, p.run o n (p.start, []) = some (s, t) ∧ p.step s = .stuck
  calls t := ∃ n s, p.run o n (p.start, []) = some (s, t)

/-- A run that does not go on forever comes to a state that has no next one. -/
theorem ends_or_diverges (o : Oracle) (c : p.State × Trace) :
    (∀ n, (p.run o n c).isSome) ∨ ∃ n d, p.run o n c = some d ∧ p.advance o d = none := by
  by_cases h : ∀ n, (p.run o n c).isSome
  · exact .inl h
  · right
    push Not at h
    obtain ⟨n, hn⟩ := h
    induction n generalizing c with
    | zero => simp [run] at hn
    | succ n ih =>
      cases ha : p.advance o c with
      | none => exact ⟨0, c, rfl, ha⟩
      | some d =>
        obtain ⟨m, e, hm, he⟩ := ih d (by simpa [run, ha] using hn)
        exact ⟨m + 1, e, by rw [run, ha, Option.bind_some, hm], he⟩

theorem returns_fails_or_diverges (p : Process) (o : Oracle) :
    (∃ t v, (p.behaviour o).returns t v) ∨ (∃ t, (p.behaviour o).fails t) ∨
      (p.behaviour o).diverges := by
  rcases ends_or_diverges o (p.start, []) with h | ⟨n, ⟨s, t⟩, hn, hs⟩
  · exact .inr (.inr h)
  · rcases advance_eq_none.1 hs with ⟨v, hv⟩ | hs
    · exact .inl ⟨t, v, n, s, hn, hv⟩
    · exact .inr (.inl ⟨t, n, s, hn, hs⟩)

theorem not_diverges_of_final {n : Nat} {d : p.State × Trace}
    (hd : p.run o n (p.start, []) = some d) (hd' : p.advance o d = none) :
    ¬(p.behaviour o).diverges := by
  intro h
  obtain ⟨e, he⟩ := Option.isSome_iff_exists.1 (h (n + 1))
  exact absurd (run_le_final hd hd' he) (by omega)

/-! ### Steps without calls -/

/-- One step that makes no call. -/
def Moves (p : Process) (s s' : p.State) : Prop := p.step s = .next s'

/-- Some steps that make no call, perhaps none. -/
abbrev Silent (p : Process) : p.State → p.State → Prop := Relation.ReflTransGen p.Moves

/-- Steps that make no call, at least one. -/
abbrev SilentPlus (p : Process) : p.State → p.State → Prop := Relation.TransGen p.Moves

theorem Moves.advance {s s' : p.State} (h : p.Moves s s') (o : Oracle) (t : Trace) :
    p.advance o (s, t) = some (s', t) := by
  unfold Moves at h
  simp [Process.advance, h]

theorem advance_ask {s : p.State} {c : Call} {resume : Float → p.State}
    (h : p.step s = .ask c resume) (o : Oracle) (t : Trace) :
    p.advance o (s, t) = some (resume (o t c), t ++ [(c, o t c)]) := by
  simp [advance, h]

theorem SilentPlus.run {s s' : p.State} (h : p.SilentPlus s s') (o : Oracle) (t : Trace) :
    ∃ n, 0 < n ∧ p.run o n (s, t) = some (s', t) := by
  induction h with
  | single h => exact ⟨1, Nat.one_pos, by rw [run_one, h.advance]⟩
  | tail _ h ih =>
    obtain ⟨n, hn, hr⟩ := ih
    exact ⟨n + 1, Nat.succ_pos n, run_trans hr (by rw [run_one, h.advance])⟩

theorem Silent.run {s s' : p.State} (h : p.Silent s s') (o : Oracle) (t : Trace) :
    ∃ n, p.run o n (s, t) = some (s', t) := by
  rcases Relation.reflTransGen_iff_eq_or_transGen.1 h with rfl | h
  · exact ⟨0, rfl⟩
  · obtain ⟨n, -, hr⟩ := SilentPlus.run h o t
    exact ⟨n, hr⟩

/-! ### States of a run -/

/-- The states that some answers lead to. -/
inductive Reachable (p : Process) : p.State → Prop where
  | start : Reachable p p.start
  | next {s s' : p.State} (h : Reachable p s) (hs : p.step s = .next s') : Reachable p s'
  | resume {s : p.State} {c : Call} {resume : Float → p.State} (h : Reachable p s)
      (hs : p.step s = .ask c resume) (v : Float) : Reachable p (resume v)

theorem Reachable.keeps {s : p.State} (h : p.Reachable s) : (p.step s).Keeps p.Reachable := by
  cases hs : p.step s with
  | next s' => exact h.next hs
  | ask c resume => exact h.resume hs
  | done v => trivial
  | stuck => trivial

/-- What holds at the start and is kept by each step holds in every state of a run. -/
theorem Reachable.invariant {P : p.State → Prop} (start : P p.start)
    (step : ∀ s, p.Reachable s → P s → (p.step s).Keeps P) {s : p.State} (h : p.Reachable s) :
    P s := by
  induction h with
  | start => exact start
  | @next s s' h hs ih => simpa [hs, Action.Keeps] using step s h ih
  | @resume s c resume h hs v ih =>
    have := step s h ih
    rw [hs] at this
    exact this v

/-! ### Comparison -/

theorem final_of_returns {t : Trace} {v : Float} (h : (p.behaviour o).returns t v) :
    ∃ n s, p.run o n (p.start, []) = some (s, t) ∧ p.step s = .done v ∧
      p.advance o (s, t) = none := by
  obtain ⟨n, s, hn, hs⟩ := h
  exact ⟨n, s, hn, hs, advance_eq_none.2 (.inl ⟨v, hs⟩)⟩

theorem final_of_fails {t : Trace} (h : (p.behaviour o).fails t) :
    ∃ n s, p.run o n (p.start, []) = some (s, t) ∧ p.step s = .stuck ∧
      p.advance o (s, t) = none := by
  obtain ⟨n, s, hn, hs⟩ := h
  exact ⟨n, s, hn, hs, advance_eq_none.2 (.inr hs)⟩

/-- What a behaviour `b` must have so that it is the behaviour of a process: it is complete, and the
process shows all of it. A process is deterministic, so it shows nothing else. -/
structure Shows (p : Process) (o : Oracle) (b : Behaviour) : Prop where
  total : (∃ t v, b.returns t v) ∨ (∃ t, b.fails t) ∨ b.diverges
  calls_of_returns {t u : Trace} {v : Float} : b.returns t v → u <+: t → b.calls u
  calls_of_fails {t u : Trace} : b.fails t → u <+: t → b.calls u
  calls_of_prefix {t u : Trace} : b.calls t → u <+: t → b.calls u
  returns {t : Trace} {v : Float} : b.returns t v → (p.behaviour o).returns t v
  fails {t : Trace} : b.fails t → (p.behaviour o).fails t
  calls {t : Trace} : b.calls t → (p.behaviour o).calls t
  /-- There is no end of the steps whose calls are calls of `b`. -/
  diverges (k : Nat) : b.diverges →
    ∃ m s t, k ≤ m ∧ p.run o m (p.start, []) = some (s, t) ∧ b.calls t

theorem Shows.run_isSome {b : Behaviour} (h : p.Shows o b) (hb : b.diverges) :
    (p.behaviour o).diverges := by
  intro k
  obtain ⟨m, s, t, hk, hm, -⟩ := h.diverges k hb
  obtain ⟨j, rfl⟩ := Nat.exists_eq_add_of_le hk
  obtain ⟨e, he, -⟩ := run_split hm
  exact Option.isSome_iff_exists.2 ⟨e, he⟩

theorem Shows.returns_iff {b : Behaviour} (h : p.Shows o b) (t : Trace) (v : Float) :
    b.returns t v ↔ (p.behaviour o).returns t v := by
  refine ⟨h.returns, fun hp => ?_⟩
  obtain ⟨n, s, hn, hs, hf⟩ := final_of_returns hp
  rcases h.total with ⟨t', v', hb⟩ | ⟨t', hb⟩ | hb
  · obtain ⟨m, s', hm, hs', hf'⟩ := final_of_returns (h.returns hb)
    cases run_final hn hf hm hf'
    cases hs.symm.trans hs'
    exact hb
  · obtain ⟨m, s', hm, hs', hf'⟩ := final_of_fails (h.fails hb)
    cases run_final hn hf hm hf'
    cases hs.symm.trans hs'
  · exact absurd (h.run_isSome hb) (not_diverges_of_final hn hf)

theorem Shows.fails_iff {b : Behaviour} (h : p.Shows o b) (t : Trace) :
    b.fails t ↔ (p.behaviour o).fails t := by
  refine ⟨h.fails, fun hp => ?_⟩
  obtain ⟨n, s, hn, hs, hf⟩ := final_of_fails hp
  rcases h.total with ⟨t', v', hb⟩ | ⟨t', hb⟩ | hb
  · obtain ⟨m, s', hm, hs', hf'⟩ := final_of_returns (h.returns hb)
    cases run_final hn hf hm hf'
    cases hs.symm.trans hs'
  · obtain ⟨m, s', hm, hs', hf'⟩ := final_of_fails (h.fails hb)
    cases run_final hn hf hm hf'
    exact hb
  · exact absurd (h.run_isSome hb) (not_diverges_of_final hn hf)

theorem Shows.diverges_iff {b : Behaviour} (h : p.Shows o b) :
    b.diverges ↔ (p.behaviour o).diverges := by
  refine ⟨h.run_isSome, fun hp => ?_⟩
  rcases h.total with ⟨t, v, hb⟩ | ⟨t, hb⟩ | hb
  · obtain ⟨n, s, hn, -, hf⟩ := final_of_returns (h.returns hb)
    exact absurd hp (not_diverges_of_final hn hf)
  · obtain ⟨n, s, hn, -, hf⟩ := final_of_fails (h.fails hb)
    exact absurd hp (not_diverges_of_final hn hf)
  · exact hb

theorem Shows.calls_iff {b : Behaviour} (h : p.Shows o b) (t : Trace) :
    b.calls t ↔ (p.behaviour o).calls t := by
  refine ⟨h.calls, fun ⟨n, s, hn⟩ => ?_⟩
  rcases h.total with ⟨t', v, hb⟩ | ⟨t', hb⟩ | hb
  · obtain ⟨m, s', hm, -, hf⟩ := final_of_returns (h.returns hb)
    exact h.calls_of_returns hb (prefix_of_run_le hn hm (run_le_final hm hf hn))
  · obtain ⟨m, s', hm, -, hf⟩ := final_of_fails (h.fails hb)
    exact h.calls_of_fails hb (prefix_of_run_le hn hm (run_le_final hm hf hn))
  · obtain ⟨m, s', t', hle, hm, ht⟩ := h.diverges n hb
    exact h.calls_of_prefix ht (prefix_of_run_le hn hm hle)

theorem Shows.eq {b : Behaviour} (h : p.Shows o b) : b = p.behaviour o := by
  ext1
  · funext t v
    exact propext (h.returns_iff t v)
  · exact propext h.diverges_iff
  · funext t
    exact propext (h.fails_iff t)
  · funext t
    exact propext (h.calls_iff t)

theorem calls_of_prefix {t u : Trace} (h : (p.behaviour o).calls t) (hu : u <+: t) :
    (p.behaviour o).calls u := by
  obtain ⟨n, s, hn⟩ := h
  exact run_of_prefix hn List.nil_prefix hu

end Process

/-! ### Simulation -/

/-- How `q` follows `p`: each step of `p` is matched by steps of `q`, or it leads to a state of
lower rank while `q` waits. -/
structure Simulation (p q : Process) where
  rel : p.State → q.State → Prop
  rank : p.State → Nat
  start : ∃ s', q.Silent q.start s' ∧ rel p.start s'
  next {s s₁ : p.State} {s' : q.State} : rel s s' → p.step s = .next s₁ →
    (∃ s₁', q.SilentPlus s' s₁' ∧ rel s₁ s₁') ∨ rel s₁ s' ∧ rank s₁ < rank s
  ask {s : p.State} {s' : q.State} {c : Call} {resume : Float → p.State} : rel s s' →
    p.step s = .ask c resume →
    ∃ s₁' resume', q.Silent s' s₁' ∧ q.step s₁' = .ask c resume' ∧ ∀ v, rel (resume v) (resume' v)
  done {s : p.State} {s' : q.State} {v : Float} : rel s s' → p.step s = .done v →
    ∃ s₁', q.Silent s' s₁' ∧ q.step s₁' = .done v
  stuck {s : p.State} {s' : q.State} : rel s s' → p.step s = .stuck →
    ∃ s₁', q.Silent s' s₁' ∧ q.step s₁' = .stuck

namespace Simulation

open Process

variable {p q : Process} {o : Oracle}

/-- What `q` does while `p` makes one step. -/
theorem advance (r : Simulation p q) {s s₁ : p.State} {s' : q.State} {t t₁ : Trace}
    (h : r.rel s s') (ha : p.advance o (s, t) = some (s₁, t₁)) :
    ∃ n s₁', q.run o n (s', t) = some (s₁', t₁) ∧ r.rel s₁ s₁' ∧
      (0 < n ∨ s₁' = s' ∧ r.rank s₁ < r.rank s) := by
  cases hs : p.step s with
  | next s₂ =>
    rw [Moves.advance hs] at ha
    cases ha
    rcases r.next h hs with ⟨s₁', hq, hr⟩ | ⟨hr, hlt⟩
    · obtain ⟨n, hn, hrun⟩ := SilentPlus.run hq o t
      exact ⟨n, s₁', hrun, hr, .inl hn⟩
    · exact ⟨0, s', rfl, hr, .inr ⟨rfl, hlt⟩⟩
  | ask c resume =>
    rw [advance_ask hs] at ha
    cases ha
    obtain ⟨s₁', resume', hq, hs', hr⟩ := r.ask h hs
    obtain ⟨n, hrun⟩ := Silent.run hq o t
    refine ⟨n + 1, resume' (o t c), run_trans hrun ?_, hr _, .inl (Nat.succ_pos n)⟩
    rw [run_one, advance_ask hs']
  | done v => simp [Process.advance, hs] at ha
  | stuck => simp [Process.advance, hs] at ha

theorem run (r : Simulation p q) {n : Nat} {s s₁ : p.State} {s' : q.State} {t t₁ : Trace}
    (h : r.rel s s') (hn : p.run o n (s, t) = some (s₁, t₁)) :
    ∃ m s₁', q.run o m (s', t) = some (s₁', t₁) ∧ r.rel s₁ s₁' := by
  induction n generalizing s s' t with
  | zero =>
    cases hn
    exact ⟨0, s', rfl, h⟩
  | succ n ih =>
    obtain ⟨⟨s₂, t₂⟩, ha, hn⟩ := Option.bind_eq_some_iff.1 hn
    obtain ⟨m, s₂', hm, hr, -⟩ := r.advance h ha
    obtain ⟨k, s₁', hk, hr⟩ := ih hr hn
    exact ⟨m + k, s₁', run_trans hm hk, hr⟩

/-- While `p` goes on forever, so does `q`. -/
theorem run_of_diverges (r : Simulation p q) (k : Nat) {s : p.State} {s' : q.State} {t : Trace}
    (h : r.rel s s') (hd : ∀ n, (p.run o n (s, t)).isSome) :
    ∃ n m s₁ s₁' t₁, k ≤ m ∧ p.run o n (s, t) = some (s₁, t₁) ∧
      q.run o m (s', t) = some (s₁', t₁) ∧ r.rel s₁ s₁' := by
  induction k generalizing s s' t with
  | zero => exact ⟨0, 0, s, s', t, Nat.le_refl 0, rfl, rfl, h⟩
  | succ k ih =>
    -- as long as `q` waits, the rank falls
    induction hr : r.rank s using Nat.strongRecOn generalizing s t with
    | ind _ ihRank =>
      obtain ⟨⟨s₂, t₂⟩, ha⟩ := Option.isSome_iff_exists.1 (hd 1)
      rw [run_one] at ha
      have hd₂ : ∀ n, (p.run o n (s₂, t₂)).isSome := fun n => by
        simpa [Process.run, ha] using hd (n + 1)
      obtain ⟨m, s₂', hm, h₂, hpos | ⟨rfl, hlt⟩⟩ := r.advance h ha
      · obtain ⟨n, m', s₁, s₁', t₁, hk, hn, hm', h₁⟩ := ih h₂ hd₂
        refine ⟨n + 1, m + m', s₁, s₁', t₁, by omega, ?_, run_trans hm hm', h₁⟩
        rw [Process.run, ha, Option.bind_some, hn]
      · obtain ⟨n, m', s₁, s₁', t₁, hk, hn, hm', h₁⟩ := ihRank _ (hr ▸ hlt) h₂ hd₂ rfl
        refine ⟨n + 1, m + m', s₁, s₁', t₁, by omega, ?_, run_trans hm hm', h₁⟩
        rw [Process.run, ha, Option.bind_some, hn]

variable (r : Simulation p q)

include r

theorem returns {t : Trace} {v : Float} (h : (p.behaviour o).returns t v) :
    (q.behaviour o).returns t v := by
  obtain ⟨n, s, hn, hs⟩ := h
  obtain ⟨s₀', hq, h₀⟩ := r.start
  obtain ⟨k, hk⟩ := Silent.run hq o []
  obtain ⟨m, s', hm, hr⟩ := r.run h₀ hn
  obtain ⟨s₁', hq', hs'⟩ := r.done hr hs
  obtain ⟨l, hl⟩ := Silent.run hq' o t
  exact ⟨k + m + l, s₁', run_trans (run_trans hk hm) hl, hs'⟩

theorem fails {t : Trace} (h : (p.behaviour o).fails t) : (q.behaviour o).fails t := by
  obtain ⟨n, s, hn, hs⟩ := h
  obtain ⟨s₀', hq, h₀⟩ := r.start
  obtain ⟨k, hk⟩ := Silent.run hq o []
  obtain ⟨m, s', hm, hr⟩ := r.run h₀ hn
  obtain ⟨s₁', hq', hs'⟩ := r.stuck hr hs
  obtain ⟨l, hl⟩ := Silent.run hq' o t
  exact ⟨k + m + l, s₁', run_trans (run_trans hk hm) hl, hs'⟩

theorem calls {t : Trace} (h : (p.behaviour o).calls t) : (q.behaviour o).calls t := by
  obtain ⟨n, s, hn⟩ := h
  obtain ⟨s₀', hq, h₀⟩ := r.start
  obtain ⟨k, hk⟩ := Silent.run hq o []
  obtain ⟨m, s', hm, -⟩ := r.run h₀ hn
  exact ⟨k + m, s', run_trans hk hm⟩

/-- For every number of steps of `q` there is a longer run of it that makes the same calls as one
of `p`. -/
theorem exists_run_le (h : (p.behaviour o).diverges) (k : Nat) :
    ∃ m s' t, k ≤ m ∧ q.run o m (q.start, []) = some (s', t) ∧ (p.behaviour o).calls t := by
  obtain ⟨s₀', hq, h₀⟩ := r.start
  obtain ⟨l, hl⟩ := Silent.run hq o []
  obtain ⟨n, m, s₁, s₁', t₁, hk, hn, hm, -⟩ := r.run_of_diverges k h₀ h
  exact ⟨l + m, s₁', t₁, by omega, run_trans hl hm, n, s₁, hn⟩

/-- A process and one that can follow it cannot be told apart. -/
theorem behaviour_eq (o : Oracle) : p.behaviour o = q.behaviour o :=
  Shows.eq {
    total := p.returns_fails_or_diverges o
    calls_of_returns := fun ⟨n, s, hn, _⟩ hu => calls_of_prefix ⟨n, s, hn⟩ hu
    calls_of_fails := fun ⟨n, s, hn, _⟩ hu => calls_of_prefix ⟨n, s, hn⟩ hu
    calls_of_prefix := calls_of_prefix
    returns := r.returns
    fails := r.fails
    calls := r.calls
    diverges := fun k h => r.exists_run_le h k }

/-- Processes that go in step, but that the second one may wait while the rank falls. -/
def lockstep {p q : Process} (rel : p.State → q.State → Prop) (rank : p.State → Nat)
    (start : rel p.start q.start)
    (step : ∀ {s s'}, rel s s' → (p.step s).Matches rel (q.step s') ∨
      ∃ s₁, p.step s = .next s₁ ∧ rel s₁ s' ∧ rank s₁ < rank s) : Simulation p q where
  rel := rel
  rank := rank
  start := ⟨q.start, .refl, start⟩
  next {s s₁ s'} h hs := by
    rcases step h with hm | ⟨s₂, hs₂, hr⟩
    · rw [hs] at hm
      generalize hq : q.step s' = a at hm
      cases hm with | next hr => exact .inl ⟨_, .single hq, hr⟩
    · cases hs.symm.trans hs₂
      exact .inr hr
  ask {s s' c resume} h hs := by
    rcases step h with hm | ⟨s₂, hs₂, hr⟩
    · rw [hs] at hm
      generalize hq : q.step s' = a at hm
      cases hm with | ask hr => exact ⟨s', _, .refl, hq, hr⟩
    · cases hs.symm.trans hs₂
  done {s s' v} h hs := by
    rcases step h with hm | ⟨s₂, hs₂, hr⟩
    · rw [hs] at hm
      generalize hq : q.step s' = a at hm
      cases hm with | done => exact ⟨s', .refl, hq⟩
    · cases hs.symm.trans hs₂
  stuck {s s'} h hs := by
    rcases step h with hm | ⟨s₂, hs₂, hr⟩
    · rw [hs] at hm
      generalize hq : q.step s' = a at hm
      cases hm with | stuck => exact ⟨s', .refl, hq⟩
    · cases hs.symm.trans hs₂

end Simulation

/-- Processes that make the same steps in all states with an invariant. -/
theorem Process.behaviour_congr {σ : Type} {step step' : σ → Action σ} {start : σ} (P : σ → Prop)
    (hstart : P start) (keeps : ∀ s, P s → (step s).Keeps P)
    (same : ∀ s, P s → step' s = step s) (o : Oracle) :
    (⟨σ, step, start⟩ : Process).behaviour o = (⟨σ, step', start⟩ : Process).behaviour o := by
  let rel (s s' : σ) : Prop := s = s' ∧ P s
  refine Simulation.behaviour_eq (Simulation.lockstep (p := ⟨σ, step, start⟩)
    (q := ⟨σ, step', start⟩) rel (fun _ => 0) ⟨rfl, hstart⟩ ?_) o
  rintro s _ ⟨rfl, h⟩
  have hk := keeps s h
  left
  change (step s).Matches rel (step' s)
  rw [same s h]
  cases hs : step s <;> rw [hs] at hk
  · exact .next ⟨rfl, hk⟩
  · exact .ask fun v => ⟨rfl, hk v⟩
  · exact .done _
  · exact .stuck

end ScalarLang
