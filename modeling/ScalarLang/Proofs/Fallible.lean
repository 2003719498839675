import Mathlib.Data.List.Forall2

/-! Computations that can fail. One that is made of steps succeeds if all its steps do, and fails as
the first of them that fails. -/

namespace ScalarLang

variable {ε α β : Type} {e : ε}

/-! ### Success -/

theorem bind_eq_ok {x : Except ε α} {g : α → Except ε β} {b : β} :
    x >>= g = .ok b ↔ ∃ a, x = .ok a ∧ g a = .ok b := by
  cases x <;> simp [bind, Except.bind]

theorem pure_eq_ok {a b : α} : (pure a : Except ε α) = .ok b ↔ a = b := by
  simp [pure, Except.pure]

/-- A check that is made before the others. -/
theorem guard_eq_ok {p : Prop} [Decidable p] {y : Except ε α} {a : α} :
    (if p then (Except.error e : Except ε PUnit) >>= fun _ => y else y) = .ok a ↔
      ¬p ∧ y = .ok a := by
  by_cases h : p <;> simp [h, bind, Except.bind]

/-- A step that has nothing to hand on. -/
theorem seq_eq_ok {x : Except ε Unit} {y : Except ε β} {b : β} :
    (x >>= fun _ => y) = .ok b ↔ x = .ok () ∧ y = .ok b := by
  rw [bind_eq_ok]
  constructor
  · rintro ⟨_, hx, hy⟩
    exact ⟨hx, hy⟩
  · rintro ⟨hx, hy⟩
    exact ⟨(), hx, hy⟩

theorem forM_eq_ok {g : α → Except ε Unit} {xs : List α} :
    xs.forM g = .ok () ↔ ∀ x ∈ xs, g x = .ok () := by
  induction xs with
  | nil => simp [List.forM, pure, Except.pure]
  | cons x xs ih => rw [List.forM, seq_eq_ok, List.forall_mem_cons, ih]

theorem mapM_eq_ok {g : α → Except ε β} {xs : List α} {ys : List β} :
    xs.mapM g = .ok ys ↔ List.Forall₂ (fun x y => g x = .ok y) xs ys := by
  induction xs generalizing ys with
  | nil => cases ys <;> simp [pure, Except.pure]
  | cons x xs ih =>
    simp only [List.mapM_cons, bind_eq_ok, pure_eq_ok, ih, List.forall₂_cons_left_iff]
    constructor
    · rintro ⟨y, hy, ys, hys, rfl⟩
      exact ⟨y, ys, hy, hys, rfl⟩
    · rintro ⟨y, ys, hy, hys, rfl⟩
      exact ⟨y, hy, ys, hys, rfl⟩

/-- Of two lists that are related, each member of the second comes from one of the first. -/
theorem exists_of_forall₂ {R : α → β → Prop} {xs : List α} {ys : List β}
    (h : List.Forall₂ R xs ys) {y : β} (hy : y ∈ ys) : ∃ x ∈ xs, R x y := by
  induction h with
  | nil => exact nomatch hy
  | @cons x y' xs ys hr _ ih =>
    rcases List.mem_cons.1 hy with rfl | hy
    · exact ⟨x, List.mem_cons_self .., hr⟩
    · obtain ⟨x', hx', hr'⟩ := ih hy
      exact ⟨x', .tail _ hx', hr'⟩

/-! ### Failure -/

theorem bind_eq_error {x : Except ε α} {g : α → Except ε β} :
    x >>= g = .error e ↔ x = .error e ∨ ∃ a, x = .ok a ∧ g a = .error e := by
  cases x <;> simp [bind, Except.bind]

/-- A list fails as one of its members does. -/
theorem mapM_eq_error {g : α → Except ε β} {xs : List α} (h : xs.mapM g = .error e) :
    ∃ x ∈ xs, g x = .error e := by
  induction xs with
  | nil => cases h
  | cons x xs ih =>
    rw [List.mapM_cons] at h
    rcases bind_eq_error.1 h with h | ⟨y, -, h⟩
    · exact ⟨x, List.mem_cons_self .., h⟩
    · rcases bind_eq_error.1 h with h | ⟨ys, -, h⟩
      · obtain ⟨x', hx', h⟩ := ih h
        exact ⟨x', List.mem_cons_of_mem _ hx', h⟩
      · cases h

theorem pure_ne_error (a : α) : (pure a : Except ε α) ≠ .error e := by
  simp [pure, Except.pure]

theorem bind_ne_error {x : Except ε α} {g : α → Except ε β} (hx : x ≠ .error e)
    (hg : ∀ a, x = .ok a → g a ≠ .error e) : x >>= g ≠ .error e := by
  intro h
  rcases bind_eq_error.1 h with h | ⟨a, ha, h⟩
  · exact hx h
  · exact hg a ha h

theorem guard_ne_error {p : Prop} [Decidable p] {e' : ε} {y : Except ε α} (hp : p → e' ≠ e)
    (hy : y ≠ .error e) :
    (if p then (Except.error e' : Except ε PUnit) >>= fun _ => y else y) ≠ .error e := by
  split
  · next h => exact fun he => hp h (Except.error.inj he)
  · exact hy

theorem mapM_ne_error {g : α → Except ε β} {xs : List α} (h : ∀ x ∈ xs, g x ≠ .error e) :
    xs.mapM g ≠ .error e := by
  intro he
  obtain ⟨x, hx, he⟩ := mapM_eq_error he
  exact h x hx he

end ScalarLang
