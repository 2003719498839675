import Mathlib.Logic.Function.Basic
import ScalarLang.Bytecode.Lower

/-! Copies at the ends of blocks. The moves that are made one after the other have the effect of all
copies at once. -/

namespace ScalarLang.Bytecode

variable {regs : Nat → Float} {moves copies : List Copy} {scratch : Nat}

/-- The registers after moves that are made one after the other. -/
def runMoves (moves : List Copy) (regs : Nat → Float) : Nat → Float :=
  moves.foldl (fun regs c => Function.update regs c.1 (regs c.2)) regs

theorem runMoves_cons (c : Copy) (moves : List Copy) (regs : Nat → Float) :
    runMoves (c :: moves) regs = runMoves moves (Function.update regs c.1 (regs c.2)) := rfl

theorem runMoves_append (moves moves' : List Copy) (regs : Nat → Float) :
    runMoves (moves ++ moves') regs = runMoves moves' (runMoves moves regs) :=
  List.foldl_append

theorem runMoves_of_ne {n : Nat} (h : ∀ c ∈ moves, c.1 ≠ n) : runMoves moves regs n = regs n := by
  induction moves generalizing regs with
  | nil => rfl
  | cons c moves ih =>
    rw [List.forall_mem_cons] at h
    rw [runMoves_cons, ih h.2, Function.update_of_ne h.1.symm]

/-- If no move reads what another one writes, all read what was there before. -/
theorem runMoves_of_mem (hread : ∀ c ∈ moves, ∀ c' ∈ moves, c'.1 ≠ c.2)
    (hsame : ∀ c ∈ moves, ∀ c' ∈ moves, c.1 = c'.1 → regs c.2 = regs c'.2) {c : Copy}
    (hc : c ∈ moves) : runMoves moves regs c.1 = regs c.2 := by
  induction moves generalizing regs c with
  | nil => exact nomatch hc
  | cons d moves ih =>
    -- the first move leaves the sources of the others as they are
    have hsource {c : Copy} (hc : c ∈ d :: moves) :
        Function.update regs d.1 (regs d.2) c.2 = regs c.2 :=
      Function.update_of_ne (hread c hc d (List.mem_cons_self ..)).symm _ _
    have hrest {c : Copy} (hc : c ∈ moves) :
        runMoves moves (Function.update regs d.1 (regs d.2)) c.1 = regs c.2 := by
      rw [ih (fun c hc c' hc' => hread c (.tail _ hc) c' (.tail _ hc'))
        (fun c hc c' hc' he => ?_) hc, hsource (.tail _ hc)]
      rw [hsource (.tail _ hc), hsource (.tail _ hc')]
      exact hsame c (.tail _ hc) c' (.tail _ hc') he
    rw [runMoves_cons]
    rcases List.mem_cons.1 hc with rfl | hc
    · by_cases hm : ∃ c' ∈ moves, c'.1 = c.1
      · obtain ⟨c', hc', he⟩ := hm
        have hlast := hrest hc'
        rw [he] at hlast
        rw [hlast]
        exact hsame c' (.tail _ hc') c (List.mem_cons_self ..) he
      · rw [runMoves_of_ne fun c' hc' he => hm ⟨c', hc', he⟩, Function.update_self]
    · exact hrest hc

/-! ### Schedules -/

/-- Moves of all sources to scratch registers. -/
def saves (scratch : Nat) (copies : List Copy) : List Copy :=
  copies.zipIdx.map fun ((_, src), k) => (scratch + k, src)

/-- Moves from there to all destinations. -/
def restores (scratch : Nat) (copies : List Copy) : List Copy :=
  copies.zipIdx.map fun ((dst, _), k) => (dst, scratch + k)

/-- The moves for copies, in order. -/
def schedule (scratch : Nat) (copies : List Copy) : List Copy :=
  if copies.any fun (_, src) => copies.any (·.1 = src) then
    saves scratch copies ++ restores scratch copies
  else copies.filter fun (dst, src) => dst ≠ src

theorem copyMoves_eq (scratch : Nat) (copies : List Copy) :
    copyMoves scratch copies =
      (schedule scratch copies).map fun (dst, src) => Line.mov dst src := by
  unfold copyMoves schedule saves restores
  split <;> simp [Function.comp_def]

theorem mem_saves {c : Copy} : c ∈ saves scratch copies ↔
    ∃ k d, copies[k]? = some d ∧ c = (scratch + k, d.2) := by
  simp only [saves, List.mem_map, List.mem_zipIdx_iff_getElem?]
  constructor
  · rintro ⟨⟨d, k⟩, hd, rfl⟩
    exact ⟨k, d, hd, rfl⟩
  · rintro ⟨k, d, hd, rfl⟩
    exact ⟨(d, k), hd, rfl⟩

theorem mem_restores {c : Copy} : c ∈ restores scratch copies ↔
    ∃ k d, copies[k]? = some d ∧ c = (d.1, scratch + k) := by
  simp only [restores, List.mem_map, List.mem_zipIdx_iff_getElem?]
  constructor
  · rintro ⟨⟨d, k⟩, hd, rfl⟩
    exact ⟨k, d, hd, rfl⟩
  · rintro ⟨k, d, hd, rfl⟩
    exact ⟨(d, k), hd, rfl⟩

/-- Saving leaves all but the scratch registers as they are. -/
theorem runMoves_saves_of_lt {n : Nat} (hn : n < scratch) :
    runMoves (saves scratch copies) regs n = regs n := by
  refine runMoves_of_ne fun c hc => ?_
  obtain ⟨k, d, -, rfl⟩ := mem_saves.1 hc
  exact Nat.ne_of_gt (Nat.lt_of_lt_of_le hn (Nat.le_add_right _ _))

theorem runMoves_saves (h : ∀ c ∈ copies, c.2 < scratch) {k : Nat} {d : Copy}
    (hd : copies[k]? = some d) :
    runMoves (saves scratch copies) regs (scratch + k) = regs d.2 := by
  refine runMoves_of_mem (c := (scratch + k, d.2)) ?_ ?_ (mem_saves.2 ⟨k, d, hd, rfl⟩)
  · intro c hc c' hc'
    obtain ⟨l, e, he, rfl⟩ := mem_saves.1 hc
    obtain ⟨m, e', -, rfl⟩ := mem_saves.1 hc'
    have hlt := h e (List.mem_of_getElem? he)
    exact Nat.ne_of_gt (Nat.lt_of_lt_of_le hlt (Nat.le_add_right _ _))
  · intro c hc c' hc' heq
    obtain ⟨l, e, he, rfl⟩ := mem_saves.1 hc
    obtain ⟨m, e', he', rfl⟩ := mem_saves.1 hc'
    obtain rfl := Nat.add_left_cancel heq
    rw [Option.some.inj (he.symm.trans he')]

section

variable (h : ∀ c ∈ copies, c.1 < scratch ∧ c.2 < scratch)
include h

theorem schedule_lt {c : Copy} (hc : c ∈ schedule scratch copies) :
    c.1 < scratch + copies.length ∧ c.2 < scratch + copies.length := by
  have old {n : Nat} (hn : n < scratch) : n < scratch + copies.length :=
    Nat.lt_of_lt_of_le hn (Nat.le_add_right _ _)
  have new {k : Nat} {d : Copy} (hd : copies[k]? = some d) :
      scratch + k < scratch + copies.length :=
    Nat.add_lt_add_left (List.getElem?_eq_some_iff.1 hd).1 _
  unfold schedule at hc
  split at hc
  · rcases List.mem_append.1 hc with hc | hc
    · obtain ⟨k, d, hd, rfl⟩ := mem_saves.1 hc
      exact ⟨new hd, old (h d (List.mem_of_getElem? hd)).2⟩
    · obtain ⟨k, d, hd, rfl⟩ := mem_restores.1 hc
      exact ⟨old (h d (List.mem_of_getElem? hd)).1, new hd⟩
  · have hc := h c (List.mem_filter.1 hc).1
    exact ⟨old hc.1, old hc.2⟩

theorem runMoves_restores {regs' : Nat → Float}
    (hregs : ∀ k d, copies[k]? = some d → regs' (scratch + k) = regs d.2)
    (hsame : ∀ c ∈ copies, ∀ c' ∈ copies, c.1 = c'.1 → c.2 = c'.2) {c : Copy}
    (hc : c ∈ copies) : runMoves (restores scratch copies) regs' c.1 = regs c.2 := by
  obtain ⟨k, hk⟩ := List.mem_iff_getElem?.1 hc
  rw [← hregs k c hk]
  refine runMoves_of_mem (c := (c.1, scratch + k)) ?_ ?_ (mem_restores.2 ⟨k, c, hk, rfl⟩)
  · intro d hd d' hd'
    obtain ⟨l, e, -, rfl⟩ := mem_restores.1 hd
    obtain ⟨m, e', he', rfl⟩ := mem_restores.1 hd'
    have hlt := (h e' (List.mem_of_getElem? he')).1
    exact Nat.ne_of_lt (Nat.lt_of_lt_of_le hlt (Nat.le_add_right _ _))
  · intro d hd d' hd' heq
    obtain ⟨l, e, he, rfl⟩ := mem_restores.1 hd
    obtain ⟨m, e', he', rfl⟩ := mem_restores.1 hd'
    rw [hregs l e he, hregs m e' he',
      hsame e (List.mem_of_getElem? he) e' (List.mem_of_getElem? he') heq]

/-- The moves make all copies as if at once. -/
theorem runMoves_schedule (hsame : ∀ c ∈ copies, ∀ c' ∈ copies, c.1 = c'.1 → c.2 = c'.2)
    {c : Copy} (hc : c ∈ copies) : runMoves (schedule scratch copies) regs c.1 = regs c.2 := by
  unfold schedule
  split
  · rw [runMoves_append]
    exact runMoves_restores h (fun _ _ => runMoves_saves fun c hc => (h c hc).2) hsame hc
  · next hany =>
    have hread : ∀ d ∈ copies, ∀ d' ∈ copies, d'.1 ≠ d.2 := by
      intro d hd d' hd' he
      exact hany (List.any_eq_true.2 ⟨d, hd, List.any_eq_true.2 ⟨d', hd', by simpa using he⟩⟩)
    have hall : copies.filter (fun (dst, src) => dst ≠ src) = copies := by
      refine List.filter_eq_self.2 fun d hd => ?_
      simpa using hread d hd d hd
    rw [hall]
    exact runMoves_of_mem hread (fun d hd d' hd' he => by rw [hsame d hd d' hd' he]) hc

end

theorem runMoves_schedule_of_ne {n : Nat} (hn : n < scratch) (hc : ∀ c ∈ copies, c.1 ≠ n) :
    runMoves (schedule scratch copies) regs n = regs n := by
  unfold schedule
  split
  · rw [runMoves_append, runMoves_of_ne, runMoves_saves_of_lt hn]
    intro c hm
    obtain ⟨k, d, hd, rfl⟩ := mem_restores.1 hm
    exact hc d (List.mem_of_getElem? hd)
  · exact runMoves_of_ne fun c hm => hc c (List.mem_filter.1 hm).1

end ScalarLang.Bytecode
