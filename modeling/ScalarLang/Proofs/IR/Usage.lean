import ScalarLang.Proofs.IR.Removal

/-! What the counts of uses say about a function, and the removal of what is not used. -/

namespace ScalarLang.IR

namespace Func

variable {f : Func}

theorem Verified.exists_fits (h : f.Verified) {v : Operand} (hv : v ∈ f.usedOperands) :
    ∃ type, f.Fits v type := by
  rcases mem_usedOperands.1 hv with ⟨b, hb, i, hi, hm⟩ | ⟨b, hb, t, ht, hm⟩
  · obtain ⟨type, hm⟩ := Operation.exists_typed_of_mem hm
    exact ⟨type, h.fits_inst hb hi hm⟩
  · obtain ⟨type, hm⟩ := Terminator.exists_typed_of_mem hm
    exact ⟨type, h.fits_terminator hb ht hm⟩

/-- A store has no result that could be used. -/
theorem Verified.store_not_used (h : f.Verified) {i : InstId} {s : SlotId} {v : Operand}
    (ho : f.op i = .store s v) : .inst i ∉ f.usedOperands := by
  intro hu
  obtain ⟨type, -, -, ht⟩ := h.exists_fits hu
  simp [ho, Operation.type?] at ht

theorem Verified.live_lt (h : f.Verified) {i : InstId} (hi : i ∈ f.live) : i < f.insts.size := by
  obtain ⟨b, hb, hi⟩ := mem_live.1 hi
  exact h.inst_lt hb hi

/-! ### Everything exists -/

theorem Verified.blockExists (h : f.Verified) {b : BlockId} (hb : b ∈ f.layout) :
    f.blockExists b := by
  simp only [Func.blockExists, Bool.and_eq_true, decide_eq_true_eq, List.all_eq_true]
  exact ⟨h.block_lt hb, fun i hi => h.inst_lt hb hi⟩

theorem Verified.placedExists (h : f.Verified) : f.placedExists :=
  List.all_eq_true.2 fun _ hb => h.blockExists hb

theorem Verified.slotsExist (h : f.Verified) : f.slotsExist := by
  simp only [Func.slotsExist, Bool.and_eq_true, List.all_eq_true]
  refine ⟨h.placedExists, fun i hi => ?_⟩
  obtain ⟨b, hb, hi⟩ := mem_live.1 hi
  cases hs : (f.op i).slot? with
  | none => rfl
  | some s => simpa using h.slot_lt hb hi hs

theorem Verified.usesExist (h : f.Verified) : f.usesExist := by
  simp only [Func.usesExist, Bool.and_eq_true, List.all_eq_true]
  refine ⟨h.placedExists, fun v hv => ?_⟩
  obtain ⟨type, hfits⟩ := h.exists_fits hv
  cases v with
  | inst i => simpa [resultExists] using hfits.2.1
  | _ => rfl

/-! ### Counts -/

theorem getD_foldl_uses {i : InstId} (l : List Operand) (a : Array Nat) (ha : i < a.size) :
    (l.foldl (fun counts v => match v with
      | .inst i => counts.modify i (· + 1)
      | _ => counts) a).getD i 0 = a.getD i 0 + l.count (.inst i) := by
  induction l generalizing a with
  | nil => simp
  | cons v l ih =>
    rw [List.foldl_cons, ih _ (by cases v <;> simpa using ha), List.count_cons]
    cases v with
    | inst j =>
      by_cases hj : j = i <;> simp [Array.getD, ha, Array.getElem_modify, hj]
      omega
    | _ => simp

theorem useCounts_getD {i : InstId} (hi : i < f.insts.size) :
    f.useCounts.getD i 0 = f.usedOperands.count (.inst i) := by
  refine (getD_foldl_uses _ _ (by simpa using hi)).trans ?_
  simp [Array.getD, hi]

def readsSlot (f : Func) (s : SlotId) (i : InstId) : Bool := f.op i = .load s

def writesSlot (f : Func) (s : SlotId) (i : InstId) : Bool :=
  match f.op i with
  | .store s' _ => s' = s
  | _ => false

theorem getD_foldl_accesses {s : SlotId} (l : List InstId) (a : Array SlotUsage)
    (ha : s < a.size) :
    (l.foldl (fun usage i => match f.op i with
      | .load slot => usage.modify slot fun u => { u with loads := u.loads + 1 }
      | .store slot _ => usage.modify slot fun u => { u with stores := u.stores + 1 }
      | _ => usage) a).getD s {} =
    ⟨(a.getD s {}).loads + l.countP (f.readsSlot s),
      (a.getD s {}).stores + l.countP (f.writesSlot s)⟩ := by
  induction l generalizing a with
  | nil => rfl
  | cons i l ih =>
    rw [List.foldl_cons, ih _ (by cases f.op i <;> simpa using ha), List.countP_cons,
      List.countP_cons]
    cases ho : f.op i with
    | load s' =>
      by_cases hj : s' = s <;>
        simp [Array.getD, ha, Array.getElem_modify, hj, readsSlot, writesSlot, ho]
      omega
    | store s' v =>
      by_cases hj : s' = s <;>
        simp [Array.getD, ha, Array.getElem_modify, hj, readsSlot, writesSlot, ho]
      omega
    | _ => simp [readsSlot, writesSlot, ho]

theorem slotUsage_getD {s : SlotId} (hs : s < f.slots.size) :
    f.slotUsage.getD s {} = ⟨f.live.countP (f.readsSlot s), f.live.countP (f.writesSlot s)⟩ := by
  refine (getD_foldl_accesses _ _ (by simpa using hs)).trans ?_
  simp [Array.getD, hs]

theorem size_slotUsage (f : Func) : f.slotUsage.size = f.slots.size := by
  refine List.foldlRecOn (motive := fun usage : Array SlotUsage => usage.size = f.slots.size)
    _ _ (by simp) ?_
  intro usage hsize i _
  cases f.op i <;> simpa using hsize

/-- A slot that placed code reads or writes is used. -/
theorem Verified.isUsed_slot (h : f.Verified) {i : InstId} {s : SlotId} (hi : i ∈ f.live)
    (hs : (f.op i).slot? = some s) : (f.slotUsage.getD s {}).isUsed := by
  obtain ⟨b, hb, hib⟩ := mem_live.1 hi
  rw [slotUsage_getD (h.slot_lt hb hib hs), SlotUsage.isUsed, decide_eq_true_eq]
  cases ho : f.op i with
  | load s' =>
    obtain rfl : s' = s := by simpa [ho, Operation.slot?] using hs
    exact Nat.add_pos_left (List.countP_pos_iff.2 ⟨i, hi, by simp [readsSlot, ho]⟩) _
  | store s' v =>
    obtain rfl : s' = s := by simpa [ho, Operation.slot?] using hs
    exact Nat.add_pos_right _ (List.countP_pos_iff.2 ⟨i, hi, by simp [writesSlot, ho]⟩)
  | _ => simp [ho, Operation.slot?] at hs

end Func

/-! ### Arrays of optional entries -/

section Entries

variable {α : Type} (a : Array (Option α)) (v : Option α)

theorem getD_push (k : Nat) :
    (a.push v).getD k none = if k = a.size then v else a.getD k none := by
  simp only [Array.getD_eq_getD_getElem?, Array.getElem?_push]
  split <;> rfl

theorem getD_setIfInBounds (i k : Nat) :
    (a.setIfInBounds i v).getD k none = if k = i ∧ i < a.size then v else a.getD k none := by
  simp only [Array.getD_eq_getD_getElem?, Array.getElem?_setIfInBounds]
  by_cases hk : i = k
  · subst hk
    by_cases hi : i < a.size <;> simp [hi]
  · simp [hk, Ne.symm hk]

end Entries

namespace Dead

variable {f : Func}

theorem removable_insts (hf : f.Verified) : f.Removable (insts f) where
  unused {i} hi := by
    obtain ⟨hl, hi⟩ := List.mem_filter.1 hi
    split at hi
    · next ho => exact hf.store_not_used ho
    · simp only [Bool.and_eq_true, decide_eq_true_eq] at hi
      rw [Func.useCounts_getD (hf.live_lt hl), List.count_eq_zero] at hi
      exact hi.2
  kind {i} hi hl := by
    obtain ⟨-, hi⟩ := List.mem_filter.1 hi
    split at hi
    · next s v ho =>
      right
      refine ⟨s, v, ho, fun j hj hload => ?_⟩
      obtain ⟨b, hb, hib⟩ := Func.mem_live.1 hl
      have hs : s < f.slots.size := hf.slot_lt hb hib (by simp [ho, Operation.slot?])
      simp only [Func.slotUsage_getD hs, decide_eq_true_eq, List.countP_eq_zero] at hi
      exact absurd (by simp [Func.readsSlot, hload]) (hi j hj)
    · left
      simp only [Bool.and_eq_true] at hi
      exact hi.1

/-- Removal of dead code, repeated as long as there is some. -/
theorem run_refines (hf : f.WellFormed) : f.Refines (run f).1 := by
  fun_induction run f with
  | case1 f h => exact .refl hf
  | case2 f i rest h _ ih =>
    have hr : f.Removable (i :: rest) := h ▸ removable_insts hf.toVerified
    exact (hr.refines hf).trans (ih (hr.refines hf).wellFormed)

end Dead

end ScalarLang.IR
