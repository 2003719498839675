/-! Finite maps as lists of entries, each key once. -/

namespace ScalarLang

@[ext] structure Table (κ α : Type) where
  entries : List (κ × α) := []
  distinct : (entries.map Prod.fst).Nodup := by exact List.nodup_nil
  deriving DecidableEq

namespace Table

variable {κ α : Type} [DecidableEq κ]

def keys (t : Table κ α) : List κ := t.entries.map Prod.fst

def find? (t : Table κ α) (k : κ) : Option α := t.entries.lookup k

def erase (t : Table κ α) (k : κ) : Table κ α where
  entries := t.entries.filter (·.1 ≠ k)
  distinct := t.distinct.sublist (List.filter_sublist.map _)

/-- Gives the first entry of a key a new value. -/
def replace (k : κ) (a : α) : List (κ × α) → List (κ × α)
  | [] => []
  | e :: rest => if e.1 = k then (k, a) :: rest else e :: replace k a rest

theorem map_fst_replace (k : κ) (a : α) (entries : List (κ × α)) :
    (replace k a entries).map Prod.fst = entries.map Prod.fst := by
  induction entries with
  | nil => rfl
  | cons e rest ih => grind [replace]

/-- Adds an entry, or gives a known key a new value where it stands. -/
def insert (t : Table κ α) (k : κ) (a : α) : Table κ α :=
  if h : k ∈ t.keys then
    { entries := replace k a t.entries
      distinct := (map_fst_replace k a t.entries).symm ▸ t.distinct }
  else
    { entries := (k, a) :: t.entries
      distinct := List.nodup_cons.2 ⟨h, t.distinct⟩ }

/-- Gives a key the value it had before, if any. -/
def restore (t : Table κ α) (k : κ) : Option α → Table κ α
  | some a => t.insert k a
  | none => t.erase k

def size (t : Table κ α) : Nat := t.entries.length

def isEmpty (t : Table κ α) : Bool := t.entries.isEmpty

/-! ### Finding entries -/

theorem find?_eq_none_iff {t : Table κ α} {k : κ} : t.find? k = none ↔ k ∉ t.keys := by
  rw [find?, List.lookup_eq_none_iff, keys, List.mem_map]
  grind

theorem lookup_eq_some_iff {entries : List (κ × α)} (h : (entries.map Prod.fst).Nodup) {k : κ}
    {a : α} : entries.lookup k = some a ↔ (k, a) ∈ entries := by
  induction entries with
  | nil => simp
  | cons e rest ih =>
    obtain ⟨hnew, hrest⟩ := List.nodup_cons.1 h
    rw [List.lookup_cons, List.mem_cons]
    by_cases hk : k = e.1
    · have hnot : (k, a) ∉ rest := fun hmem => hnew (hk ▸ List.mem_map_of_mem hmem)
      simp only [hk, beq_self_eq_true, Option.some.injEq]
      constructor
      · rintro rfl
        exact .inl rfl
      · rintro (he | hmem)
        · exact (Prod.mk.inj he).2.symm
        · exact absurd (hk ▸ hmem) hnot
    · have hne : (k == e.1) = false := by simpa using hk
      rw [hne, ih hrest]
      exact ⟨.inr, fun hmem => hmem.resolve_left fun he => hk (congrArg Prod.fst he)⟩

theorem find?_eq_some_iff {t : Table κ α} {k : κ} {a : α} :
    t.find? k = some a ↔ (k, a) ∈ t.entries :=
  lookup_eq_some_iff t.distinct

/-! ### Changing entries -/

theorem lookup_filter (k k' : κ) (entries : List (κ × α)) :
    (entries.filter (·.1 ≠ k)).lookup k' = if k' = k then none else entries.lookup k' := by
  induction entries with
  | nil => simp
  | cons e rest ih => grind

theorem lookup_replace {k : κ} {entries : List (κ × α)} (hk : k ∈ entries.map Prod.fst) (k' : κ)
    (a : α) :
    (replace k a entries).lookup k' = if k' = k then some a else entries.lookup k' := by
  induction entries with
  | nil => simp at hk
  | cons e rest ih => grind [replace]

/-- Giving a key the value it had undoes giving it another one. -/
theorem replace_replace {k : κ} {entries : List (κ × α)} {b : α} (h : entries.lookup k = some b)
    (a : α) : replace k b (replace k a entries) = entries := by
  induction entries with
  | nil => rfl
  | cons e rest ih => grind [replace]

theorem insert_of_mem {t : Table κ α} {k : κ} (h : k ∈ t.keys) (a : α) :
    (t.insert k a).entries = replace k a t.entries := by
  rw [insert, dif_pos h]

theorem insert_of_find?_none {t : Table κ α} {k : κ} (h : t.find? k = none) (a : α) :
    (t.insert k a).entries = (k, a) :: t.entries := by
  rw [insert, dif_neg (find?_eq_none_iff.1 h)]

theorem find?_erase (t : Table κ α) (k k' : κ) :
    (t.erase k).find? k' = if k' = k then none else t.find? k' :=
  lookup_filter k k' t.entries

theorem find?_insert (t : Table κ α) (k k' : κ) (a : α) :
    (t.insert k a).find? k' = if k' = k then some a else t.find? k' := by
  by_cases h : k ∈ t.keys
  · rw [find?, insert_of_mem h]
    exact lookup_replace h k' a
  · rw [find?, insert_of_find?_none (find?_eq_none_iff.2 h)]
    grind [find?]

theorem find?_restore (t : Table κ α) (k k' : κ) (a : Option α) :
    (t.restore k a).find? k' = if k' = k then a else t.find? k' := by
  cases a with
  | none => exact t.find?_erase k k'
  | some a => exact t.find?_insert k k' a

/-- Restoring what a key had undoes an insertion. -/
theorem restore_insert (t : Table κ α) (k : κ) (a : α) :
    (t.insert k a).restore k (t.find? k) = t := by
  ext1
  cases h : t.find? k with
  | none =>
    have hnot : ∀ e ∈ t.entries, e.1 ≠ k := fun e he hk =>
      find?_eq_none_iff.1 h (hk ▸ List.mem_map_of_mem he)
    change (t.insert k a).entries.filter (·.1 ≠ k) = t.entries
    rw [insert_of_find?_none h, List.filter_cons_of_neg (by simp)]
    exact List.filter_eq_self.2 fun e he => by simpa using hnot e he
  | some b =>
    have hkey : k ∈ t.keys := List.mem_map_of_mem (find?_eq_some_iff.1 h)
    have hkey' : k ∈ (t.insert k a).keys := by
      rw [keys, insert_of_mem hkey, map_fst_replace]
      exact hkey
    rw [restore, insert_of_mem hkey', insert_of_mem hkey]
    exact replace_replace h a

end Table

end ScalarLang
