import Mathlib.Data.List.Nodup
import ScalarLang.Proofs.IR.Verified

/-! Dominance. A result is available at a place of a function if every way from the entry block to
that place passes the instruction that computes it. A function is well formed if it is well put
together, places everything once, and uses only results that are available. -/

namespace ScalarLang.IR.Func

variable {f : Func}

/-- A way from the entry block to `b`; `π` are the blocks before it, the last first. -/
inductive Path (f : Func) : (π : List BlockId) → (b : BlockId) → Prop where
  | entry {b : BlockId} (h : f.entry? = some b) : Path f [] b
  | step {π : List BlockId} {b c : BlockId} (h : Path f π b) (hc : c ∈ f.successors b) :
      Path f (b :: π) c

/-- Every way to the place in block `b` that comes after `before` passes instruction `i`. -/
def Available (f : Func) (b : BlockId) (before : List InstId) (i : InstId) : Prop :=
  ∀ π, f.Path π b → i ∈ before ∨ ∃ c ∈ π, i ∈ (f.block c).insts

/-- An operand that is no result is available everywhere. -/
def AvailableOperand (f : Func) (b : BlockId) (before : List InstId) (v : Operand) : Prop :=
  ∀ i, v = .inst i → f.Available b before i

structure WellFormed (f : Func) : Prop where
  verified : f.verify = .ok ()
  layout_nodup : f.layout.Nodup
  /-- Each instruction is placed at most once. -/
  live_nodup : f.live.Nodup
  entry_preds {b : BlockId} : f.entry? = some b → f.preds b = []
  dominated_inst {b : BlockId} {i : InstId} {before after : List InstId} {v : Operand} :
    b ∈ f.layout → (f.block b).insts = before ++ i :: after → ¬(f.op i).isPhi →
    v ∈ (f.op i).operands → f.AvailableOperand b before v
  /-- A phi uses what it receives at the end of the block from which it comes. -/
  dominated_phi {b source : BlockId} {i : InstId} {incoming : List (Operand × BlockId)}
    {v : Operand} : b ∈ f.layout → i ∈ (f.block b).insts → f.op i = .phi incoming →
    (v, source) ∈ incoming → f.AvailableOperand source (f.block source).insts v
  dominated_terminator {b : BlockId} {t : Terminator} {v : Operand} : b ∈ f.layout →
    (f.block b).terminator = some t → v ∈ t.operands → f.AvailableOperand b (f.block b).insts v

/-! ### Predecessors -/

theorem mem_preds {b p : BlockId} : p ∈ f.preds b ↔ p ∈ f.layout ∧ b ∈ f.successors p := by
  simp [preds, List.mem_eraseDups]

theorem nodup_eraseDups (l : List BlockId) : l.eraseDups.Nodup := by
  induction hn : l.length using Nat.strongRecOn generalizing l with
  | ind n ih =>
    cases l with
    | nil => simp
    | cons b l =>
      have hlt : (l.filter fun c => !c == b).length < n := by
        have := List.length_filter_le (fun c => !c == b) l
        simp only [List.length_cons] at hn
        omega
      rw [List.eraseDups_cons, List.nodup_cons]
      exact ⟨by simp [List.mem_eraseDups], ih _ hlt _ rfl⟩

theorem preds_nodup (f : Func) (b : BlockId) : (f.preds b).Nodup := nodup_eraseDups _

/-- Sources match the predecessors if they are the same blocks, each once. -/
theorem perm_preds {sources : List BlockId} {b : BlockId} (hn : sources.Nodup)
    (h : ∀ p, p ∈ sources ↔ p ∈ f.layout ∧ b ∈ f.successors p) : sources.Perm (f.preds b) :=
  (List.perm_ext_iff_of_nodup hn (f.preds_nodup b)).2 fun p => (h p).trans mem_preds.symm

theorem Verified.mem_sources (h : f.Verified) {b p : BlockId} {i : InstId}
    {incoming : List (Operand × BlockId)} (hb : b ∈ f.layout) (hi : i ∈ (f.block b).insts)
    (ho : f.op i = .phi incoming) :
    p ∈ incoming.map (·.2) ↔ p ∈ f.layout ∧ b ∈ f.successors p :=
  (h.phi_sources hb hi ho).mem_iff.trans mem_preds

/-! ### Placement -/

theorem block_nodup {b : BlockId} (h : f.live.Nodup) (hb : b ∈ f.layout) :
    (f.block b).insts.Nodup := (List.nodup_flatMap.1 h).1 b hb

/-- No instruction is in two blocks. -/
theorem block_unique {b c : BlockId} {i : InstId} (h : f.live.Nodup) (hb : b ∈ f.layout)
    (hc : c ∈ f.layout) (hi : i ∈ (f.block b).insts) (hi' : i ∈ (f.block c).insts) : b = c := by
  have hp := (List.nodup_flatMap.1 h).2
  refine List.Pairwise.forall_of_forall_of_flip (R := fun b c => i ∈ (f.block b).insts →
    i ∈ (f.block c).insts → b = c) (fun _ _ _ _ => rfl) (hp.imp ?_) (hp.imp ?_) hb hc hi hi'
  · exact fun hd hi hi' => (hd hi hi').elim
  · exact fun hd hi hi' => (hd hi' hi).elim

/-- Conversely, blocks that share nothing place everything once. -/
theorem live_nodup_of (hl : f.layout.Nodup) (hn : ∀ b ∈ f.layout, (f.block b).insts.Nodup)
    (hd : ∀ b ∈ f.layout, ∀ c ∈ f.layout, ∀ i, i ∈ (f.block b).insts → i ∈ (f.block c).insts →
      b = c) : f.live.Nodup := by
  refine List.nodup_flatMap.2 ⟨hn, hl.imp_of_mem fun hb hc hne i hi hi' => ?_⟩
  exact hne (hd _ hb _ hc i hi hi')

theorem not_mem_of_nodup {i : InstId} {l before after : List InstId} (h : l.Nodup)
    (hl : l = before ++ i :: after) : i ∉ before := by
  subst hl
  intro hi
  exact (List.nodup_append.1 h).2.2 i hi i (List.mem_cons_self ..) rfl

/-- There is only one way to split a list without repetitions at one of its elements. -/
theorem split_unique {i : InstId} {before after before' after' : List InstId}
    (hn : (before ++ i :: after).Nodup) (h : before ++ i :: after = before' ++ i :: after') :
    before = before' ∧ after = after' := by
  have ha : i ∉ after := (List.nodup_cons.1 (List.nodup_append.1 hn).2.1).1
  have := (List.append_cons_inj_of_notMem (not_mem_of_nodup hn rfl) ha).1 h
  exact ⟨this.1, this.2.2⟩

/-! ### Ways -/

theorem entry_mem_layout {b : BlockId} (h : f.entry? = some b) : b ∈ f.layout :=
  List.mem_of_mem_head? h

theorem Path.mem_layout (hv : f.Verified) {π : List BlockId} {b : BlockId} (h : f.Path π b) :
    b ∈ f.layout ∧ ∀ c ∈ π, c ∈ f.layout := by
  induction h with
  | entry h => exact ⟨entry_mem_layout h, by simp⟩
  | step _ hc ih => exact ⟨hv.successor_mem ih.1 hc, List.forall_mem_cons.2 ih⟩

/-- The way up to an earlier visit of a block. -/
theorem Path.of_append {π₁ π₂ : List BlockId} {b c : BlockId} (h : f.Path (π₁ ++ c :: π₂) b) :
    f.Path π₂ c := by
  induction π₁ generalizing b with
  | nil => cases h with | step h _ => exact h
  | cons d π₁ ih => cases h with | step h _ => exact ih h

theorem Path.of_mem {π : List BlockId} {b c : BlockId} (h : f.Path π b) (hc : c ∈ π) :
    ∃ π₁ π₂, π = π₁ ++ c :: π₂ ∧ f.Path π₂ c := by
  obtain ⟨π₁, π₂, rfl⟩ := List.append_of_mem hc
  exact ⟨π₁, π₂, rfl, h.of_append⟩

/-- A way to a block that does not pass it before. -/
theorem Path.exists_first {π : List BlockId} {b : BlockId} (h : f.Path π b) :
    ∃ π', f.Path π' b ∧ b ∉ π' ∧ π' <:+ π := by
  induction hn : π.length using Nat.strongRecOn generalizing π with
  | ind n ih =>
    by_cases hb : b ∈ π
    · obtain ⟨π₁, π₂, rfl, h₂⟩ := h.of_mem hb
      obtain ⟨π', h', hb', hs⟩ := ih π₂.length (by simp [← hn]; omega) h₂ rfl
      exact ⟨π', h', hb', hs.trans ⟨π₁ ++ [b], by simp⟩⟩
    · exact ⟨π, h, hb, List.suffix_refl π⟩

/-- The entry block is the end of every way to another block. -/
theorem Path.entry_mem {π : List BlockId} {b e : BlockId} (h : f.Path π b)
    (he : f.entry? = some e) : b = e ∧ π = [] ∨ e ∈ π := by
  induction h with
  | entry h => exact .inl ⟨Option.some.inj (h.symm.trans he), rfl⟩
  | @step π b c _ _ ih =>
    rcases ih with ⟨rfl, -⟩ | ih
    · exact .inr (List.mem_cons_self ..)
    · exact .inr (List.mem_cons_of_mem _ ih)

/-! ### Available results -/

theorem Available.mono {b : BlockId} {before before' : List InstId} {i : InstId}
    (h : f.Available b before i) (hs : ∀ j ∈ before, j ∈ before') : f.Available b before' i :=
  fun π hπ => (h π hπ).imp_left (hs i)

/-- What is available at the start of a block is available at the end of each one before it. -/
theorem Available.of_successor {b c : BlockId} {i : InstId} (h : f.Available c [] i)
    (hc : c ∈ f.successors b) : f.Available b (f.block b).insts i := by
  intro π hπ
  rcases h (b :: π) (hπ.step hc) with hi | ⟨d, hd, hi⟩
  · cases hi
  · rcases List.mem_cons.1 hd with rfl | hd
    · exact .inl hi
    · exact .inr ⟨d, hd, hi⟩

/-- An instruction of a block that can be reached is not available before itself. -/
theorem not_available_self (hv : f.Verified) (hn : f.live.Nodup) {π : List BlockId} {b : BlockId}
    {i : InstId} {before : List InstId} (hπ : f.Path π b) (hi : i ∈ (f.block b).insts)
    (hb : i ∉ before) : ¬f.Available b before i := by
  intro h
  obtain ⟨π', hπ', hb', -⟩ := hπ.exists_first
  rcases h π' hπ' with hi' | ⟨c, hc, hi'⟩
  · exact hb hi'
  · have hl := hπ'.mem_layout hv
    rw [block_unique hn hl.1 (hl.2 c hc) hi hi'] at hb'
    exact hb' hc

namespace WellFormed

variable (h : f.WellFormed)

include h

theorem toVerified : f.Verified := verify_eq_ok.1 h.verified

theorem block_nodup {b : BlockId} (hb : b ∈ f.layout) : (f.block b).insts.Nodup :=
  Func.block_nodup h.live_nodup hb

theorem not_available_self {π : List BlockId} {b : BlockId} {i : InstId} {before : List InstId}
    (hπ : f.Path π b) (hi : i ∈ (f.block b).insts) (hb : i ∉ before) :
    ¬f.Available b before i :=
  Func.not_available_self h.toVerified h.live_nodup hπ hi hb

end WellFormed

end ScalarLang.IR.Func
