import ScalarLang.IR.Pass.Promote
import ScalarLang.Proofs.IR.Replacement
import ScalarLang.Proofs.IR.Usage

/-! Promotion of slots. Once the entry block has made the only write to a slot, the slot holds the
value that was written for the rest of the run, and no read can come earlier. -/

namespace ScalarLang.IR

namespace Func

variable {f : Func}

/-- The entry block writes `v` to the slot before it reads it, and nothing else writes it. -/
structure WrittenOnce (f : Func) (s : SlotId) (store : InstId) (v : Operand) : Prop where
  op : f.op store = .store s v
  entry : ∃ e l r, f.entry? = some e ∧ (f.block e).insts = l ++ store :: r ∧
    ∀ j ∈ l, f.op j ≠ .load s
  unique {i : InstId} {x : Operand} : i ∈ f.live → f.op i = .store s x → i = store

namespace WrittenOnce

variable {s : SlotId} {store : InstId} {v : Operand}

/-- The value is computed in the entry block before it is written, so no read of the slot is it. -/
theorem mem_entry (h : f.WrittenOnce s store v) (hf : f.WellFormed) {e : BlockId}
    (he : f.entry? = some e) {l r : List InstId} (hl : (f.block e).insts = l ++ store :: r)
    {j : InstId} (hj : v = .inst j) : j ∈ l := by
  have hp : ¬(f.op store).isPhi := by simp [h.op, Operation.isPhi]
  have ha := hf.dominated_inst (entry_mem_layout he) hl hp (v := v)
    (by simp [h.op, Operation.operands])
  rcases ha j hj [] (.entry he) with hm | ⟨c, hc, -⟩
  · exact hm
  · cases hc

theorem ne_load (h : f.WrittenOnce s store v) (hf : f.WellFormed) {i : InstId}
    (hi : f.op i = .load s) : v ≠ .inst i := by
  intro hv
  obtain ⟨e, l, r, he, hl, hload⟩ := h.entry
  exact hload i (h.mem_entry hf he hl hv) hi

/-- Behind the write the slot holds the value. -/
def Holds (f : Func) (s : SlotId) (store : InstId) (v : Operand) (st : State) : Prop :=
  ∀ before, (f.block st.block).insts = before ++ st.rest →
    (f.entry? = some st.block → store ∈ before) → st.env.slots s = st.env.value v

/-- The run begins before the write. -/
theorem holds_start (h : f.WrittenOnce s store v) (hf : f.WellFormed) {e : BlockId}
    (he : f.entry? = some e) (args : List Float) : Holds f s store v (f.startState args) := by
  intro before hb hpast
  rw [startState_of_entry he] at hb hpast
  rw [hf.toVerified.insts_eq (entry_mem_layout he), List.append_cancel_right_eq] at hb
  have := (mem_phis.1 (hb ▸ hpast he)).2
  simp [h.op, Operation.isPhi] at this

/-- Behind the write the value is not computed again. -/
theorem ne_inst_of_past (h : f.WrittenOnce s store v) (hf : f.WellFormed) {b : BlockId}
    (hb : b ∈ f.layout) {j : InstId} {before rest : List InstId}
    (hl : (f.block b).insts = before ++ j :: rest)
    (hpast : f.entry? = some b → store ∈ before) : v ≠ .inst j := by
  intro hvj
  obtain ⟨e, l, r, he, hle, -⟩ := h.entry
  have hel := entry_mem_layout he
  have hj := h.mem_entry hf he hle hvj
  obtain rfl : e = b :=
    block_unique hf.live_nodup hel hb (by rw [hle]; exact List.mem_append_left _ hj) (by simp [hl])
  have hn := hf.block_nodup hel
  obtain ⟨l₁, l₂, rfl⟩ := List.append_of_mem hj
  have hsplit : l₁ ++ j :: (l₂ ++ store :: r) = before ++ j :: rest := by
    rw [← hl, hle]
    simp
  obtain ⟨rfl, -⟩ := split_unique (hl ▸ hn) hsplit.symm
  exact not_mem_of_nodup hn hle (List.mem_append_left _ (hpast he))

theorem holds_inst (h : f.WrittenOnce s store v) (hf : f.WellFormed) {st : State}
    (hloc : f.Located st) (ih : Holds f s store v st) {j : InstId} {rest : List InstId}
    {env' : Env} (hr : st.rest = j :: rest) (hex : f.Executed j st.env env') :
    Holds f s store v ⟨st.block, rest, env'⟩ := by
  intro before hb hpast
  obtain ⟨before, rfl, hb'⟩ := hloc.exists_before hr hb
  by_cases hj : j = store
  · -- this is the write
    subst hj
    have heq := hex.eq_evalOp (by simp [h.op])
    rw [h.op] at heq
    simp only [heq, evalOp, Env.value_setSlot]
    exact if_pos rfl
  · have hpast' : f.entry? = some st.block → store ∈ before := fun hes => by
      simpa [Ne.symm hj] using hpast hes
    have hjl : j ∈ f.live := mem_live.2 ⟨_, hloc.mem_layout, by simp [hb', hr]⟩
    have hne := h.ne_inst_of_past hf hloc.mem_layout (hr ▸ hb') hpast'
    rw [hex.slots_of_ne fun x ho => hj (h.unique hjl ho), hex.value_of_ne hne]
    exact ih before hb' hpast'

/-- The entry block is left behind the write, and never entered. -/
theorem holds_enter (h : f.WrittenOnce s store v) (hf : f.WellFormed) {st : State}
    (hloc : f.Located st) (ih : Holds f s store v st) {c : BlockId}
    (hc : c ∈ f.successors st.block) (hr : st.rest = []) :
    Holds f s store v (f.enter st.block c st.env) := by
  intro _ _ _
  obtain ⟨e, l, r, he, hl, -⟩ := h.entry
  have hold : st.env.slots s = st.env.value v := by
    refine ih (f.block st.block).insts (by simp [hr]) fun hes => ?_
    obtain rfl : e = st.block := Option.some.inj (he.symm.trans hes)
    simp [hl]
  have hce : f.entry? ≠ some c := by
    intro hce
    have := mem_preds.2 ⟨hloc.mem_layout, hc⟩
    simp [hf.entry_preds hce] at this
  have hcl := hf.toVerified.successor_mem hloc.mem_layout hc
  have hvc : ∀ j, v = .inst j → j ∉ f.phis c := by
    intro j hj hjc
    obtain ⟨before, after, hb⟩ := List.append_of_mem (mem_phis.1 hjc).1
    exact h.ne_inst_of_past hf hcl hb (fun he => (hce he).elim) hj
  exact hold.trans (value_enterEnv hvc).symm

theorem slots_eq (h : f.WrittenOnce s store v) (hf : f.WellFormed) {args : List Float} {st : State}
    (hs : (f.process args).Reachable st) {before : List InstId}
    (hb : (f.block st.block).insts = before ++ st.rest)
    (hpast : f.entry? = some st.block → store ∈ before) : st.env.slots s = st.env.value v := by
  obtain ⟨e, -, -, he, -⟩ := h.entry
  refine Process.Reachable.invariant (P := Holds f s store v) (h.holds_start hf he args)
    (fun st hs ih => ?_) hs before hb hpast
  have hloc := located_of_reachable hf.toVerified he hs
  exact keeps_step (fun _ _ _ hr hex => h.holds_inst hf hloc ih hr hex)
    fun _ hc hr => h.holds_enter hf hloc ih hc hr

/-- So every read of the slot yields the value. -/
theorem replaceable (h : f.WrittenOnce s store v) (hf : f.WellFormed) {i : InstId}
    (hi : f.op i = .load s) : f.Replaceable i v := by
  have hp : ¬(f.op i).isPhi := by simp [hi, Operation.isPhi]
  obtain ⟨e, l, r, he, hl, hload⟩ := h.entry
  have hel := entry_mem_layout he
  -- in the entry block the read comes behind the write
  have behind {before after : List InstId} (hb : (f.block e).insts = before ++ i :: after) :
      (∀ j ∈ l, j ∈ before) ∧ store ∈ before := by
    rw [hl] at hb
    rcases List.append_eq_append_iff.1 hb with ⟨m, rfl, hm⟩ | ⟨m, rfl, hm⟩
    · rcases List.cons_eq_append_iff.1 hm with ⟨rfl, hm⟩ | ⟨m', rfl, -⟩
      · cases hm
        simp [h.op] at hi
      · exact ⟨fun j hj => by simp [hj], by simp⟩
    · rcases List.cons_eq_append_iff.1 hm with ⟨rfl, hm⟩ | ⟨m', rfl, -⟩
      · cases hm
        simp [h.op] at hi
      · exact absurd hi (hload i (by simp))
  exact {
    ne := h.ne_load hf hi
    fits := by
      rintro type ⟨-, -, ht⟩
      obtain rfl : type = .double := by simpa [hi, Operation.type?] using ht.symm
      exact hf.toVerified.fits_inst hel (i := store) (by simp [hl])
        (by simp [h.op, Operation.typedOperands, Operation.operands])
    available := by
      rintro b before after - hb j hj π hπ
      rw [if_neg hp]
      have hjl := h.mem_entry hf he hl hj
      rcases hπ.entry_mem he with ⟨rfl, -⟩ | hmem
      · exact .inl ((behind hb).1 j hjl)
      · exact .inr ⟨e, hmem, by simp [hl, hjl]⟩
    not_entry := fun _ hm => hp (mem_phis.1 hm).2
    inst := by
      intro args st rest env' hs hr hex
      have hloc := located_of_reachable hf.toVerified he hs
      obtain ⟨before, hb⟩ := hloc.suffix
      rw [hex.eq_evalOp (by simp [hi]), hi]
      simp only [evalOp, Env.results_setResult_self]
      refine h.slots_eq hf hs hb fun hes => ?_
      obtain rfl : e = st.block := Option.some.inj (he.symm.trans hes)
      exact (behind (hr ▸ hb)).2
    phi := fun _ _ _ hm => absurd (mem_phis.1 hm).2 hp }

/-- Replacing a read leaves the others as they are. -/
theorem replaceUses (h : f.WrittenOnce s store v) (hf : f.WellFormed) {i : InstId}
    (hi : f.op i = .load s) : (f.replaceUses i v).WrittenOnce s store v where
  op := by
    rw [Func.replaceUses, op_mapOperands, h.op, Operation.mapOperands,
      if_neg (h.ne_load hf hi)]
  entry := by
    obtain ⟨e, l, r, he, hl, hload⟩ := h.entry
    refine ⟨e, l, r, he, ((sameFlow_mapOperands f _).insts e).trans hl, fun j hj ho => ?_⟩
    rw [Func.replaceUses, op_mapOperands] at ho
    exact hload j hj (Operation.mapOperands_eq_load ho)
  unique {j x} hj ho := by
    rw [Func.replaceUses, (sameFlow_mapOperands f _).live] at hj
    rw [Func.replaceUses, op_mapOperands] at ho
    obtain ⟨y, ho, -⟩ := Operation.mapOperands_eq_store ho
    exact h.unique hj ho

end WrittenOnce

end Func

namespace Promote

variable {f : Func}

theorem firstStore_eq_some {s : SlotId} {insts : List InstId} {store : InstId} {v : Operand}
    (h : firstStore f s insts = some (store, v)) : f.op store = .store s v ∧
      ∃ l r, insts = l ++ store :: r ∧ ∀ j ∈ l, f.op j ≠ .load s := by
  induction insts with
  | nil => cases h
  | cons i rest ih =>
    have skip (hi : f.op i ≠ .load s) (h : firstStore f s rest = some (store, v)) :
        f.op store = .store s v ∧ ∃ l r, i :: rest = l ++ store :: r ∧
          ∀ j ∈ l, f.op j ≠ .load s := by
      obtain ⟨ho, l, r, rfl, hl⟩ := ih h
      exact ⟨ho, i :: l, r, rfl, List.forall_mem_cons.2 ⟨hi, hl⟩⟩
    unfold firstStore at h
    split at h
    · next s' ho =>
      split at h
      · cases h
      · next hne => exact skip (by simp [ho, hne]) h
    · next s' value ho =>
      split at h
      · next hs =>
        subst hs
        cases h
        exact ⟨ho, [], rest, rfl, nofun⟩
      · exact skip (by simp [ho]) h
    · next hl _ => exact skip (hl s) h

/-- Function `g` is `f` after some reads of the slot have been replaced. -/
structure Replaced (f g : Func) (s : SlotId) (store : InstId) (v : Operand)
    (reads : List InstId) : Prop where
  refines : f.Refines g
  live : g.live = f.live
  written : g.WrittenOnce s store v
  writesSlot (s : SlotId) (i : InstId) : g.writesSlot s i = f.writesSlot s i
  load (i : InstId) : g.op i = .load s ↔ f.op i = .load s
  unused {i : InstId} : i ∈ reads → .inst i ∉ g.usedOperands

theorem Replaced.step {g : Func} {s : SlotId} {store : InstId} {v : Operand}
    {reads : List InstId} (h : Replaced f g s store v reads) {i : InstId}
    (hi : f.op i = .load s) (hreads : ∀ j ∈ reads, f.op j = .load s) :
    Replaced f (g.replaceUses i v) s store v (i :: reads) := by
  have hg := h.refines.wellFormed
  have hi := (h.load i).2 hi
  have hr := h.written.replaceable hg hi
  exact {
    refines := h.refines.trans (hr.refines hg)
    live := (Func.sameFlow_mapOperands g _).live.trans h.live
    written := h.written.replaceUses hg hi
    writesSlot := fun s j => by
      rw [← h.writesSlot, Func.writesSlot, Func.replaceUses, Func.op_mapOperands, Func.writesSlot]
      cases g.op j <;> rfl
    load := fun j => by
      rw [← h.load j, Func.replaceUses, Func.op_mapOperands]
      exact ⟨Operation.mapOperands_eq_load, fun ho => by rw [ho, Operation.mapOperands]⟩
    unused := fun hj => by
      rcases List.mem_cons.1 hj with rfl | hj
      · exact Func.not_used_replaceUses_self hr.ne
      · have hload := (h.load _).2 (hreads _ hj)
        exact Func.not_used_replaceUses (h.written.ne_load hg hload) (h.unused hj) }

theorem Replaced.foldl {g : Func} {s : SlotId} {store : InstId} {v : Operand}
    {done reads : List InstId} (h : Replaced f g s store v done)
    (hdone : ∀ i ∈ done, f.op i = .load s) (hreads : ∀ i ∈ reads, f.op i = .load s) :
    Replaced f (reads.foldl (fun f i => f.replaceUses i v) g) s store v
      (reads.reverse ++ done) := by
  induction reads generalizing g done with
  | nil => exact h
  | cons i reads ih =>
    rw [List.forall_mem_cons] at hreads
    rw [List.reverse_cons, List.append_assoc]
    exact ih (h.step hreads.1 hdone) (List.forall_mem_cons.2 ⟨hreads.1, hdone⟩) hreads.2

theorem Replaced.removable {g : Func} {s : SlotId} {store : InstId} {v : Operand}
    {reads : List InstId} (h : Replaced f g s store v reads)
    (hreads : ∀ i, i ∈ reads ↔ i ∈ f.live ∧ f.op i = .load s) : g.Removable (store :: reads) where
  unused hi := by
    rcases List.mem_cons.1 hi with rfl | hi
    · exact h.refines.wellFormed.toVerified.store_not_used h.written.op
    · exact h.unused hi
  kind {i} hi hl := by
    rcases List.mem_cons.1 hi with rfl | hi
    · refine .inr ⟨s, v, h.written.op, fun j hj ho => List.mem_cons_of_mem _ ?_⟩
      exact (hreads j).2 ⟨h.live ▸ hj, (h.load j).1 ho⟩
    · exact .inl (by simp [(h.load i).2 ((hreads i).1 hi).2, Operation.isPure])

/-- How often each slot is written does not grow. -/
structure Promoted (f g : Func) : Prop where
  refines : f.Refines g
  writes (s : SlotId) : g.live.countP (g.writesSlot s) ≤ f.live.countP (f.writesSlot s)

theorem eq_of_countP_le_one {l : List InstId} {p : InstId → Bool} (h : l.countP p ≤ 1)
    {i j : InstId} (hi : i ∈ l) (hpi : p i) (hj : j ∈ l) (hpj : p j) : i = j := by
  rw [List.countP_eq_length_filter] at h
  have hi := List.mem_filter.2 ⟨hi, hpi⟩
  have hj := List.mem_filter.2 ⟨hj, hpj⟩
  match l.filter p, h, hi, hj with
  | [k], _, hi, hj => rw [List.mem_singleton.1 hi, List.mem_singleton.1 hj]

theorem slot_promoted (hf : f.WellFormed) {e : BlockId} (he : f.entry? = some e) {s : SlotId}
    (hs : f.live.countP (f.writesSlot s) ≤ 1) {g : Func} (h : slot f e s = some g) :
    Promoted f g := by
  obtain ⟨⟨store, v⟩, hfirst, rfl⟩ := Option.map_eq_some_iff.1 h
  obtain ⟨ho, l, r, hl, hload⟩ := firstStore_eq_some hfirst
  have hlive : store ∈ f.live := Func.mem_live.2 ⟨e, Func.entry_mem_layout he, by simp [hl]⟩
  have hw : f.WrittenOnce s store v := {
    op := ho
    entry := ⟨e, l, r, he, hl, hload⟩
    unique := fun hi hop => eq_of_countP_le_one hs hi (by simp [Func.writesSlot, hop]) hlive
      (by simp [Func.writesSlot, ho]) }
  have hmem {i : InstId} : i ∈ loads f s ↔ i ∈ f.live ∧ f.op i = .load s := by
    simp [loads]
  have h₀ : Replaced f f s store v [] :=
    ⟨.refl hf, rfl, hw, fun _ _ => rfl, fun _ => .rfl, by simp⟩
  have hr := h₀.foldl (by simp) fun i (hi : i ∈ loads f s) => (hmem.1 hi).2
  have hr : Replaced f _ s store v (loads f s) := { hr with
    unused := fun hi => hr.unused (by simpa using hi) }
  have hrem := hr.removable fun i => hmem
  exact {
    refines := hr.refines.trans (hrem.refines hr.refines.wellFormed)
    writes := fun s' => by
      rw [Func.live_removeInsts, hr.live, ← funext (hr.writesSlot s')]
      exact List.filter_sublist.countP_le }

theorem foldl_promoted {e : BlockId} (he : f.entry? = some e) {g : Func}
    (h : Promoted f g) (changed : Bool) {slots : List SlotId}
    (hs : ∀ s ∈ slots, f.live.countP (f.writesSlot s) ≤ 1) :
    Promoted f (slots.foldl (fun (f, changed) s => match slot f e s with
      | some f => (f, true)
      | none => (f, changed)) (g, changed)).1 := by
  induction slots generalizing g changed with
  | nil => exact h
  | cons s slots ih =>
    rw [List.forall_mem_cons] at hs
    rw [List.foldl_cons]
    cases hg : slot g e s with
    | none => simpa only [hg] using ih h changed hs.2
    | some g' =>
      have := slot_promoted h.refines.wellFormed (h.refines.entry?.trans he)
        ((h.writes s).trans hs.1) hg
      simpa only [hg] using ih ⟨h.refines.trans this.refines, fun s' =>
        (this.writes s').trans (h.writes s')⟩ true hs.2

theorem run_refines (hf : f.WellFormed) : f.Refines (run f).1 := by
  unfold run
  split
  · exact .refl hf
  · next e he =>
    refine (foldl_promoted he ⟨.refl hf, fun _ => Nat.le_refl _⟩ false fun s hs => ?_).refines
    simp only [candidates, List.mem_filter, List.mem_range, decide_eq_true_eq] at hs
    rw [Func.slotUsage_getD hs.1] at hs
    exact hs.2.1.le

end Promote

end ScalarLang.IR
