import ScalarLang.Proofs.IR.Edits
import ScalarLang.Proofs.IR.Refinement

/-! Moving the code of a block to the end of its only predecessor. Both functions carry out the same
instructions with the same values; the jump from one block to the other is gone. -/

namespace ScalarLang.IR

namespace Func

variable {f g : Func} {p b : BlockId}

/-- Control comes to block `b` only by a jump at the end of `p`. -/
structure SolePred (f : Func) (p b : BlockId) : Prop where
  ne : p ≠ b
  block_mem : b ∈ f.layout
  pred_mem : p ∈ f.layout
  not_entry : f.entry? ≠ some b
  jump : (f.block p).terminator = some (.br b)
  /-- No other block leads to `b`. -/
  only {c : BlockId} : c ∈ f.layout → b ∈ f.successors c → c = p

/-- Function `g` is `f` with the code of `b` at the end of `p`. -/
structure Merged (f g : Func) (p b : BlockId) : Prop extends f.SolePred p b where
  no_phi {i : InstId} : i ∈ (f.block b).insts → ¬(f.op i).isPhi
  sizes : SameSizes f g
  layout : g.layout = f.layout.filter (· ≠ b)
  insts_pred : (g.block p).insts = (f.block p).insts ++ (f.block b).insts
  terminator_pred : (g.block p).terminator = (f.block b).terminator
  insts {c : BlockId} : c ∈ g.layout → c ≠ p → (g.block c).insts = (f.block c).insts
  terminator {c : BlockId} : c ∈ g.layout → c ≠ p →
    (g.block c).terminator = (f.block c).terminator
  op {i : InstId} : i ∈ f.live → g.op i = Simplify.renameSource b p (f.op i)

namespace SolePred

variable (h : f.SolePred p b)

include h

theorem successors_pred : f.successors p = [b] := by
  simp [successors, h.jump, Terminator.successors]

theorem not_successor_self : b ∉ f.successors b := fun hs => h.ne (h.only h.block_mem hs).symm

theorem of_sameFlow (hs : SameFlow f g) (hj : (g.block p).terminator = some (.br b)) :
    g.SolePred p b where
  ne := h.ne
  block_mem := hs.layout ▸ h.block_mem
  pred_mem := hs.layout ▸ h.pred_mem
  not_entry := hs.entry? ▸ h.not_entry
  jump := hj
  only hc hb := h.only (hs.layout ▸ hc) (hs.successors _ ▸ hb)

/-- The end of `p` leads nowhere else. -/
theorem ne_pred {c d : BlockId} (hd : d ∈ f.successors c) (hdb : d ≠ b) : c ≠ p := by
  rintro rfl
  rw [h.successors_pred, List.mem_singleton] at hd
  exact hdb hd

end SolePred

@[simp] theorem isPhi_renameSource (b p : BlockId) (op : Operation) :
    (Simplify.renameSource b p op).isPhi = op.isPhi := by
  cases op <;> rfl

@[simp] theorem type?_renameSource (b p : BlockId) (op : Operation) :
    (Simplify.renameSource b p op).type? = op.type? := by
  cases op <;> rfl

@[simp] theorem slot?_renameSource (b p : BlockId) (op : Operation) :
    (Simplify.renameSource b p op).slot? = op.slot? := by
  cases op <;> rfl

@[simp] theorem typedOperands_renameSource (b p : BlockId) (op : Operation) :
    (Simplify.renameSource b p op).typedOperands = op.typedOperands := by
  cases op <;> simp [Simplify.renameSource, Operation.typedOperands, Operation.operands]

theorem renameSource_of_not_phi (b p : BlockId) {op : Operation} (h : ¬op.isPhi) :
    Simplify.renameSource b p op = op := by
  cases op <;> simp_all [Simplify.renameSource, Operation.isPhi]

/-- The block whose code block `c` has become part of. -/
def mergedInto (p b c : BlockId) : BlockId := if c = b then p else c

theorem mergedInto_self (p b : BlockId) : mergedInto p b b = p := if_pos rfl

theorem mergedInto_of_ne {c : BlockId} (h : c ≠ b) : mergedInto p b c = c := if_neg h

/-- What comes before a place of block `c` when its code has been moved. -/
def moved (f : Func) (p b c : BlockId) (before : List InstId) : List InstId :=
  if c = b then (f.block p).insts ++ before else before

/-- The state after the move that belongs to one before it. -/
def follow (f : Func) (p b : BlockId) (s : State) : State :=
  ⟨mergedInto p b s.block, if s.block = p then s.rest ++ (f.block b).insts else s.rest, s.env⟩

/-- A way through `p` and then `b` for one through `p`. -/
def unmerge (p b : BlockId) (π : List BlockId) : List BlockId :=
  π.flatMap fun c => if c = p then [b, p] else [c]

theorem incoming?_mergedInto {incoming : List (Operand × BlockId)} {c : BlockId}
    (hinj : ∀ x ∈ incoming, mergedInto p b x.2 = mergedInto p b c → x.2 = c) :
    incoming? (incoming.map fun x => (x.1, mergedInto p b x.2)) (mergedInto p b c) =
      incoming? incoming c := by
  induction incoming with
  | nil => rfl
  | cons x incoming ih =>
    rw [List.forall_mem_cons] at hinj
    have ih := ih hinj.2
    simp only [incoming?, List.map_cons, List.find?_cons] at ih ⊢
    by_cases hx : x.2 = c
    · simp [hx]
    · simpa [hx, mt hinj.1 hx] using ih

theorem renameSource_eq_phi {op : Operation} {incoming : List (Operand × BlockId)}
    (h : Simplify.renameSource b p op = .phi incoming) : ∃ incoming', op = .phi incoming' ∧
      incoming = incoming'.map fun x => (x.1, mergedInto p b x.2) := by
  cases op <;> simp only [Simplify.renameSource, reduceCtorEq, Operation.phi.injEq] at h
  exact ⟨_, rfl, h.symm⟩

namespace Merged

variable (h : f.Merged g p b)

include h

theorem mem_layout {c : BlockId} : c ∈ g.layout ↔ c ∈ f.layout ∧ c ≠ b := by
  simp [h.layout]

theorem pred_mem_layout : p ∈ g.layout := (h.mem_layout).2 ⟨h.pred_mem, h.ne⟩

theorem entry? : g.entry? = f.entry? := by
  have hb := h.not_entry
  rw [Func.entry?] at hb
  rw [Func.entry?, h.layout, Func.entry?]
  cases hl : f.layout with
  | nil => rfl
  | cons e rest =>
    rw [hl] at hb
    rw [List.filter_cons_of_pos (by simpa using hb)]
    rfl

theorem successors_pred_eq : g.successors p = f.successors b := by
  rw [successors, h.terminator_pred, successors]

theorem successors_of_ne {c : BlockId} (hc : c ∈ g.layout) (hcp : c ≠ p) :
    g.successors c = f.successors c := by
  rw [Func.successors, h.terminator hc hcp, Func.successors]

/-- Each edge of `g` is one of `f`, where what left `b` leaves `p`. -/
theorem mem_successors {c d : BlockId} (hc : c ∈ g.layout) : d ∈ g.successors c ↔
    ∃ c', mergedInto p b c' = c ∧ c' ∈ f.layout ∧ d ∈ f.successors c' ∧ d ≠ b := by
  have hcb := ((h.mem_layout).1 hc).2
  by_cases hcp : c = p
  · subst hcp
    rw [h.successors_pred_eq]
    constructor
    · intro hd
      refine ⟨b, if_pos rfl, h.block_mem, hd, ?_⟩
      rintro rfl
      exact h.not_successor_self hd
    · rintro ⟨c', hc', -, hd, hdb⟩
      have hne := h.ne_pred hd hdb
      unfold mergedInto at hc'
      split at hc'
      · next he => exact he ▸ hd
      · exact absurd hc' hne
  · rw [h.successors_of_ne hc hcp]
    constructor
    · intro hd
      refine ⟨c, if_neg hcb, ((h.mem_layout).1 hc).1, hd, ?_⟩
      rintro rfl
      exact hcp (h.only ((h.mem_layout).1 hc).1 hd)
    · rintro ⟨c', rfl, -, hd, -⟩
      unfold mergedInto at hcp ⊢
      split at hcp
      · exact absurd rfl hcp
      · next hne => rwa [if_neg hne]

theorem mergedInto_mem {c : BlockId} (hc : c ∈ f.layout) : mergedInto p b c ∈ g.layout := by
  unfold mergedInto
  split
  · exact h.pred_mem_layout
  · next hne => exact h.mem_layout.2 ⟨hc, hne⟩

theorem successor_mem (hv : f.Verified) {c d : BlockId} (hc : c ∈ g.layout)
    (hd : d ∈ g.successors c) : d ∈ g.layout := by
  obtain ⟨c', -, hc', hd, hdb⟩ := (h.mem_successors hc).1 hd
  exact h.mem_layout.2 ⟨hv.successor_mem hc' hd, hdb⟩

/-! ### Places -/

theorem mem_insts_of_mem {c : BlockId} (hc : c ∈ f.layout) {i : InstId}
    (hi : i ∈ (f.block c).insts) : i ∈ (g.block (mergedInto p b c)).insts := by
  unfold mergedInto
  split
  · next hcb => simp [h.insts_pred, ← hcb, hi]
  · next hcb =>
    by_cases hcp : c = p
    · subst hcp
      simp [h.insts_pred, hi]
    · rwa [h.insts (h.mem_layout.2 ⟨hc, hcb⟩) hcp]

/-- Every instruction of `g` stands where it stood in `f`. -/
theorem exists_place {c : BlockId} {i : InstId} {before after : List InstId} (hc : c ∈ g.layout)
    (hl : (g.block c).insts = before ++ i :: after) :
    ∃ c' before' after', c' ∈ f.layout ∧ mergedInto p b c' = c ∧
      (f.block c').insts = before' ++ i :: after' ∧ moved f p b c' before' = before := by
  have hcf := h.mem_layout.1 hc
  by_cases hcp : c = p
  · subst hcp
    rw [h.insts_pred] at hl
    rcases List.append_eq_append_iff.1 hl with ⟨m, rfl, hm⟩ | ⟨m, hm, hm'⟩
    · exact ⟨b, m, after, h.block_mem, if_pos rfl, hm, if_pos rfl⟩
    · rcases List.cons_eq_append_iff.1 hm' with ⟨rfl, hm'⟩ | ⟨m, rfl, -⟩
      · refine ⟨b, [], after, h.block_mem, if_pos rfl, by simpa using hm'.symm, ?_⟩
        simpa [moved] using hm
      · exact ⟨c, before, m, hcf.1, if_neg hcf.2, hm, if_neg hcf.2⟩
  · rw [h.insts hc hcp] at hl
    exact ⟨c, before, after, hcf.1, if_neg hcf.2, hl, if_neg hcf.2⟩

theorem mem_live {i : InstId} : i ∈ g.live ↔ i ∈ f.live := by
  simp only [Func.mem_live]
  constructor
  · rintro ⟨c, hc, hi⟩
    obtain ⟨l, r, hl⟩ := List.append_of_mem hi
    obtain ⟨c', l', r', hc', -, hl', -⟩ := h.exists_place hc hl
    exact ⟨c', hc', by simp [hl']⟩
  · rintro ⟨c, hc, hi⟩
    exact ⟨_, h.mergedInto_mem hc, h.mem_insts_of_mem hc hi⟩

/-- Phis are not moved. -/
theorem phi {c : BlockId} {i : InstId} {incoming : List (Operand × BlockId)} (hc : c ∈ g.layout)
    (hi : i ∈ (g.block c).insts) (ho : g.op i = .phi incoming) : i ∈ (f.block c).insts ∧
      ∃ incoming', f.op i = .phi incoming' ∧
        incoming = incoming'.map fun x => (x.1, mergedInto p b x.2) := by
  obtain ⟨l, r, hl⟩ := List.append_of_mem hi
  obtain ⟨c', l', r', hc', rfl, hl', -⟩ := h.exists_place hc hl
  have hi' : i ∈ (f.block c').insts := by simp [hl']
  rw [h.op (Func.mem_live.2 ⟨c', hc', hi'⟩)] at ho
  obtain ⟨incoming', ho', rfl⟩ := renameSource_eq_phi ho
  refine ⟨?_, incoming', ho', rfl⟩
  have hcb : c' ≠ b := by
    rintro rfl
    exact h.no_phi hi' (by simp [ho', Operation.isPhi])
  rwa [mergedInto, if_neg hcb]

/-! ### Ways -/

theorem path (hv : f.Verified) {π : List BlockId} {c : BlockId} (hπ : g.Path π c) :
    f.Path (unmerge p b π) c ∧ c ∈ g.layout ∧ ∀ d ∈ π, d ∈ g.layout := by
  induction hπ with
  | entry he => exact ⟨.entry (h.entry?.symm.trans he), entry_mem_layout he, nofun⟩
  | @step π d c _ hc ih =>
    obtain ⟨hπ, hd, hall⟩ := ih
    refine ⟨?_, h.successor_mem hv hd hc, List.forall_mem_cons.2 ⟨hd, hall⟩⟩
    by_cases hdp : d = p
    · subst hdp
      rw [h.successors_pred_eq] at hc
      have hb : f.Path (d :: unmerge d b π) b := hπ.step (by simp [h.successors_pred])
      simpa [unmerge] using hb.step hc
    · rw [h.successors_of_ne hd hdp] at hc
      simpa [unmerge, hdp] using hπ.step hc

theorem exists_mem_insts {π : List BlockId} (hall : ∀ d ∈ π, d ∈ g.layout) {i : InstId}
    (hi : ∃ d ∈ unmerge p b π, i ∈ (f.block d).insts) : ∃ d ∈ π, i ∈ (g.block d).insts := by
  obtain ⟨d, hd, hi⟩ := hi
  obtain ⟨c, hc, hd⟩ := List.mem_flatMap.1 hd
  have hcf := h.mem_layout.1 (hall c hc)
  refine ⟨c, hc, ?_⟩
  split at hd
  · next hcp =>
    rw [hcp, h.insts_pred]
    simp only [List.mem_cons, List.not_mem_nil, or_false] at hd
    rcases hd with rfl | rfl <;> simp [hi]
  · next hcp =>
    rw [h.insts (hall c hc) hcp]
    simp only [List.mem_cons, List.not_mem_nil, or_false] at hd
    exact hd ▸ hi

/-- What is available at a place is available there when the place has moved. -/
theorem available (hv : f.Verified) {c : BlockId} {before : List InstId} {i : InstId}
    (ha : f.Available c before i) : g.Available (mergedInto p b c) (moved f p b c before) i := by
  intro π hπ
  obtain ⟨hπ, -, hall⟩ := h.path hv hπ
  unfold mergedInto at hπ
  unfold moved
  split at hπ
  · next hcb =>
    subst hcb
    rw [if_pos rfl, List.mem_append]
    rcases ha _ (hπ.step (by simp [h.successors_pred])) with hi | ⟨d, hd, hi⟩
    · exact .inl (.inr hi)
    · rcases List.mem_cons.1 hd with rfl | hd
      · exact .inl (.inl hi)
      · exact .inr (h.exists_mem_insts hall ⟨d, hd, hi⟩)
  · next hcb =>
    rw [if_neg hcb]
    exact (ha _ hπ).imp_right (h.exists_mem_insts hall)

theorem available_end (hv : f.Verified) {c : BlockId} (hc : c ∈ f.layout) {v : Operand}
    (ha : f.AvailableOperand c (f.block c).insts v) :
    g.AvailableOperand (mergedInto p b c) (g.block (mergedInto p b c)).insts v := by
  intro i hi
  refine (h.available hv (ha i hi)).mono fun j hj => ?_
  unfold moved at hj
  split at hj
  · next hcb =>
    subst hcb
    rwa [mergedInto, if_pos rfl, h.insts_pred]
  · exact h.mem_insts_of_mem hc hj

/-! ### Well-formed functions -/

theorem fits {v : Operand} {type : Ty} (hv : f.Fits v type) : g.Fits v type := by
  cases v with
  | inst i =>
    obtain ⟨hl, hi, ht⟩ := hv
    refine ⟨h.mem_live.2 hl, h.sizes.insts ▸ hi, ?_⟩
    rw [h.op hl, type?_renameSource, ht]
  | arg n => exact ⟨by simpa only [arity, h.sizes.params] using hv.1, hv.2⟩
  | const _ => exact hv
  | bool _ => exact hv

/-- The terminators of `g` are those of `f`, but for the jump that is gone. -/
theorem exists_terminator {c : BlockId} (hc : c ∈ g.layout) :
    ∃ c' ∈ f.layout, mergedInto p b c' = c ∧
      (g.block c).terminator = (f.block c').terminator := by
  by_cases hcp : c = p
  · subst hcp
    exact ⟨b, h.block_mem, if_pos rfl, h.terminator_pred⟩
  · obtain ⟨hcf, hcb⟩ := h.mem_layout.1 hc
    exact ⟨c, hcf, if_neg hcb, h.terminator hc hcp⟩

/-- Different sources of a phi stay different. -/
theorem mergedInto_inj {c d d' : BlockId} (hcb : c ≠ b) (hd : c ∈ f.successors d)
    (hd' : c ∈ f.successors d') (he : mergedInto p b d = mergedInto p b d') : d = d' := by
  have hdp := h.ne_pred hd hcb
  have hdp' := h.ne_pred hd' hcb
  unfold mergedInto at he
  grind

theorem phi_sources (hv : f.Verified) {c : BlockId} {i : InstId}
    {incoming : List (Operand × BlockId)} (hc : c ∈ g.layout) (hi : i ∈ (g.block c).insts)
    (ho : g.op i = .phi incoming) : (incoming.map (·.2)).Perm (g.preds c) := by
  obtain ⟨hi, incoming, ho', rfl⟩ := h.phi hc hi ho
  obtain ⟨hcf, hcb⟩ := h.mem_layout.1 hc
  have hsources {q : BlockId} := hv.mem_sources (p := q) hcf hi ho'
  have hn := (hv.phi_sources hcf hi ho').nodup_iff.2 (f.preds_nodup c)
  rw [List.map_map, show (·.2) ∘ (fun x : Operand × BlockId => (x.1, mergedInto p b x.2)) =
    mergedInto p b ∘ (·.2) from rfl, ← List.map_map]
  refine perm_preds (hn.map_on fun x hx y hy he => ?_) fun q => ?_
  · exact h.mergedInto_inj hcb (hsources.1 hx).2 (hsources.1 hy).2 he
  · rw [List.mem_map]
    constructor
    · rintro ⟨x, hx, rfl⟩
      obtain ⟨hx, hs⟩ := hsources.1 hx
      have hm := h.mergedInto_mem hx
      exact ⟨hm, (h.mem_successors hm).2 ⟨x, rfl, hx, hs, hcb⟩⟩
    · rintro ⟨hq, hs⟩
      obtain ⟨x, rfl, hx, hs, -⟩ := (h.mem_successors hq).1 hs
      exact ⟨x, hsources.2 ⟨hx, hs⟩, rfl⟩

theorem verified (hv : f.Verified) : g.Verified where
  block_lt hc := h.sizes.blocks ▸ hv.block_lt (h.mem_layout.1 hc).1
  terminated hc := by
    obtain ⟨c', hc', -, ht⟩ := h.exists_terminator hc
    exact ht ▸ hv.terminated hc'
  successor_mem := h.successor_mem hv
  inst_lt hc hi := by
    obtain ⟨c', hc', hi⟩ := Func.mem_live.1 (h.mem_live.1 (Func.mem_live.2 ⟨_, hc, hi⟩))
    exact h.sizes.insts ▸ hv.inst_lt hc' hi
  phis_first {c} hc := by
    have isPhi {d : BlockId} {i : InstId} (hd : d ∈ f.layout) (hi : i ∈ (f.block d).insts) :
        (g.op i).isPhi = (f.op i).isPhi := by
      rw [h.op (Func.mem_live.2 ⟨d, hd, hi⟩), isPhi_renameSource]
    have same {d : BlockId} (hd : d ∈ f.layout) :
        (f.block d).insts.Pairwise fun i j => (g.op j).isPhi → (g.op i).isPhi :=
      (hv.phis_first hd).imp_of_mem fun hi hj hp => by rwa [isPhi hd hi, isPhi hd hj]
    by_cases hcp : c = p
    · subst hcp
      rw [h.insts_pred, List.pairwise_append]
      refine ⟨same h.pred_mem, same h.block_mem, fun i _ j hj hp => ?_⟩
      rw [isPhi h.block_mem hj] at hp
      exact absurd hp (h.no_phi hj)
    · rw [h.insts hc hcp]
      exact same (h.mem_layout.1 hc).1
  phi_sources := h.phi_sources hv
  slot_lt hc hi hs := by
    have hl := h.mem_live.1 (Func.mem_live.2 ⟨_, hc, hi⟩)
    obtain ⟨c', hc', hi⟩ := Func.mem_live.1 hl
    rw [h.op hl, slot?_renameSource] at hs
    exact h.sizes.slots ▸ hv.slot_lt hc' hi hs
  fits_inst hc hi ht := by
    have hl := h.mem_live.1 (Func.mem_live.2 ⟨_, hc, hi⟩)
    obtain ⟨c', hc', hi⟩ := Func.mem_live.1 hl
    rw [h.op hl, typedOperands_renameSource] at ht
    exact h.fits (hv.fits_inst hc' hi ht)
  fits_terminator hc ht hp := by
    obtain ⟨c', hc', -, ht'⟩ := h.exists_terminator hc
    exact h.fits (hv.fits_terminator hc' (ht' ▸ ht) hp)

theorem wellFormed (hf : f.WellFormed) : g.WellFormed where
  verified := verify_eq_ok.2 (h.verified hf.toVerified)
  layout_nodup := by
    rw [h.layout]
    exact hf.layout_nodup.filter _
  live_nodup := by
    have place {c : BlockId} {i : InstId} (hc : c ∈ g.layout) (hi : i ∈ (g.block c).insts) :
        ∃ c' ∈ f.layout, mergedInto p b c' = c ∧ i ∈ (f.block c').insts := by
      obtain ⟨l, r, hl⟩ := List.append_of_mem hi
      obtain ⟨c', l', r', hc', he, hl', -⟩ := h.exists_place hc hl
      exact ⟨c', hc', he, by simp [hl']⟩
    refine live_nodup_of (h.layout ▸ hf.layout_nodup.filter _) (fun c hc => ?_)
      fun c hc d hd i hi hi' => ?_
    · by_cases hcp : c = p
      · subst hcp
        rw [h.insts_pred]
        refine (hf.block_nodup h.pred_mem).append (hf.block_nodup h.block_mem) fun i hi hi' => ?_
        exact h.ne (block_unique hf.live_nodup h.pred_mem h.block_mem hi hi')
      · rw [h.insts hc hcp]
        exact hf.block_nodup (h.mem_layout.1 hc).1
    · obtain ⟨c', hc', hcm, hic⟩ := place hc hi
      obtain ⟨d', hd', hdm, hid⟩ := place hd hi'
      rw [← hcm, ← hdm, block_unique hf.live_nodup hc' hd' hic hid]
  entry_preds {e} he := by
    refine List.eq_nil_iff_forall_not_mem.2 fun q hq => ?_
    obtain ⟨hq, hs⟩ := mem_preds.1 hq
    obtain ⟨x, -, hx, hs, -⟩ := (h.mem_successors hq).1 hs
    have : x ∈ f.preds e := mem_preds.2 ⟨hx, hs⟩
    rw [hf.entry_preds (h.entry?.symm.trans he)] at this
    cases this
  dominated_inst {c i before after v} hc hl hp hv := by
    obtain ⟨c', before, after, hc', rfl, hl', rfl⟩ := h.exists_place hc hl
    rw [h.op (Func.mem_live.2 ⟨c', hc', by simp [hl']⟩)] at hp hv
    rw [isPhi_renameSource] at hp
    rw [renameSource_of_not_phi b p hp] at hv
    exact fun j hj => h.available hf.toVerified (hf.dominated_inst hc' hl' hp hv j hj)
  dominated_phi {c source i incoming v} hc hi ho hv := by
    obtain ⟨hi, incoming, ho', rfl⟩ := h.phi hc hi ho
    obtain ⟨⟨x, source'⟩, hx, he⟩ := List.mem_map.1 hv
    cases he
    have hc := (h.mem_layout.1 hc).1
    have hs := ((hf.toVerified.mem_sources hc hi ho').1 (List.mem_map_of_mem (f := (·.2)) hx)).1
    exact h.available_end hf.toVerified hs (hf.dominated_phi hc hi ho' hx)
  dominated_terminator {c t v} hc ht hv := by
    obtain ⟨c', hc', rfl, ht'⟩ := h.exists_terminator hc
    exact h.available_end hf.toVerified hc' (hf.dominated_terminator hc' (ht' ▸ ht) hv)

/-! ### Runs -/

theorem body {c : BlockId} (hc : c ∈ g.layout) :
    g.body c = if c = p then f.body p ++ (f.block b).insts else f.body c := by
  have isPhi {d : BlockId} (hd : d ∈ f.layout) {i : InstId} (hi : i ∈ (f.block d).insts) :
      (!g.isPhiInst i) = !f.isPhiInst i := by
    rw [isPhiInst, h.op (Func.mem_live.2 ⟨d, hd, hi⟩), isPhi_renameSource, isPhiInst]
  split
  · next hcp =>
    subst hcp
    have hb : (f.block b).insts.filter (!g.isPhiInst ·) = (f.block b).insts := by
      refine List.filter_eq_self.2 fun i hi => ?_
      rw [isPhi h.block_mem hi]
      simpa [isPhiInst] using h.no_phi hi
    rw [Func.body, h.insts_pred, List.filter_append, hb,
      List.filter_congr fun i => isPhi h.pred_mem, Func.body]
  · next hcp =>
    rw [Func.body, h.insts hc hcp, List.filter_congr fun i => isPhi (h.mem_layout.1 hc).1,
      Func.body]

/-- Entering a block from where control came before gives its phis the same values. -/
theorem enterEnv (hv : f.Verified) {c d : BlockId} (hc : c ∈ f.layout) (hd : d ∈ f.successors c)
    (hdb : d ≠ b) (env : Env) :
    g.enterEnv (mergedInto p b c) d env = f.enterEnv c d env := by
  have hdf := hv.successor_mem hc hd
  have hdg := h.mem_layout.2 ⟨hdf, hdb⟩
  have hsub {i : InstId} (hi : i ∈ (f.block d).insts) : i ∈ (g.block d).insts := by
    have := h.mem_insts_of_mem hdf hi
    rwa [mergedInto, if_neg hdb] at this
  simp only [Func.enterEnv, Env.mk.injEq, true_and]
  funext i
  by_cases hi : i ∈ (f.block d).insts
  · rw [if_pos hi, if_pos (hsub hi), phiValue?, h.op (Func.mem_live.2 ⟨d, hdf, hi⟩), phiValue?]
    cases ho : f.op i with
    | phi incoming =>
      simp only [Simplify.renameSource]
      have hinj : ∀ x ∈ incoming, mergedInto p b x.2 = mergedInto p b c → x.2 = c := fun x hx =>
        h.mergedInto_inj hdb ((hv.mem_sources hdf hi ho).1
          (List.mem_map_of_mem (f := (·.2)) hx)).2 hd
      exact congrArg (fun v => (v.map env.value).getD (env.results i)) (incoming?_mergedInto hinj)
    | _ => rfl
  · rw [if_neg hi]
    split
    · next hig =>
      -- an instruction that was moved here is no phi
      rw [phiValue?]
      cases ho : g.op i with
      | phi incoming => exact absurd (h.phi hdg hig ho).1 hi
      | _ => rfl
    · rfl

theorem enter (hv : f.Verified) {c d : BlockId} (hc : c ∈ f.layout) (hd : d ∈ f.successors c)
    (hdb : d ≠ b) (env : Env) :
    g.enter (mergedInto p b c) d env = follow f p b (f.enter c d env) := by
  have hdg := h.mem_layout.2 ⟨hv.successor_mem hc hd, hdb⟩
  simp only [Func.enter, follow, h.enterEnv hv hc hd hdb, h.body hdg, mergedInto_of_ne hdb]
  split <;> simp_all

/-- The jump from `p` to `b` changes nothing. -/
theorem follow_enter (env : Env) :
    follow f p b (f.enter p b env) = follow f p b ⟨p, [], env⟩ := by
  have henv : f.enterEnv p b env = env := enterEnv_of_not_phi fun _ => h.no_phi
  have hbody : f.body b = (f.block b).insts :=
    List.filter_eq_self.2 fun i hi => by simpa [isPhiInst] using h.no_phi hi
  simp [follow, Func.enter, henv, hbody, mergedInto_self, mergedInto_of_ne h.ne, h.ne.symm]

theorem step (hv : f.Verified) {s : State} (hs : f.Located s) :
    (f.step s).Matches (fun s s' => f.Located s ∧ s' = follow f p b s) (g.step (follow f p b s)) ∨
      s.block = p ∧ s.rest = [] := by
  have hkeeps := keeps_located hv hs
  obtain ⟨c, rest, env⟩ := s
  cases rest with
  | cons i rest =>
    left
    have hi : i ∈ (f.block c).insts := by
      obtain ⟨before, hb⟩ := hs.suffix
      simp [hb]
    have hop : g.op i = f.op i := by
      rw [h.op (Func.mem_live.2 ⟨c, hs.mem_layout, hi⟩),
        renameSource_of_not_phi b p (hs.not_phi i (List.mem_cons_self ..))]
    have hfollow (env : Env) : follow f p b ⟨c, i :: rest, env⟩ =
        ⟨mergedInto p b c, i :: (follow f p b ⟨c, rest, env⟩).rest, env⟩ := by
      simp only [follow]
      split <;> rfl
    rw [hfollow]
    simp only [Func.step, stepInst, hop] at hkeeps ⊢
    cases ho : f.op i with
    | call callee args => exact .ask fun v => ⟨hs.tail, rfl⟩
    | _ => exact .next ⟨hs.tail, rfl⟩
  | nil =>
    by_cases hcp : c = p
    · exact .inr ⟨hcp, rfl⟩
    · left
      have hterm : (g.block (mergedInto p b c)).terminator = (f.block c).terminator := by
        unfold mergedInto
        split
        · next hcb => rw [hcb, h.terminator_pred]
        · next hcb => exact h.terminator (h.mem_layout.2 ⟨hs.mem_layout, hcb⟩) hcp
      have henter {d : BlockId} (hd : d ∈ f.successors c) :
          g.enter (mergedInto p b c) d env = follow f p b (f.enter c d env) := by
        refine h.enter hv hs.mem_layout hd ?_ env
        rintro rfl
        exact hcp (h.only hs.mem_layout hd)
      have hsucc {t : Terminator} (ht : (f.block c).terminator = some t) :
          f.successors c = t.successors := by simp [Func.successors, ht]
      simp only [Func.step, follow, hcp, if_false, hterm]
      rcases ht : (f.block c).terminator with - | (target | ⟨cond, yes, no⟩ | v) <;>
        simp only [stepTerminator]
      · exact .stuck
      · have hd : target ∈ f.successors c := by simp [hsucc ht, Terminator.successors]
        exact .next ⟨hs.enter hv hd, henter hd⟩
      · have hd : (if env.value cond == 0.0 then no else yes) ∈ f.successors c := by
          rw [hsucc ht]
          split <;> simp [Terminator.successors]
        exact .next ⟨hs.enter hv hd, henter hd⟩
      · exact .done _

theorem behaviour_eq (hv : f.Verified) {e : BlockId} (he : f.entry? = some e) (args : List Float)
    (o : Oracle) : (g.process args).behaviour o = (f.process args).behaviour o := by
  have hstart : g.startState args = follow f p b (f.startState args) := by
    have heb : e ≠ b := fun heb => h.not_entry (heb ▸ he)
    have heg := h.mem_layout.2 ⟨entry_mem_layout he, heb⟩
    rw [startState_of_entry he, startState_of_entry (h.entry?.trans he), h.body heg]
    simp only [follow, mergedInto_of_ne heb]
    split <;> simp_all
  refine (Simulation.lockstep (p := f.process args) (q := g.process args)
    (fun s s' => f.Located s ∧ s' = follow f p b s) (fun s => if s.block = p then 1 else 0)
    ⟨located_start hv he args, hstart⟩ ?_).behaviour_eq o |>.symm
  rintro s s' ⟨hs, rfl⟩
  refine (h.step hv hs).imp_right ?_
  rintro ⟨hb, hr⟩
  obtain ⟨c, rest, env⟩ := s
  obtain rfl : c = p := hb
  obtain rfl : rest = [] := hr
  refine ⟨f.enter c b env, ?_, ⟨hs.enter hv (by simp [h.successors_pred]), ?_⟩, ?_⟩
  · simp only [process, Func.step, h.jump, stepTerminator]
  · exact (h.follow_enter env).symm
  · simp [Func.enter, h.ne.symm]

theorem refines (hf : f.WellFormed) : f.Refines g := by
  cases he : f.entry? with
  | none => exact .of_declaration he (h.entry?.trans he)
  | some e => exact {
    wellFormed := h.wellFormed hf
    entry? := h.entry?
    callsWith := by
      rintro callee n ⟨i, hi, args, ho, hn⟩
      have hi := h.mem_live.1 hi
      rw [h.op hi] at ho
      refine ⟨i, hi, args, ?_, hn⟩
      cases hop : f.op i <;> simp_all [Simplify.renameSource]
    behaviour := h.behaviour_eq hf.toVerified he }

/-- A block that could be reached still can. -/
theorem exists_path {π : List BlockId} {c : BlockId} (hv : f.Verified) (hπ : f.Path π c) :
    ∃ π', g.Path π' (mergedInto p b c) := by
  induction hπ with
  | @entry c he =>
    have hcb : c ≠ b := fun hcb => h.not_entry (hcb ▸ he)
    exact ⟨[], .entry (by rw [mergedInto_of_ne hcb, h.entry?, he])⟩
  | @step π d c hπ hc ih =>
    by_cases hcb : c = b
    · -- the way to `b` goes through `p`
      obtain rfl := h.only (hπ.mem_layout hv).1 (hcb ▸ hc)
      rw [mergedInto_of_ne h.ne] at ih
      rwa [hcb, mergedInto_self]
    · obtain ⟨π', hπ'⟩ := ih
      have hd := (hπ.mem_layout hv).1
      refine ⟨_, hπ'.step ?_⟩
      rw [mergedInto_of_ne hcb, h.mem_successors (h.mergedInto_mem hd)]
      exact ⟨d, rfl, hd, hc, hcb⟩

end Merged

end Func

end ScalarLang.IR
