import ScalarLang.Proofs.Codegen.Growth
import ScalarLang.Proofs.IR.Dominance

/-! Functions that are well formed as far as they are generated. While blocks are still to be ended
and laid out, not all ways to a place are known. A certificate takes their place: it says which
results are available where a block starts, and is kept along every edge. -/

namespace ScalarLang.IR

/-- For each block, results that are available where it starts. -/
abbrev Certificate := BlockId → InstId → Prop

namespace Func

variable {f g : Func} {A : Certificate}

/-- The result is available at the end of a block. -/
def AtEnd (f : Func) (A : Certificate) (b : BlockId) (i : InstId) : Prop :=
  A b i ∨ i ∈ (f.block b).insts

/-- The function is well formed, but for blocks that are not ended or not laid out. -/
structure Certified (f : Func) (A : Certificate) : Prop where
  layout_nodup : f.layout.Nodup
  layout_lt {b : BlockId} : b ∈ f.layout → b < f.blocks.size
  entry : f.entry? = some 0
  not_entry {i : InstId} : ¬A 0 i
  blank {b : BlockId} : b ∉ f.layout → f.Blank b
  target {b c : BlockId} : c ∈ f.successors b → 0 < c ∧ c < f.blocks.size
  inst_lt {b : BlockId} {i : InstId} : i ∈ (f.block b).insts → i < f.insts.size
  insts_nodup (b : BlockId) : (f.block b).insts.Nodup
  unique {b c : BlockId} {i : InstId} : i ∈ (f.block b).insts → i ∈ (f.block c).insts → b = c
  phis_first (b : BlockId) :
    (f.block b).insts.Pairwise fun i j => (f.op j).isPhi → (f.op i).isPhi
  sources {b : BlockId} {i : InstId} {incoming : List (Operand × BlockId)} :
    i ∈ (f.block b).insts → f.op i = .phi incoming → (incoming.map (·.2)).Perm (f.preds b)
  slot_lt {b : BlockId} {i : InstId} {s : SlotId} : i ∈ (f.block b).insts →
    (f.op i).slot? = some s → s < f.slots.size
  fits_inst {b : BlockId} {i : InstId} {v : Operand} {type : Ty} : i ∈ (f.block b).insts →
    (v, type) ∈ (f.op i).typedOperands → f.Fits v type
  fits_terminator {b : BlockId} {t : Terminator} {v : Operand} {type : Ty} :
    (f.block b).terminator = some t → (v, type) ∈ t.typedOperands → f.Fits v type
  edge {b c : BlockId} {i : InstId} : c ∈ f.successors b → A c i → f.AtEnd A b i
  dominated_inst {b : BlockId} {i j : InstId} {before after : List InstId} :
    (f.block b).insts = before ++ i :: after → ¬(f.op i).isPhi → .inst j ∈ (f.op i).operands →
    A b j ∨ j ∈ before
  dominated_phi {b source : BlockId} {i j : InstId} {incoming : List (Operand × BlockId)} :
    i ∈ (f.block b).insts → f.op i = .phi incoming → (.inst j, source) ∈ incoming →
    f.AtEnd A source j
  dominated_terminator {b : BlockId} {t : Terminator} {j : InstId} :
    (f.block b).terminator = some t → .inst j ∈ t.operands → f.AtEnd A b j

namespace Certified

variable (h : f.Certified A)
include h

/-! ### What a certificate says -/

/-- Every way to a block passes what the certificate lists for it. -/
theorem exists_mem_path {π : List BlockId} {b : BlockId} {i : InstId} (hπ : f.Path π b)
    (hi : A b i) : ∃ c ∈ π, i ∈ (f.block c).insts := by
  induction hπ with
  | entry he =>
    cases he.symm.trans h.entry
    exact absurd hi h.not_entry
  | @step π b c _ hc ih =>
    rcases h.edge hc hi with hi | hi
    · obtain ⟨d, hd, hi⟩ := ih hi
      exact ⟨d, List.mem_cons_of_mem _ hd, hi⟩
    · exact ⟨b, List.mem_cons_self .., hi⟩

theorem available {b : BlockId} {i : InstId} {before : List InstId} (hi : A b i ∨ i ∈ before) :
    f.Available b before i :=
  fun _ hπ => hi.symm.imp_right (h.exists_mem_path hπ)

theorem wellFormed (hended : ∀ b ∈ f.layout, (f.block b).terminator.isSome)
    (hall : ∀ b < f.blocks.size, b ∈ f.layout) : f.WellFormed where
  verified := verify_eq_ok.2 {
    block_lt := h.layout_lt
    terminated := hended _
    successor_mem := fun _ hc => hall _ (h.target hc).2
    inst_lt := fun _ => h.inst_lt
    phis_first := fun _ => h.phis_first _
    phi_sources := fun _ => h.sources
    slot_lt := fun _ => h.slot_lt
    fits_inst := fun _ => h.fits_inst
    fits_terminator := fun _ => h.fits_terminator }
  layout_nodup := h.layout_nodup
  live_nodup := live_nodup_of h.layout_nodup (fun b _ => h.insts_nodup b)
    fun _ _ _ _ _ => h.unique
  entry_preds hb := by
    cases hb.symm.trans h.entry
    refine List.eq_nil_iff_forall_not_mem.2 fun p hp => ?_
    exact absurd (h.target (mem_preds.1 hp).2).1 (Nat.lt_irrefl 0)
  dominated_inst := by
    rintro b i before after v - hb hi hv j rfl
    exact h.available (h.dominated_inst hb hi hv)
  dominated_phi := by
    rintro b source i incoming v - hi ho hv j rfl
    exact h.available (h.dominated_phi hi ho hv)
  dominated_terminator := by
    rintro b t v - ht hv j rfl
    exact h.available (h.dominated_terminator ht hv)

theorem mem_layout_of_inst {b : BlockId} {i : InstId} (hi : i ∈ (f.block b).insts) :
    b ∈ f.layout := by
  by_contra hb
  rw [(h.blank hb).insts] at hi
  exact nomatch hi

theorem mem_layout_of_successor {b c : BlockId} (hc : c ∈ f.successors b) : b ∈ f.layout := by
  by_contra hb
  simp [successors, (h.blank hb).terminator] at hc

theorem mem_layout_of_terminator {b : BlockId} {t : Terminator}
    (ht : (f.block b).terminator = some t) : b ∈ f.layout := by
  by_contra hb
  simp [(h.blank hb).terminator] at ht

end Certified

/-! ### Growth -/

theorem Grows.live (h : f.Grows g) {i : InstId} (hi : i ∈ f.live) : i ∈ g.live := by
  obtain ⟨b, hb, hi⟩ := mem_live.1 hi
  exact mem_live.2 ⟨b, h.layout.subset hb, (h.insts b).subset hi⟩

theorem Grows.fits (h : f.Grows g) {v : Operand} {type : Ty} (hv : f.Fits v type) :
    g.Fits v type := by
  cases v with
  | inst i => exact ⟨h.live hv.1, Nat.lt_of_lt_of_le hv.2.1 h.insts_le, h.op hv.2.1 ▸ hv.2.2⟩
  | arg n => exact ⟨by simpa [arity, h.params] using hv.1, hv.2⟩
  | const _ => exact hv
  | bool _ => exact hv

theorem Grows.atEnd (h : f.Grows g) {b : BlockId} {i : InstId} (hi : f.AtEnd A b i) :
    g.AtEnd A b i :=
  hi.imp_right fun hi => (h.insts b).subset hi

/-- Predecessors are the same if blocks lead to the same ones. -/
theorem perm_preds_of {b : BlockId} {sources : List BlockId} (h : sources.Perm (f.preds b))
    (hmem : ∀ p, p ∈ g.preds b ↔ p ∈ f.preds b) : sources.Perm (g.preds b) :=
  h.trans ((List.perm_ext_iff_of_nodup (f.preds_nodup b) (g.preds_nodup b)).2
    fun p => (hmem p).symm)

end Func

/-! ### Instructions -/

variable {b : Builder} {A A' : Certificate}

/-- What an operation needs so that it can be added. -/
structure Builder.Accepts (b : Builder) (A : Certificate) (op : Operation) : Prop where
  slot_lt {s : SlotId} : op.slot? = some s → s < b.func.slots.size
  fits {v : Operand} {type : Ty} : (v, type) ∈ op.typedOperands → b.func.Fits v type
  dominated {j : InstId} : ¬op.isPhi → .inst j ∈ op.operands → b.func.AtEnd A b.current j
  phi {incoming : List (Operand × BlockId)} : op = .phi incoming →
    (b.func.block b.current).insts = [] ∧
    (incoming.map (·.2)).Perm (b.func.preds b.current) ∧
    ∀ {j source}, (.inst j, source) ∈ incoming → b.func.AtEnd A source j

namespace Func.Certified

variable {op : Operation} {name : String} (h : b.func.Certified A) (hb : b.Ready)
include h hb

/-- An instruction is an old one, or the one that is added. -/
theorem inst_cases {c : BlockId} {i : InstId}
    (hi : i ∈ ((b.addInst op name).2.func.block c).insts) :
    (i ∈ (b.func.block c).insts ∧ (b.addInst op name).2.func.op i = b.func.op i) ∨
      c = b.current ∧ i = b.func.insts.size := by
  rcases (Builder.mem_block_addInst hb).1 hi with hi | hi
  · exact .inl ⟨hi, (Builder.grows_addInst hb op name).op (h.inst_lt hi)⟩
  · exact .inr hi

/-- A phi is added only to a block that is empty. -/
theorem phis_first_addInst (hop : b.Accepts A op) (c : BlockId) :
    ((b.addInst op name).2.func.block c).insts.Pairwise fun i j =>
      ((b.addInst op name).2.func.op j).isPhi → ((b.addInst op name).2.func.op i).isPhi := by
  have hgrows := Builder.grows_addInst hb op name
  rw [Builder.insts_block_addInst hb]
  refine List.pairwise_append.2 ⟨(h.phis_first c).imp_of_mem ?_, by split <;> simp, ?_⟩
  · intro i j hi hj hij
    rwa [hgrows.op (h.inst_lt hi), hgrows.op (h.inst_lt hj)]
  · intro i hi j hj hphi
    split at hj
    · next hc =>
      rw [List.mem_singleton.1 hj, Builder.op_addInst_self] at hphi
      obtain ⟨incoming, rfl⟩ : ∃ incoming, op = .phi incoming := by
        cases op <;> simp_all [Operation.isPhi]
      rw [hc, (hop.phi rfl).1] at hi
      cases hi
    · cases hj

theorem dominated_inst_addInst (hop : b.Accepts A op) {c : BlockId} {i j : InstId}
    {before after : List InstId}
    (hsplit : ((b.addInst op name).2.func.block c).insts = before ++ i :: after)
    (hi : ¬((b.addInst op name).2.func.op i).isPhi)
    (hj : .inst j ∈ ((b.addInst op name).2.func.op i).operands) : A c j ∨ j ∈ before := by
  -- the instruction is an old one
  have old {after : List InstId} (hsplit : (b.func.block c).insts = before ++ i :: after) :
      A c j ∨ j ∈ before := by
    have hlt : i < b.func.insts.size := h.inst_lt (b := c) (by simp [hsplit])
    have he := (Builder.grows_addInst hb op name).op hlt
    exact h.dominated_inst hsplit (he ▸ hi) (he ▸ hj)
  rw [Builder.insts_block_addInst hb] at hsplit
  split at hsplit
  · next hc =>
    rcases List.eq_nil_or_concat after with rfl | ⟨after, k, rfl⟩
    · obtain ⟨rfl, he⟩ := List.append_inj' hsplit rfl
      obtain rfl : b.func.insts.size = i := by simpa using he
      rw [Builder.op_addInst_self] at hi hj
      exact hc ▸ hop.dominated hi hj
    · rw [List.concat_eq_append, ← List.cons_append, ← List.append_assoc] at hsplit
      exact old (List.append_inj' hsplit rfl).1
  · exact old (by simpa using hsplit)

end Func.Certified

theorem Func.Certified.addInst (h : b.func.Certified A) (hb : b.Ready)
    (hmem : b.current ∈ b.func.layout) {op : Operation} (hop : b.Accepts A op) (name : String) :
    (b.addInst op name).2.func.Certified A := by
  have hgrows := Builder.grows_addInst hb op name
  have hpreds (c : BlockId) : (b.addInst op name).2.func.preds c = b.func.preds c := by
    simp only [preds, Builder.successors_addInst]
    rfl
  have hnew := b.op_addInst_self op name
  have hold {c : BlockId} : b.func.insts.size ∉ (b.func.block c).insts :=
    fun hi => Nat.lt_irrefl _ (h.inst_lt hi)
  exact {
    layout_nodup := h.layout_nodup
    layout_lt := fun hc => Nat.lt_of_lt_of_le (h.layout_lt hc) hgrows.blocks_le
    entry := h.entry
    not_entry := h.not_entry
    blank := fun {c} hc => by
      have hne : c ≠ b.current := fun he => hc (he ▸ hmem)
      rw [Blank, Builder.code_addInst_of_ne hb op name hne]
      exact h.blank hc
    target := fun hc => by
      rw [Builder.successors_addInst] at hc
      rw [Builder.size_addInst]
      exact h.target hc
    inst_lt := (Builder.ready_addInst hb op name).placed_lt
    insts_nodup := fun c => by
      rw [Builder.insts_block_addInst hb]
      split
      · simpa using (h.insts_nodup c).concat hold
      · simpa using h.insts_nodup c
    unique := fun hi hi' => by
      rcases h.inst_cases hb hi with ⟨hi, -⟩ | ⟨rfl, rfl⟩ <;>
        rcases h.inst_cases hb hi' with ⟨hi', -⟩ | ⟨rfl, he⟩
      · exact h.unique hi hi'
      · exact absurd (he ▸ hi) hold
      · exact absurd hi' hold
      · rfl
    phis_first := h.phis_first_addInst hb hop
    sources := fun hi ho => by
      rw [hpreds]
      rcases h.inst_cases hb hi with ⟨hi, he⟩ | ⟨rfl, rfl⟩
      · exact h.sources hi (he ▸ ho)
      · exact (hop.phi (hnew.symm.trans ho)).2.1
    slot_lt := fun hi hs => by
      rcases h.inst_cases hb hi with ⟨hi, he⟩ | ⟨rfl, rfl⟩
      · exact h.slot_lt hi (he ▸ hs)
      · exact hop.slot_lt (hnew ▸ hs)
    fits_inst := fun hi hv => by
      rcases h.inst_cases hb hi with ⟨hi, he⟩ | ⟨rfl, rfl⟩
      · exact hgrows.fits (h.fits_inst hi (he ▸ hv))
      · exact hgrows.fits (hop.fits (hnew ▸ hv))
    fits_terminator := fun ht hv => by
      rw [Builder.terminator_addInst] at ht
      exact hgrows.fits (h.fits_terminator ht hv)
    edge := fun hc hi => hgrows.atEnd (h.edge (b.successors_addInst op name _ ▸ hc) hi)
    dominated_inst := h.dominated_inst_addInst hb hop
    dominated_phi := fun hi ho hj => by
      rcases h.inst_cases hb hi with ⟨hi, he⟩ | ⟨rfl, rfl⟩
      · exact hgrows.atEnd (h.dominated_phi hi (he ▸ ho) hj)
      · exact hgrows.atEnd ((hop.phi (hnew.symm.trans ho)).2.2 hj)
    dominated_terminator := fun ht hj => by
      rw [Builder.terminator_addInst] at ht
      exact hgrows.atEnd (h.dominated_terminator ht hj) }

/-! ### Ends of blocks -/

namespace Func

variable {f g : Func} {c₀ : BlockId} {t : Terminator} {new : List BlockId}

/-- What an end of a block needs, if `A'` is to be the certificate with the blocks that it leads
to. -/
structure AcceptsEnd (f g : Func) (A A' : Certificate) (b : BlockId) (t : Terminator) : Prop where
  target_pos {c : BlockId} : c ∈ t.successors → 0 < c
  target_lt {c : BlockId} : c ∈ t.successors → c < g.blocks.size
  atEnd {c : BlockId} {i : InstId} : c ∈ t.successors → A' c i → f.AtEnd A b i
  not_phi {c : BlockId} {i : InstId} : c ∈ t.successors → i ∈ (f.block c).insts →
    ¬(f.op i).isPhi
  fits {v : Operand} {type : Ty} : (v, type) ∈ t.typedOperands → f.Fits v type
  dominated {j : InstId} : .inst j ∈ t.operands → f.AtEnd A b j

/-- A block with phis has the predecessors that it had before another block was ended. -/
theorem Certified.mem_preds_ends (h : f.Certified A) (he : f.Ends g c₀ t new)
    (hopen : (f.block c₀).terminator = none) (hnew : ∀ c ∈ new, c ∉ f.layout)
    {b : BlockId} (hb : b ∉ t.successors) (p : BlockId) : p ∈ g.preds b ↔ p ∈ f.preds b := by
  rw [mem_preds, mem_preds, he.layout, List.mem_append]
  by_cases hp : p = c₀
  · have hnone : f.successors c₀ = [] := by simp [successors, hopen]
    rw [hp, he.successors, hnone]
    simp [hb]
  · rw [he.successors_of_ne hp]
    refine and_congr_left fun hs => or_iff_left fun hp' => ?_
    exact hnew p hp' (h.mem_layout_of_successor hs)

theorem Certified.ends (h : f.Certified A) (he : f.Ends g c₀ t new)
    (hopen : (f.block c₀).terminator = none) (hmem : c₀ ∈ f.layout) (hnodup : new.Nodup)
    (hnew : ∀ c ∈ new, c ∉ f.layout) (hlt : ∀ c ∈ new, c < g.blocks.size)
    (hagree : ∀ c < f.blocks.size, A' c = A c) (ht : AcceptsEnd f g A A' c₀ t) :
    g.Certified A' := by
  have hgrows := he.grows hopen
  have hA {c : BlockId} (hc : c ∈ f.layout) : A' c = A c := hagree c (h.layout_lt hc)
  have hend {c : BlockId} {i : InstId} (hc : c ∈ f.layout) (hi : f.AtEnd A c i) :
      g.AtEnd A' c i := hgrows.atEnd (by rwa [AtEnd, hA hc])
  -- the end of a block is the new one, or was there before
  have hcases {c : BlockId} {t' : Terminator} (hc : (g.block c).terminator = some t') :
      c = c₀ ∧ t' = t ∨ c ≠ c₀ ∧ (f.block c).terminator = some t' := by
    rw [he.terminator] at hc
    split at hc
    · next heq => exact .inl ⟨heq, (Option.some.inj hc).symm⟩
    · next hne => exact .inr ⟨hne, hc⟩
  exact {
    layout_nodup := by
      rw [he.layout]
      exact List.nodup_append.2 ⟨h.layout_nodup, hnodup, fun c hc d hd hcd => hnew d hd (hcd ▸ hc)⟩
    layout_lt := fun hc => by
      rcases List.mem_append.1 (he.layout ▸ hc) with hc | hc
      · exact Nat.lt_of_lt_of_le (h.layout_lt hc) he.blocks_le
      · exact hlt _ hc
    entry := by
      rw [Func.entry?, he.layout, List.head?_append_of_ne_nil _ (List.ne_nil_of_mem hmem)]
      exact h.entry
    not_entry := fun {i} => by
      rw [hA (entry_mem_layout h.entry)]
      exact h.not_entry
    blank := fun {c} hc => by
      have hc' : c ∉ f.layout := fun hm => hc (he.layout ▸ List.mem_append_left _ hm)
      have hne : c ≠ c₀ := by
        rintro rfl
        exact hc' hmem
      rw [Blank, he.code_of_ne hne]
      exact h.blank hc'
    target := fun {c d} hd => by
      by_cases hc : c = c₀
      · rw [hc, he.successors] at hd
        exact ⟨ht.target_pos hd, ht.target_lt hd⟩
      · obtain ⟨hpos, hlt⟩ := h.target (he.successors_of_ne hc ▸ hd)
        exact ⟨hpos, Nat.lt_of_lt_of_le hlt he.blocks_le⟩
    inst_lt := fun hi => Nat.lt_of_lt_of_le (h.inst_lt (he.insts_block _ ▸ hi)) hgrows.insts_le
    insts_nodup := fun c => he.insts_block c ▸ h.insts_nodup c
    unique := fun hi hi' => h.unique (he.insts_block _ ▸ hi) (he.insts_block _ ▸ hi')
    phis_first := fun c => by
      simpa only [he.insts_block, he.op] using h.phis_first c
    sources := fun {c i incoming} hi ho => by
      rw [he.insts_block] at hi
      rw [he.op] at ho
      refine perm_preds_of (h.sources hi ho) (h.mem_preds_ends he hopen hnew fun hc => ?_)
      exact ht.not_phi hc hi (by rw [ho]; rfl)
    slot_lt := fun hi hs => he.slots ▸ h.slot_lt (he.insts_block _ ▸ hi) (he.op _ ▸ hs)
    fits_inst := fun hi hv => hgrows.fits (h.fits_inst (he.insts_block _ ▸ hi) (he.op _ ▸ hv))
    fits_terminator := fun hc hv => by
      rcases hcases hc with ⟨-, rfl⟩ | ⟨-, hc⟩
      · exact hgrows.fits (ht.fits hv)
      · exact hgrows.fits (h.fits_terminator hc hv)
    edge := fun {c d i} hd hi => by
      by_cases hc : c = c₀
      · subst hc
        exact hend hmem (ht.atEnd (he.successors ▸ hd) hi)
      · rw [he.successors_of_ne hc] at hd
        rw [hagree d (h.target hd).2] at hi
        exact hend (h.mem_layout_of_successor hd) (h.edge hd hi)
    dominated_inst := fun {c i j before after} hsplit hi hj => by
      rw [he.insts_block] at hsplit
      rw [he.op] at hi hj
      rw [hA (h.mem_layout_of_inst (i := i) (by simp [hsplit]))]
      exact h.dominated_inst hsplit hi hj
    dominated_phi := fun {c source i j incoming} hi ho hj => by
      rw [he.insts_block] at hi
      rw [he.op] at ho
      have hsource : source ∈ f.preds c :=
        (h.sources hi ho).subset (List.mem_map_of_mem (f := Prod.snd) hj)
      exact hend (mem_preds.1 hsource).1 (h.dominated_phi hi ho hj)
    dominated_terminator := fun hc hj => by
      rcases hcases hc with ⟨rfl, rfl⟩ | ⟨-, hc⟩
      · exact hend hmem (ht.dominated hj)
      · exact hend (h.mem_layout_of_terminator hc) (h.dominated_terminator hc hj) }

end Func

end ScalarLang.IR
