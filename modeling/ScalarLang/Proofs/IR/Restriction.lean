import ScalarLang.Proofs.IR.Edits
import ScalarLang.Proofs.IR.Refinement

/-! Taking edges and blocks out of a function. It makes no difference if the edges are never taken
and the blocks never reached, provided that the phis forget them. -/

namespace ScalarLang.IR

namespace Func

variable {f g : Func}

/-- What a phi of block `b` receives over the edges of the function. -/
def keepSources (f : Func) (b : BlockId) : Operation → Operation
  | .phi incoming => .phi (incoming.filter fun p => p.2 ∈ f.layout ∧ b ∈ f.successors p.2)
  | op => op

/-- Function `g` is `f` without some edges and blocks. -/
structure Restricts (f g : Func) : Prop where
  sizes : SameSizes f g
  layout : g.layout.Sublist f.layout
  entry? : g.entry? = f.entry?
  insts {b : BlockId} : b ∈ g.layout → (g.block b).insts = (f.block b).insts
  /-- A branch that always goes the same way may have become a jump. -/
  terminator {b : BlockId} : b ∈ g.layout → (g.block b).terminator = (f.block b).terminator ∨
    ∃ taken untaken, (f.block b).terminator.bind Simplify.decided = some (taken, untaken) ∧
      (g.block b).terminator = some (.br taken)
  successor_mem {b c : BlockId} : b ∈ g.layout → c ∈ g.successors b → c ∈ g.layout
  op {b : BlockId} {i : InstId} : b ∈ g.layout → i ∈ (f.block b).insts →
    g.op i = g.keepSources b (f.op i)
  /-- Every block that can be reached is kept. -/
  reached {π : List BlockId} {b : BlockId} : f.Path π b → b ∈ g.layout
  /-- Blocks are only taken out if all the others can be reached. -/
  layout_or : g.layout = f.layout ∨ ∀ b ∈ g.layout, ∃ π, f.Path π b

@[simp] theorem isPhi_keepSources (f : Func) (b : BlockId) (op : Operation) :
    (f.keepSources b op).isPhi = op.isPhi := by
  cases op <;> rfl

@[simp] theorem type?_keepSources (f : Func) (b : BlockId) (op : Operation) :
    (f.keepSources b op).type? = op.type? := by
  cases op <;> rfl

@[simp] theorem slot?_keepSources (f : Func) (b : BlockId) (op : Operation) :
    (f.keepSources b op).slot? = op.slot? := by
  cases op <;> rfl

theorem keepSources_of_not_phi (f : Func) (b : BlockId) {op : Operation} (h : ¬op.isPhi) :
    f.keepSources b op = op := by
  cases op <;> simp_all [keepSources, Operation.isPhi]

theorem mem_typedOperands_keepSources {b : BlockId} {op : Operation} {p : Operand × Ty}
    (h : p ∈ (f.keepSources b op).typedOperands) : p ∈ op.typedOperands := by
  cases op with
  | phi incoming =>
    simp only [keepSources, Operation.typedOperands, Operation.operands, List.map_map,
      List.mem_map, List.mem_filter] at h ⊢
    obtain ⟨x, ⟨hx, -⟩, rfl⟩ := h
    exact ⟨x, hx, rfl⟩
  | _ => exact h

theorem keepSources_eq_phi {b : BlockId} {op : Operation} {incoming : List (Operand × BlockId)}
    (h : f.keepSources b op = .phi incoming) : ∃ incoming', op = .phi incoming' ∧
      incoming = incoming'.filter fun p => p.2 ∈ f.layout ∧ b ∈ f.successors p.2 := by
  cases op <;> simp only [keepSources, reduceCtorEq, Operation.phi.injEq] at h
  exact ⟨_, rfl, h.symm⟩

theorem incoming?_filter {incoming : List (Operand × BlockId)} {q : BlockId → Bool}
    {source : BlockId} (hs : q source) :
    incoming? (incoming.filter (q ·.2)) source = incoming? incoming source := by
  rw [incoming?, List.find?_filter, incoming?]
  congr 2
  funext p
  by_cases hp : p.2 = source <;> simp [hp, hs]

namespace Restricts

variable (h : f.Restricts g)

include h

theorem mem_layout {b : BlockId} (hb : b ∈ g.layout) : b ∈ f.layout := h.layout.subset hb

theorem successors_subset {b c : BlockId} (hb : b ∈ g.layout) (hc : c ∈ g.successors b) :
    c ∈ f.successors b := by
  rcases h.terminator hb with ht | ⟨taken, untaken, hd, ht⟩
  · rwa [successors, ht] at hc
  · obtain rfl : c = taken := by simpa [successors, ht, Terminator.successors] using hc
    obtain ⟨t, ht', hd⟩ := Option.bind_eq_some_iff.1 hd
    cases t with
    | condBr cond yes no =>
      simp only [successors, ht', Option.map_some, Option.getD_some, Terminator.successors]
      simp only [Simplify.decided] at hd
      grind
    | _ => cases hd

theorem path {π : List BlockId} {b : BlockId} (hπ : g.Path π b) :
    f.Path π b ∧ b ∈ g.layout ∧ ∀ c ∈ π, c ∈ g.layout := by
  induction hπ with
  | entry he => exact ⟨.entry (h.entry?.symm.trans he), entry_mem_layout he, nofun⟩
  | step _ hc ih =>
    obtain ⟨hπ, hb, hall⟩ := ih
    exact ⟨hπ.step (h.successors_subset hb hc), h.successor_mem hb hc,
      List.forall_mem_cons.2 ⟨hb, hall⟩⟩

theorem available {b : BlockId} {before : List InstId} {i : InstId}
    (ha : f.Available b before i) : g.Available b before i := by
  intro π hπ
  obtain ⟨hπ, -, hall⟩ := h.path hπ
  exact (ha π hπ).imp_right fun ⟨c, hc, hi⟩ => ⟨c, hc, (h.insts (hall c hc)).symm ▸ hi⟩

theorem availableOperand {b : BlockId} {before : List InstId} {v : Operand}
    (ha : f.AvailableOperand b before v) : g.AvailableOperand b before v :=
  fun i hi => h.available (ha i hi)

theorem mem_live {i : InstId} (hi : i ∈ g.live) : i ∈ f.live := by
  obtain ⟨b, hb, hi⟩ := Func.mem_live.1 hi
  exact Func.mem_live.2 ⟨b, h.mem_layout hb, h.insts hb ▸ hi⟩

/-- What is available in a block that is kept is kept itself. -/
theorem fits {b : BlockId} {before : List InstId} (hb : b ∈ g.layout)
    (hbefore : ∀ i ∈ before, i ∈ (f.block b).insts) {v : Operand} {type : Ty}
    (ha : f.AvailableOperand b before v) (hv : f.Fits v type) : g.Fits v type := by
  cases v with
  | inst i =>
    obtain ⟨hl, hi, ht⟩ := hv
    have hgl : ∃ c ∈ g.layout, i ∈ (f.block c).insts := by
      rcases h.layout_or with he | hr
      · rw [he]
        exact Func.mem_live.1 hl
      · obtain ⟨π, hπ⟩ := hr b hb
        rcases ha i rfl π hπ with hm | ⟨c, hc, hm⟩
        · exact ⟨b, hb, hbefore i hm⟩
        · obtain ⟨π₁, π₂, -, hπ₂⟩ := hπ.of_mem hc
          exact ⟨c, h.reached hπ₂, hm⟩
    obtain ⟨c, hc, hm⟩ := hgl
    refine ⟨Func.mem_live.2 ⟨c, hc, (h.insts hc).symm ▸ hm⟩, h.sizes.insts ▸ hi, ?_⟩
    rw [h.op hc hm, type?_keepSources, ht]
  | arg n => exact ⟨by simpa only [arity, h.sizes.params] using hv.1, hv.2⟩
  | const _ => exact hv
  | bool _ => exact hv

/-- The phis have a source for each edge that is kept. -/
theorem phi_sources (hf : f.WellFormed) {b : BlockId} {i : InstId}
    {incoming : List (Operand × BlockId)} (hb : b ∈ g.layout) (hi : i ∈ (f.block b).insts)
    (ho : g.op i = .phi incoming) : (incoming.map (·.2)).Perm (g.preds b) := by
  obtain ⟨incoming, ho', rfl⟩ := keepSources_eq_phi ((h.op hb hi).symm.trans ho)
  have hbf := h.mem_layout hb
  have hn := (hf.toVerified.phi_sources hbf hi ho').nodup_iff.2 (f.preds_nodup b)
  refine perm_preds (List.Nodup.sublist (List.filter_sublist.map _) hn) fun p => ?_
  have hsources := hf.toVerified.mem_sources (p := p) hbf hi ho'
  constructor
  · intro hp
    obtain ⟨x, hx, rfl⟩ := List.mem_map.1 hp
    simpa using (List.mem_filter.1 hx).2
  · rintro ⟨hp, hs⟩
    obtain ⟨x, hx, rfl⟩ := List.mem_map.1
      (hsources.2 ⟨h.mem_layout hp, h.successors_subset hp hs⟩)
    refine List.mem_map_of_mem (f := (·.2)) (List.mem_filter.2 ⟨hx, ?_⟩)
    simpa using ⟨hp, hs⟩

theorem fits_inst (hf : f.WellFormed) {b : BlockId} {i : InstId} {v : Operand} {type : Ty}
    (hb : b ∈ g.layout) (hi : i ∈ (f.block b).insts)
    (hv : (v, type) ∈ (g.op i).typedOperands) : g.Fits v type := by
  rw [h.op hb hi] at hv
  have hbf := h.mem_layout hb
  have hfits := hf.toVerified.fits_inst hbf hi (mem_typedOperands_keepSources hv)
  by_cases hp : (f.op i).isPhi
  · -- what a phi uses is available in the block from which it comes
    cases ho : f.op i with
    | phi incoming =>
      have hm := Operation.mem_operands_of_typed hv
      simp only [ho, keepSources, Operation.operands, List.mem_map, List.mem_filter,
        decide_eq_true_eq] at hm
      obtain ⟨⟨v, source⟩, ⟨hm, hs, -⟩, rfl⟩ := hm
      exact h.fits hs (fun _ => id) (hf.dominated_phi hbf hi ho hm) hfits
    | _ => simp [ho, Operation.isPhi] at hp
  · rw [keepSources_of_not_phi g b hp] at hv
    obtain ⟨l, r, hl⟩ := List.append_of_mem hi
    exact h.fits hb (fun j hj => by simp [hl, hj])
      (hf.dominated_inst hbf hl hp (Operation.mem_operands_of_typed hv)) hfits

theorem verified (hf : f.WellFormed) : g.Verified where
  block_lt hb := h.sizes.blocks ▸ hf.toVerified.block_lt (h.mem_layout hb)
  terminated hb := by
    rcases h.terminator hb with ht | ⟨_, _, -, ht⟩
    · rw [ht]
      exact hf.toVerified.terminated (h.mem_layout hb)
    · simp [ht]
  successor_mem := h.successor_mem
  inst_lt hb hi := h.sizes.insts ▸ hf.toVerified.inst_lt (h.mem_layout hb) (h.insts hb ▸ hi)
  phis_first {b} hb := by
    rw [h.insts hb]
    refine (hf.toVerified.phis_first (h.mem_layout hb)).imp_of_mem fun hi hj hp => ?_
    rwa [h.op hb hi, h.op hb hj, isPhi_keepSources, isPhi_keepSources]
  phi_sources hb hi ho := h.phi_sources hf hb (h.insts hb ▸ hi) ho
  slot_lt hb hi hs := by
    rw [h.insts hb] at hi
    rw [h.op hb hi, slot?_keepSources] at hs
    exact h.sizes.slots ▸ hf.toVerified.slot_lt (h.mem_layout hb) hi hs
  fits_inst hb hi hv := h.fits_inst hf hb (h.insts hb ▸ hi) hv
  fits_terminator {b t v type} hb ht hv := by
    have hbf := h.mem_layout hb
    rcases h.terminator hb with ht' | ⟨_, _, -, ht'⟩
    · rw [ht'] at ht
      exact h.fits hb (fun _ => id) (hf.dominated_terminator hbf ht
        (Terminator.mem_operands_of_typed hv)) (hf.toVerified.fits_terminator hbf ht hv)
    · cases ht'.symm.trans ht
      simp [Terminator.typedOperands] at hv

theorem wellFormed (hf : f.WellFormed) : g.WellFormed where
  verified := verify_eq_ok.2 (h.verified hf)
  layout_nodup := hf.layout_nodup.sublist h.layout
  live_nodup := by
    refine live_nodup_of (hf.layout_nodup.sublist h.layout) (fun b hb => ?_)
      fun b hb c hc i hi hi' => ?_
    · rw [h.insts hb]
      exact hf.block_nodup (h.mem_layout hb)
    · rw [h.insts hb] at hi
      rw [h.insts hc] at hi'
      exact block_unique hf.live_nodup (h.mem_layout hb) (h.mem_layout hc) hi hi'
  entry_preds {e} he := by
    refine List.eq_nil_iff_forall_not_mem.2 fun p hp => ?_
    obtain ⟨hp, hs⟩ := mem_preds.1 hp
    have : p ∈ f.preds e := mem_preds.2 ⟨h.mem_layout hp, h.successors_subset hp hs⟩
    rw [hf.entry_preds (h.entry?.symm.trans he)] at this
    cases this
  dominated_inst {b i before after v} hb hl hp hv := by
    rw [h.insts hb] at hl
    have hi : i ∈ (f.block b).insts := by simp [hl]
    rw [h.op hb hi, isPhi_keepSources] at hp
    rw [h.op hb hi, keepSources_of_not_phi g b hp] at hv
    exact h.availableOperand (hf.dominated_inst (h.mem_layout hb) hl hp hv)
  dominated_phi {b source i incoming v} hb hi ho hv := by
    rw [h.insts hb] at hi
    obtain ⟨incoming, ho', rfl⟩ := keepSources_eq_phi ((h.op hb hi).symm.trans ho)
    obtain ⟨hv, hs⟩ := List.mem_filter.1 hv
    have hs : source ∈ g.layout := (of_decide_eq_true hs).1
    rw [h.insts hs]
    exact h.availableOperand (hf.dominated_phi (h.mem_layout hb) hi ho' hv)
  dominated_terminator {b t v} hb ht hv := by
    rw [h.insts hb]
    rcases h.terminator hb with ht' | ⟨_, _, -, ht'⟩
    · exact h.availableOperand (hf.dominated_terminator (h.mem_layout hb) (ht' ▸ ht) hv)
    · cases ht'.symm.trans ht
      cases hv

/-! ### Steps -/

theorem body {b : BlockId} (hb : b ∈ g.layout) : g.body b = f.body b := by
  rw [Func.body, h.insts hb, Func.body]
  refine List.filter_congr fun i hi => ?_
  rw [isPhiInst, h.op hb hi, isPhi_keepSources, isPhiInst]

theorem enter {b c : BlockId} (hb : b ∈ g.layout) (hc : c ∈ g.successors b) (env : Env) :
    g.enter b c env = f.enter b c env := by
  have hcl := h.successor_mem hb hc
  have phis : ∀ i ∈ (f.block c).insts, g.phiValue? b env i = f.phiValue? b env i := by
    intro i hi
    rw [phiValue?, h.op hcl hi, phiValue?]
    cases f.op i with
    | phi incoming =>
      simp only [keepSources]
      rw [incoming?_filter (q := fun p => p ∈ g.layout ∧ c ∈ g.successors p) (by simp [hb, hc])]
    | _ => rfl
  simp only [Func.enter, enterEnv, h.body hcl, h.insts hcl, State.mk.injEq, Env.mk.injEq, true_and]
  funext i
  split
  · next hi => rw [phis i hi]
  · rfl

theorem stepTerminator {b : BlockId} (hb : b ∈ g.layout) (env : Env) :
    g.stepTerminator b env (g.block b).terminator =
      f.stepTerminator b env (f.block b).terminator := by
  have henter {t : Terminator} (ht : (g.block b).terminator = some t) {c : BlockId}
      (hc : c ∈ t.successors) : g.enter b c env = f.enter b c env :=
    h.enter hb (by simpa [successors, ht] using hc) env
  rcases h.terminator hb with ht | ⟨taken, untaken, hd, ht⟩
  · rw [← ht]
    rcases ht' : (g.block b).terminator with - | (target | ⟨cond, yes, no⟩ | v) <;>
      simp only [Func.stepTerminator]
    · rw [henter ht' (by simp [Terminator.successors])]
    · rw [henter ht' (by split <;> simp [Terminator.successors])]
  · obtain ⟨t, ht', hd⟩ := Option.bind_eq_some_iff.1 hd
    rw [ht, ht']
    cases t with
    | condBr cond yes no =>
      -- the branch goes to `taken` whatever the values are
      have htaken : (if env.value cond == 0.0 then no else yes) = taken := by
        simp only [Simplify.decided] at hd
        split at hd
        · next hyn =>
          cases hd
          simp [hyn]
        · split at hd <;> cases hd <;> simp [Env.value, boolValue_beq_zero]
      simp only [Func.stepTerminator, htaken]
      rw [henter ht (by simp [Terminator.successors])]
    | _ => cases hd

theorem behaviour_eq (hf : f.WellFormed) {e : BlockId} (he : f.entry? = some e)
    (args : List Float) (o : Oracle) :
    (g.process args).behaviour o = (f.process args).behaviour o := by
  have hstart : g.startState args = f.startState args := by
    rw [startState_of_entry he, startState_of_entry (h.entry?.trans he), h.body]
    exact entry_mem_layout (h.entry?.trans he)
  rw [process, hstart]
  refine (Process.behaviour_congr (f.process args).Reachable .start (fun _ => (·.keeps))
    (fun s hr => ?_) o).symm
  have hloc := located_of_reachable hf.toVerified he hr
  obtain ⟨π, hπ⟩ := hloc.path
  have hb := h.reached hπ
  change g.step s = f.step s
  unfold step
  cases hrest : s.rest with
  | cons i rest =>
    obtain ⟨before, hl⟩ := hloc.suffix
    have hi : i ∈ (f.block s.block).insts := by simp [hl, hrest]
    simp only [stepInst, h.op hb hi,
      keepSources_of_not_phi g s.block (hloc.not_phi i (by simp [hrest]))]
  | nil => exact h.stepTerminator hb s.env

theorem refines (hf : f.WellFormed) : f.Refines g := by
  cases he : f.entry? with
  | none => exact .of_declaration he (h.entry?.trans he)
  | some e => exact {
    wellFormed := h.wellFormed hf
    entry? := h.entry?
    callsWith := by
      rintro callee n ⟨i, hi, args, ho, hn⟩
      obtain ⟨b, hb, hib⟩ := Func.mem_live.1 hi
      rw [h.insts hb] at hib
      refine ⟨i, h.mem_live hi, args, ?_, hn⟩
      rw [h.op hb hib] at ho
      cases hop : f.op i <;> simp_all [keepSources]
    behaviour := h.behaviour_eq hf he }

end Restricts

end Func

end ScalarLang.IR
