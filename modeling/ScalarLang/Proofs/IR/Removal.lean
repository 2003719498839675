import ScalarLang.Proofs.IR.Edits
import ScalarLang.Proofs.IR.Refinement

/-! Taking instructions out of a function. It makes no difference if their results are not used and
they have no other effect than to write slots that nothing else reads. -/

namespace ScalarLang.IR

namespace Func

variable {f : Func}

theorem mem_usedOperands {v : Operand} : v ∈ f.usedOperands ↔
    (∃ b ∈ f.layout, ∃ i ∈ (f.block b).insts, v ∈ (f.op i).operands) ∨
      ∃ b ∈ f.layout, ∃ t, (f.block b).terminator = some t ∧ v ∈ t.operands := by
  simp only [usedOperands, List.mem_flatMap, List.mem_append]
  constructor
  · rintro ⟨b, hb, h | h⟩
    · exact .inl ⟨b, hb, h⟩
    · cases ht : (f.block b).terminator with
      | none => simp [ht] at h
      | some t => exact .inr ⟨b, hb, t, ht, by simpa [ht] using h⟩
  · rintro (⟨b, hb, h⟩ | ⟨b, hb, t, ht, h⟩)
    · exact ⟨b, hb, .inl h⟩
    · exact ⟨b, hb, .inr (by simpa [ht] using h)⟩

/-- Nothing is lost without these instructions. -/
structure Removable (f : Func) (dead : List InstId) : Prop where
  unused {i : InstId} : i ∈ dead → .inst i ∉ f.usedOperands
  /-- Each has no effect, or it writes a slot that only others of them read. -/
  kind {i : InstId} : i ∈ dead → i ∈ f.live → (f.op i).isPure ∨
    ∃ s v, f.op i = .store s v ∧ ∀ j ∈ f.live, f.op j = .load s → j ∈ dead

section Shape

variable (f) (dead : List InstId)

theorem layout_removeInsts : (f.removeInsts dead).layout = f.layout := rfl

theorem successors_removeInsts (b : BlockId) :
    (f.removeInsts dead).successors b = f.successors b := by
  rw [successors, terminator_removeInsts, successors]

theorem preds_removeInsts (b : BlockId) : (f.removeInsts dead).preds b = f.preds b := by
  simp only [preds, layout_removeInsts, successors_removeInsts]

theorem mem_insts_removeInsts {b : BlockId} {i : InstId} :
    i ∈ ((f.removeInsts dead).block b).insts ↔ i ∈ (f.block b).insts ∧ i ∉ dead := by
  simp [insts_block_removeInsts]

theorem mem_live_removeInsts {i : InstId} :
    i ∈ (f.removeInsts dead).live ↔ i ∈ f.live ∧ i ∉ dead := by
  simp [live_removeInsts]

theorem path_removeInsts {π : List BlockId} {b : BlockId} :
    (f.removeInsts dead).Path π b ↔ f.Path π b := by
  constructor <;> intro h <;> induction h with
  | entry h => exact .entry h
  | step _ hc ih => exact ih.step (by simpa [successors_removeInsts] using hc)

theorem body_removeInsts (b : BlockId) :
    (f.removeInsts dead).body b = (f.body b).filter (!dead.contains ·) := by
  simp only [body, insts_block_removeInsts, List.filter_filter]
  exact List.filter_congr fun i _ => Bool.and_comm ..

end Shape

/-! ### Well-formed functions -/

namespace Removable

variable {dead : List InstId}

theorem fits (h : f.Removable dead) {v : Operand} {type : Ty} (hv : v ∈ f.usedOperands)
    (hf : f.Fits v type) : (f.removeInsts dead).Fits v type := by
  cases v with
  | inst i =>
    obtain ⟨hl, hi, ht⟩ := hf
    exact ⟨(mem_live_removeInsts f dead).2 ⟨hl, fun hd => h.unused hd hv⟩, hi, ht⟩
  | _ => exact hf

theorem verified (h : f.Removable dead) (hv : f.Verified) : (f.removeInsts dead).Verified where
  block_lt hb := by simpa [removeInsts] using hv.block_lt hb
  terminated hb := by simpa only [terminator_removeInsts] using hv.terminated hb
  successor_mem hb hc := hv.successor_mem hb (by rwa [successors_removeInsts] at hc)
  inst_lt hb hi := hv.inst_lt hb ((mem_insts_removeInsts f dead).1 hi).1
  phis_first hb := by
    rw [insts_block_removeInsts]
    exact (hv.phis_first hb).filter _
  phi_sources hb hi ho := by
    rw [preds_removeInsts]
    exact hv.phi_sources hb ((mem_insts_removeInsts f dead).1 hi).1 ho
  slot_lt hb hi hs := hv.slot_lt hb ((mem_insts_removeInsts f dead).1 hi).1 hs
  fits_inst hb hi ht := by
    have hi := ((mem_insts_removeInsts f dead).1 hi).1
    exact h.fits (mem_usedOperands.2 (.inl ⟨_, hb, _, hi, Operation.mem_operands_of_typed ht⟩))
      (hv.fits_inst hb hi ht)
  fits_terminator hb ht hp := by
    rw [terminator_removeInsts] at ht
    exact h.fits (mem_usedOperands.2 (.inr ⟨_, hb, _, ht, Terminator.mem_operands_of_typed hp⟩))
      (hv.fits_terminator hb ht hp)

/-- What is used stays available. -/
theorem availableOperand (h : f.Removable dead) {b : BlockId} {before : List InstId} {v : Operand}
    (hv : v ∈ f.usedOperands) (ha : f.AvailableOperand b before v) :
    (f.removeInsts dead).AvailableOperand b (before.filter (!dead.contains ·)) v := by
  rintro i rfl π hπ
  have hi : i ∉ dead := fun hd => h.unused hd hv
  refine (ha i rfl π ((path_removeInsts f dead).1 hπ)).imp (fun hm => by simp [hm, hi]) ?_
  rintro ⟨c, hc, hm⟩
  exact ⟨c, hc, (mem_insts_removeInsts f dead).2 ⟨hm, hi⟩⟩

theorem wellFormed (h : f.Removable dead) (hf : f.WellFormed) :
    (f.removeInsts dead).WellFormed where
  verified := verify_eq_ok.2 (h.verified hf.toVerified)
  layout_nodup := hf.layout_nodup
  live_nodup := by
    rw [live_removeInsts]
    exact hf.live_nodup.filter _
  entry_preds he := (preds_removeInsts f dead _).trans (hf.entry_preds he)
  dominated_inst := by
    intro b i before after v hb hi hp hv
    rw [insts_block_removeInsts, List.filter_eq_append_iff] at hi
    obtain ⟨l, r, hl, rfl, hr⟩ := hi
    obtain ⟨r₁, r₂, rfl, hdead, hi, -⟩ := List.filter_eq_cons_iff.1 hr
    -- what stands between `before` and `i` is removed
    have hbefore : l.filter (!dead.contains ·) = (l ++ r₁).filter (!dead.contains ·) := by
      rw [List.filter_append, List.filter_eq_nil_iff.2 hdead, List.append_nil]
    rw [hbefore]
    have hmem : i ∈ (f.block b).insts := by simp [hl]
    exact h.availableOperand (mem_usedOperands.2 (.inl ⟨b, hb, i, hmem, hv⟩))
      (hf.dominated_inst hb (by simpa using hl) hp hv)
  dominated_phi := by
    intro b source i incoming v hb hi ho hv
    have hi := ((mem_insts_removeInsts f dead).1 hi).1
    have hmem : v ∈ (f.op i).operands := by
      rw [show f.op i = _ from ho]
      exact List.mem_map_of_mem (f := (·.1)) hv
    rw [insts_block_removeInsts]
    exact h.availableOperand (mem_usedOperands.2 (.inl ⟨b, hb, i, hi, hmem⟩))
      (hf.dominated_phi hb hi ho hv)
  dominated_terminator := by
    intro b t v hb ht hv
    rw [terminator_removeInsts] at ht
    rw [insts_block_removeInsts]
    exact h.availableOperand (mem_usedOperands.2 (.inr ⟨b, hb, t, ht, hv⟩))
      (hf.dominated_terminator hb ht hv)

/-! ### Behaviour -/

/-- Values that agree but for the results of removed instructions and the slots that these write. -/
structure Agree (f : Func) (dead : List InstId) (env env' : Env) : Prop where
  args : env'.args = env.args
  results {i : InstId} : i ∉ dead → env'.results i = env.results i
  slots {s : SlotId} : (∀ i ∈ dead, i ∈ f.live → ∀ v, f.op i ≠ .store s v) →
    env'.slots s = env.slots s

namespace Agree

variable {env env' : Env}

theorem value (h : Agree f dead env env') {v : Operand} (hv : ∀ i ∈ dead, v ≠ .inst i) :
    env'.value v = env.value v := by
  cases v with
  | inst i => exact h.results fun hi => hv i hi rfl
  | arg n => simp only [Env.value, h.args]
  | _ => rfl

theorem setResult (h : Agree f dead env env') (i : InstId) (x : Float) :
    Agree f dead (env.setResult i x) (env'.setResult i x) where
  args := h.args
  results {j} hj := by
    simp only [Env.setResult]
    split
    · rfl
    · exact h.results hj
  slots hs := h.slots hs

theorem setSlot (h : Agree f dead env env') (s : SlotId) (x : Float) :
    Agree f dead (env.setSlot s x) (env'.setSlot s x) where
  args := h.args
  results hj := h.results hj
  slots {s'} hs := by
    simp only [Env.setSlot]
    split
    · rfl
    · exact h.slots hs

/-- A removed instruction leaves the values in agreement. -/
theorem evalOp_dead (h : Agree f dead env env') {i : InstId}
    (hi : i ∈ dead) (hl : i ∈ f.live) : Agree f dead (evalOp i env (f.op i)) env' := by
  have result (x : Float) : Agree f dead (env.setResult i x) env' :=
    { args := h.args
      results := fun {j} hj => by
        have hne : j ≠ i := fun hji => hj (hji ▸ hi)
        rw [h.results hj, env.results_setResult_of_ne x hne]
      slots := h.slots }
  cases ho : f.op i with
  | store s v =>
    exact {
      args := h.args
      results := h.results
      slots := fun {s'} hs => by
        have hne : s' ≠ s := fun hss => hs i hi hl v (hss ▸ ho)
        rw [h.slots hs, evalOp, env.slots_setSlot_of_ne _ hne] }
  | call callee args => exact h
  | phi incoming => exact h
  | _ => exact result _

/-- Another instruction does the same with both. -/
theorem evalOp_alive (hr : f.Removable dead) (h : Agree f dead env env') {i : InstId}
    (hi : i ∉ dead) (hl : i ∈ f.live)
    (hv : ∀ v ∈ (f.op i).operands, env'.value v = env.value v) :
    Agree f dead (evalOp i env (f.op i)) (evalOp i env' (f.op i)) := by
  cases ho : f.op i with
  | load s =>
    have hs : env'.slots s = env.slots s := h.slots fun j hj hjl v hjo => by
      rcases hr.kind hj hjl with hp | ⟨s', v', hjo', hload⟩
      · simp [hjo, Operation.isPure] at hp
      · cases hjo.symm.trans hjo'
        exact hi (hload i hl ho)
    simp only [evalOp, hs]
    exact h.setResult i _
  | store s v =>
    rw [ho] at hv
    simp only [evalOp, hv v (by simp [Operation.operands])]
    exact h.setSlot s _
  | call callee args => exact h
  | phi incoming => exact h
  | binary op l r =>
    rw [ho] at hv
    simp only [evalOp, hv l (by simp [Operation.operands]), hv r (by simp [Operation.operands])]
    exact h.setResult i _
  | compare test l r =>
    rw [ho] at hv
    simp only [evalOp, hv l (by simp [Operation.operands]), hv r (by simp [Operation.operands])]
    exact h.setResult i _
  | toDouble v =>
    rw [ho] at hv
    simp only [evalOp, hv v (by simp [Operation.operands])]
    exact h.setResult i _

/-- Entering a block, too. -/
theorem enterEnv (h : Agree f dead env env') {b c : BlockId}
    (hv : ∀ i ∈ (f.block c).insts, i ∉ dead → ∀ incoming, f.op i = .phi incoming →
      ∀ v, incoming? incoming b = some v → env'.value v = env.value v) :
    Agree f dead (f.enterEnv b c env) ((f.removeInsts dead).enterEnv b c env') where
  args := h.args
  results {i} hi := by
    simp only [Func.enterEnv, mem_insts_removeInsts, hi, not_false_eq_true, and_true]
    split
    · next hm =>
      have hp : (f.removeInsts dead).phiValue? b env' i = f.phiValue? b env i := by
        simp only [phiValue?, op_removeInsts]
        cases ho : f.op i with
        | phi incoming => exact Option.map_congr fun v hvi => hv i hm hi incoming ho v hvi
        | _ => rfl
      rw [hp, h.results hi]
    · exact h.results hi
  slots hs := h.slots hs

end Agree

/-- The two runs are at the same place, but for removed instructions. -/
structure Follows (f : Func) (dead : List InstId) (s s' : State) : Prop where
  located : f.Located s
  block : s'.block = s.block
  rest : s'.rest = s.rest.filter (!dead.contains ·)
  env : Agree f dead s.env s'.env

theorem Follows.enter (h : f.Removable dead) (hf : f.Verified) {s s' : State}
    (hs : Follows f dead s s') {c : BlockId} (hc : c ∈ f.successors s.block) :
    Follows f dead (f.enter s.block c s.env)
      ((f.removeInsts dead).enter s'.block c s'.env) where
  located := hs.located.enter hf hc
  block := rfl
  rest := body_removeInsts f dead c
  env := by
    rw [hs.block]
    refine hs.env.enterEnv fun i hi _ incoming ho v hv => hs.env.value ?_
    rintro j hj rfl
    have hcl := hf.successor_mem hs.located.mem_layout hc
    have hm : .inst j ∈ (f.op i).operands := by
      rw [ho]
      exact List.mem_map_of_mem (f := (·.1)) (mem_of_incoming? hv)
    exact h.unused hj (mem_usedOperands.2 (.inl ⟨c, hcl, i, hi, hm⟩))

theorem Follows.inst_dead (h : f.Removable dead) {s s' : State} (hs : Follows f dead s s')
    {i : InstId} {rest : List InstId} (hr : s.rest = i :: rest) (hi : i ∈ dead) :
    ∃ s₁, f.step s = .next s₁ ∧ Follows f dead s₁ s' ∧ s₁.rest.length < s.rest.length := by
  obtain ⟨b, r, env⟩ := s
  cases hr
  have hl : i ∈ f.live := by
    obtain ⟨before, hb⟩ := hs.located.suffix
    exact mem_live.2 ⟨b, hs.located.mem_layout, by simp [hb]⟩
  have hc : ∀ callee args, f.op i ≠ .call callee args := by
    intro callee args ho
    rcases h.kind hi hl with hp | ⟨_, _, ho', -⟩
    · simp [ho, Operation.isPure] at hp
    · simp [ho] at ho'
  refine ⟨⟨b, rest, evalOp i env (f.op i)⟩, ?_, ⟨hs.located.tail, hs.block, ?_, ?_⟩, by simp⟩
  · simp only [step, stepInst]
  · simpa [hi] using hs.rest
  · exact hs.env.evalOp_dead hi hl

theorem Follows.inst_alive (h : f.Removable dead) {s s' : State} (hs : Follows f dead s s')
    {i : InstId} {rest : List InstId} (hr : s.rest = i :: rest) (hi : i ∉ dead) :
    (f.step s).Matches (Follows f dead) ((f.removeInsts dead).step s') := by
  obtain ⟨b, r, env⟩ := s
  obtain ⟨b', r', env'⟩ := s'
  cases hr
  obtain rfl : b' = b := hs.block
  have hr' : r' = i :: rest.filter (!dead.contains ·) := by
    simpa [hi] using hs.rest
  subst hr'
  have hm : i ∈ (f.block b').insts := by
    obtain ⟨before, hb⟩ := hs.located.suffix
    simp [hb]
  have hl : i ∈ f.live := mem_live.2 ⟨b', hs.located.mem_layout, hm⟩
  have hv : ∀ v ∈ (f.op i).operands, env'.value v = env.value v := by
    refine fun v hv => hs.env.value ?_
    rintro j hj rfl
    exact h.unused hj (mem_usedOperands.2 (.inl ⟨b', hs.located.mem_layout, i, hm, hv⟩))
  have he := hs.env.evalOp_alive h hi hl hv
  simp only [step, stepInst, op_removeInsts]
  cases ho : f.op i with
  | call callee args =>
    rw [ho] at hv
    have ha : args.map env'.value = args.map env.value := List.map_congr_left hv
    simp only [ha]
    exact .ask fun v => ⟨hs.located.tail, rfl, rfl, hs.env.setResult i v⟩
  | _ =>
    rw [ho] at he
    exact .next ⟨hs.located.tail, rfl, rfl, he⟩

theorem Follows.terminator (h : f.Removable dead) (hf : f.Verified) {s s' : State}
    (hs : Follows f dead s s') (hr : s.rest = []) :
    (f.step s).Matches (Follows f dead) ((f.removeInsts dead).step s') := by
  have hr' : s'.rest = [] := by simp [hs.rest, hr]
  have hsucc {t : Terminator} (ht : (f.block s.block).terminator = some t) :
      f.successors s.block = t.successors := by simp [successors, ht]
  have hv {t : Terminator} (ht : (f.block s.block).terminator = some t) :
      ∀ v ∈ t.operands, s'.env.value v = s.env.value v := by
    refine fun v hv => hs.env.value ?_
    rintro j hj rfl
    exact h.unused hj (mem_usedOperands.2 (.inr ⟨_, hs.located.mem_layout, t, ht, hv⟩))
  simp only [step, hr, hr', terminator_removeInsts, hs.block]
  rcases ht : (f.block s.block).terminator with - | (target | ⟨cond, yes, no⟩ | v) <;>
    simp only [stepTerminator]
  · exact .stuck
  · have := hs.enter h hf (c := target) (by simp [hsucc ht, Terminator.successors])
    rw [hs.block] at this
    exact .next this
  · rw [hv ht cond (by simp [Terminator.operands])]
    have := hs.enter h hf (c := if s.env.value cond == 0.0 then no else yes) (by
      rw [hsucc ht]
      split <;> simp [Terminator.successors])
    rw [hs.block] at this
    exact .next this
  · rw [hv ht v (by simp [Terminator.operands])]
    exact .done _

/-- The function without the instructions behaves as the one with them. -/
theorem behaviour_eq (h : f.Removable dead) (hf : f.Verified) {e : BlockId}
    (he : f.entry? = some e) (args : List Float) (o : Oracle) :
    ((f.removeInsts dead).process args).behaviour o = (f.process args).behaviour o := by
  have start : Follows f dead (f.startState args) ((f.removeInsts dead).startState args) := by
    rw [startState_of_entry he, startState_of_entry (f := f.removeInsts dead) he]
    exact ⟨startState_of_entry he args ▸ located_start hf he args, rfl,
      body_removeInsts f dead e, rfl, fun _ => rfl, fun _ => rfl⟩
  refine (Simulation.lockstep (p := f.process args) (q := (f.removeInsts dead).process args)
    (Follows f dead) (fun s => s.rest.length) start ?_).behaviour_eq o |>.symm
  intro s s' hs
  rcases hr : s.rest with - | ⟨i, rest⟩
  · exact .inl (hs.terminator h hf hr)
  · by_cases hi : i ∈ dead
    · exact .inr (hr ▸ hs.inst_dead h hr hi)
    · exact .inl (hs.inst_alive h hr hi)

theorem refines (h : f.Removable dead) (hf : f.WellFormed) : f.Refines (f.removeInsts dead) := by
  cases he : f.entry? with
  | none => exact .of_declaration he he
  | some e => exact {
    wellFormed := h.wellFormed hf
    entry? := rfl
    callsWith := by
      rintro callee n ⟨i, hi, hargs⟩
      exact ⟨i, ((mem_live_removeInsts f dead).1 hi).1, hargs⟩
    behaviour := h.behaviour_eq hf.toVerified he }

end Removable

end Func

end ScalarLang.IR
