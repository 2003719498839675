import ScalarLang.Proofs.IR.Edits
import ScalarLang.Proofs.IR.Refinement

/-! Using one value in the place of another. If wherever a result is available another operand is
available too and has the same value, then all uses of the result may become uses of the operand. -/

namespace ScalarLang.IR

namespace Func

variable {f : Func}

/-! ### Other operands with the same values -/

theorem evalOp_mapOperands {g : Operand → Operand} {i : InstId} {env : Env} {op : Operation}
    (h : ∀ v ∈ op.operands, env.value (g v) = env.value v) :
    evalOp i env (op.mapOperands g) = evalOp i env op := by
  cases op <;> simp_all [Operation.operands, Operation.mapOperands, evalOp]

theorem stepInst_mapOperands {g : Operand → Operand} {b : BlockId} {i : InstId}
    {rest : List InstId} {env : Env}
    (h : ∀ v ∈ (f.op i).operands, env.value (g v) = env.value v) :
    (f.mapOperands g).stepInst b i rest env = f.stepInst b i rest env := by
  have he := evalOp_mapOperands (i := i) h
  simp only [stepInst, op_mapOperands]
  cases ho : f.op i <;> rw [ho] at he h <;> simp only [Operation.mapOperands] at he ⊢
  case call callee args =>
    simp only [Operation.operands] at h
    simp only [List.map_map, Action.ask.injEq, Call.mk.injEq, true_and, and_true]
    exact List.map_congr_left h
  all_goals rw [he]

theorem incoming?_map (g : Operand → Operand) (incoming : List (Operand × BlockId))
    (source : BlockId) :
    incoming? (incoming.map fun p => (g p.1, p.2)) source = (incoming? incoming source).map g := by
  simp only [incoming?, List.find?_map, Option.map_map]
  rfl

theorem body_mapOperands (f : Func) (g : Operand → Operand) (b : BlockId) :
    (f.mapOperands g).body b = f.body b := by
  simp only [body, isPhiInst, (sameFlow_mapOperands f g).insts, op_mapOperands,
    Operation.isPhi_mapOperands]

theorem enter_mapOperands {g : Operand → Operand} {b c : BlockId} {env : Env}
    (h : ∀ i ∈ (f.block c).insts, ∀ incoming, f.op i = .phi incoming →
      ∀ v, incoming? incoming b = some v → env.value (g v) = env.value v) :
    (f.mapOperands g).enter b c env = f.enter b c env := by
  have phis : ∀ i ∈ (f.block c).insts,
      (f.mapOperands g).phiValue? b env i = f.phiValue? b env i := by
    intro i hi
    simp only [phiValue?, op_mapOperands]
    cases ho : f.op i <;> simp only [Operation.mapOperands]
    rw [incoming?_map, Option.map_map]
    exact Option.map_congr fun v hv => h i hi _ ho v hv
  simp only [enter, enterEnv, body_mapOperands, (sameFlow_mapOperands f g).insts, State.mk.injEq,
    Env.mk.injEq, true_and]
  funext i
  split
  · next hi => rw [phis i hi]
  · rfl

/-- Operands that have the same values make the same step. -/
theorem step_mapOperands {g : Operand → Operand} {s : State}
    (inst : ∀ i rest, s.rest = i :: rest → ∀ v ∈ (f.op i).operands,
      s.env.value (g v) = s.env.value v)
    (terminator : s.rest = [] → ∀ t, (f.block s.block).terminator = some t → ∀ v ∈ t.operands,
      s.env.value (g v) = s.env.value v)
    (phi : s.rest = [] → ∀ c ∈ f.successors s.block, ∀ i ∈ (f.block c).insts, ∀ incoming,
      f.op i = .phi incoming → ∀ v, incoming? incoming s.block = some v →
        s.env.value (g v) = s.env.value v) :
    (f.mapOperands g).step s = f.step s := by
  unfold step
  cases hr : s.rest with
  | cons i rest => exact stepInst_mapOperands (inst i rest hr)
  | nil =>
    have hs {t : Terminator} (ht : (f.block s.block).terminator = some t) :
        f.successors s.block = t.successors := by simp [successors, ht]
    have henter {c : BlockId} (hc : c ∈ f.successors s.block) :
        (f.mapOperands g).enter s.block c s.env = f.enter s.block c s.env :=
      enter_mapOperands (phi hr c hc)
    simp only [block_mapOperands]
    rcases ht : (f.block s.block).terminator with - | (target | ⟨cond, yes, no⟩ | v) <;>
      simp only [Option.map_none, Option.map_some, Terminator.mapOperands, stepTerminator]
    · rw [henter (by simp [hs ht, Terminator.successors])]
    · rw [terminator hr _ ht cond (by simp [Terminator.operands]), henter]
      rw [hs ht]
      split <;> simp [Terminator.successors]
    · rw [terminator hr _ ht v (by simp [Terminator.operands])]

/-! ### Results that can be replaced -/

/-- Reasons why all uses of instruction `i` may become uses of `v`. -/
structure Replaceable (f : Func) (i : InstId) (v : Operand) : Prop where
  ne : v ≠ .inst i
  fits {type : Ty} : f.Fits (.inst i) type → f.Fits v type
  /-- The operand is available where the instruction is carried out. -/
  available {b : BlockId} {before after : List InstId} : b ∈ f.layout →
    (f.block b).insts = before ++ i :: after →
    f.AvailableOperand b (if (f.op i).isPhi then [] else before) v
  not_entry {b : BlockId} : f.entry? = some b → i ∉ f.phis b
  /-- Where the instruction is carried out, the operand has its value. -/
  inst {args : List Float} {s : State} {rest : List InstId} {env' : Env} :
    (f.process args).Reachable s → s.rest = i :: rest → f.Executed i s.env env' →
    env'.results i = s.env.value v
  phi {s : State} {c : BlockId} : f.Located s → s.rest = [] → c ∈ f.successors s.block →
    i ∈ f.phis c → (f.Available s.block (f.block s.block).insts i →
      s.env.results i = s.env.value v) → (f.enterEnv s.block c s.env).results i = s.env.value v

namespace Replaceable

variable {i : InstId} {v : Operand}

/-- The operand is available wherever the result is. -/
theorem availableOperand (hf : f.WellFormed) (h : f.Replaceable i v) {b : BlockId}
    {before rest : List InstId} (hb : b ∈ f.layout) (hi : (f.block b).insts = before ++ rest)
    (ha : f.Available b before i) : f.AvailableOperand b before v := by
  rintro j rfl π hπ
  have hsub (l : List InstId) : ∀ k ∈ if (f.op i).isPhi then [] else l, k ∈ l := by
    intro k hk
    split at hk
    · cases hk
    · exact hk
  rcases ha π hπ with hm | ⟨c, hc, hm⟩
  · -- the instruction is in this block
    obtain ⟨l, r, rfl⟩ := List.append_of_mem hm
    have hl : (f.block b).insts = l ++ i :: (r ++ rest) := by simpa using hi
    exact (h.available hb hl j rfl π hπ).imp_left fun hk => List.mem_append_left _ (hsub l j hk)
  · -- it is in a block on the way
    obtain ⟨π₁, π₂, rfl, hπ₂⟩ := hπ.of_mem hc
    obtain ⟨l, r, hl⟩ := List.append_of_mem hm
    have hc' := (hπ.mem_layout hf.toVerified).2 c hc
    rcases h.available hc' hl j rfl π₂ hπ₂ with hk | ⟨d, hd, hk⟩
    · exact .inr ⟨c, hc, by rw [hl]; exact List.mem_append_left _ (hsub l j hk)⟩
    · exact .inr ⟨d, by simp [hd], hk⟩

/-- Once the result is available, the operand has its value. -/
def Agrees (f : Func) (i : InstId) (v : Operand) (s : State) : Prop :=
  ∀ before, (f.block s.block).insts = before ++ s.rest → f.Available s.block before i →
    s.env.results i = s.env.value v

/-- At the start only phis of the entry block are available. -/
theorem agrees_start (hf : f.WellFormed) (h : f.Replaceable i v) {e : BlockId}
    (he : f.entry? = some e) (args : List Float) : Agrees f i v (f.startState args) := by
  intro before hb ha
  rw [startState_of_entry he] at hb ha
  rw [hf.toVerified.insts_eq (entry_mem_layout he), List.append_cancel_right_eq] at hb
  subst hb
  rcases ha [] (.entry he) with hm | ⟨c, hc, -⟩
  · exact absurd hm (h.not_entry he)
  · cases hc

/-- An instruction does not change the operand where the result is available before it. -/
theorem ne_inst_of_available (hf : f.WellFormed) (h : f.Replaceable i v) {s : State}
    (hloc : f.Located s) {j : InstId} {rest before : List InstId} (hr : s.rest = j :: rest)
    (hb : (f.block s.block).insts = before ++ s.rest) (ha : f.Available s.block before i) :
    v ≠ .inst j := by
  rintro rfl
  obtain ⟨π, hπ⟩ := hloc.path
  have hin : j ∈ (f.block s.block).insts := by simp [hb, hr]
  have hnot : j ∉ before := not_mem_of_nodup (hf.block_nodup hloc.mem_layout) (hr ▸ hb)
  exact hf.not_available_self hπ hin hnot (h.availableOperand hf hloc.mem_layout hb ha j rfl)

theorem agrees_inst (hf : f.WellFormed) (h : f.Replaceable i v) {args : List Float} {s : State}
    (hs : (f.process args).Reachable s) (hloc : f.Located s) (ih : Agrees f i v s) {j : InstId}
    {rest : List InstId} {env' : Env} (hr : s.rest = j :: rest)
    (hex : f.Executed j s.env env') : Agrees f i v ⟨s.block, rest, env'⟩ := by
  intro before hb ha
  obtain ⟨before, rfl, hb'⟩ := hloc.exists_before hr hb
  by_cases hj : j = i
  · subst hj
    rw [h.inst hs hr hex, hex.value_of_ne h.ne]
  · have ha' : f.Available s.block before i := fun π hπ => (ha π hπ).imp_left fun hm => by
      simpa [Ne.symm hj] using hm
    have hvj := h.ne_inst_of_available hf hloc hr hb' ha'
    have hij : Operand.inst i ≠ .inst j := fun hij => hj (Operand.inst.inj hij).symm
    calc env'.value (.inst i)
        _ = s.env.results i := hex.value_of_ne hij
        _ = s.env.value v := ih before hb' ha'
        _ = env'.value v := (hex.value_of_ne hvj).symm

/-- Entering a block changes its phis, and the operand is none of them. -/
theorem agrees_enter (hf : f.WellFormed) (h : f.Replaceable i v) {s : State}
    (hloc : f.Located s) (ih : Agrees f i v s) {c : BlockId} (hc : c ∈ f.successors s.block)
    (hr : s.rest = []) : Agrees f i v (f.enter s.block c s.env) := by
  intro before hb ha
  have hv := hf.toVerified
  have hcl := hv.successor_mem hloc.mem_layout hc
  obtain rfl : before = f.phis c := List.append_cancel_right (hb.symm.trans (hv.insts_eq hcl))
  have hold : f.Available s.block (f.block s.block).insts i → s.env.results i = s.env.value v :=
    ih _ (by simp [hr])
  -- no phi of the block is available where the block begins
  have hself (hvc : f.AvailableOperand c [] v) : ∀ j, v = .inst j → j ∉ f.phis c := by
    intro j hj hjc
    obtain ⟨π, hπ⟩ := hloc.path
    exact hf.not_available_self (hπ.step hc) (mem_phis.1 hjc).1 (by simp) (hvc j hj)
  by_cases hi : i ∈ f.phis c
  · obtain ⟨hic, hphi⟩ := mem_phis.1 hi
    obtain ⟨l, r, hl⟩ := List.append_of_mem hic
    have hvc := h.available hcl hl
    rw [if_pos hphi] at hvc
    exact (h.phi hloc hr hc hi hold).trans (value_enterEnv (hself hvc)).symm
  · have ha' : f.Available c [] i := fun π hπ => (ha π hπ).imp_left fun hm => (hi hm).elim
    have hvc := h.availableOperand hf hcl (List.nil_append _).symm ha'
    have hic : ∀ j, Operand.inst i = .inst j → j ∉ f.phis c := by
      rintro j hij
      cases hij
      exact hi
    calc (f.enterEnv s.block c s.env).value (.inst i)
        _ = s.env.results i := value_enterEnv hic
        _ = s.env.value v := hold (ha'.of_successor hc)
        _ = (f.enterEnv s.block c s.env).value v := (value_enterEnv (hself hvc)).symm

/-- The operand has the value of the result wherever the result is available. -/
theorem equal (hf : f.WellFormed) (h : f.Replaceable i v) {args : List Float} {s : State}
    {e : BlockId} (he : f.entry? = some e) (hs : (f.process args).Reachable s)
    {before : List InstId} (hb : (f.block s.block).insts = before ++ s.rest)
    (ha : f.Available s.block before i) : s.env.results i = s.env.value v := by
  refine Process.Reachable.invariant (P := Agrees f i v) (h.agrees_start hf he args)
    (fun s hs ih => ?_) hs before hb ha
  have hloc := located_of_reachable hf.toVerified he hs
  exact keeps_step (fun _ _ _ hr hex => h.agrees_inst hf hs hloc ih hr hex)
    fun _ hc hr => h.agrees_enter hf hloc ih hc hr

end Replaceable

/-! ### Replacement -/

theorem fits_mapOperands (g : Operand → Operand) {v : Operand} {type : Ty} :
    (f.mapOperands g).Fits v type ↔ f.Fits v type := by
  cases v <;> simp only [Fits, (sameFlow_mapOperands f g).live, op_mapOperands,
    Operation.type?_mapOperands]
  · simp [mapOperands]
  · rfl

theorem Verified.mapOperands (h : f.Verified) {g : Operand → Operand}
    (hg : ∀ v type, f.Fits v type → f.Fits (g v) type) : (f.mapOperands g).Verified where
  block_lt hb := by simpa [Func.mapOperands] using h.block_lt hb
  terminated hb := by simpa [block_mapOperands] using h.terminated hb
  successor_mem hb hc := h.successor_mem hb (by rwa [(sameFlow_mapOperands f g).successors] at hc)
  inst_lt hb hi := by
    rw [(sameFlow_mapOperands f g).insts] at hi
    simpa [Func.mapOperands] using h.inst_lt hb hi
  phis_first hb := by
    simpa only [(sameFlow_mapOperands f g).insts, op_mapOperands, Operation.isPhi_mapOperands]
      using h.phis_first hb
  phi_sources hb hi ho := by
    rw [(sameFlow_mapOperands f g).insts] at hi
    rw [op_mapOperands] at ho
    obtain ⟨incoming, ho', rfl⟩ := Operation.mapOperands_eq_phi ho
    rw [(sameFlow_mapOperands f g).preds, List.map_map]
    exact h.phi_sources hb hi ho'
  slot_lt hb hi hs := by
    rw [(sameFlow_mapOperands f g).insts] at hi
    rw [op_mapOperands, Operation.slot?_mapOperands] at hs
    exact h.slot_lt hb hi hs
  fits_inst hb hi hv := by
    rw [(sameFlow_mapOperands f g).insts] at hi
    rw [op_mapOperands, Operation.typedOperands_mapOperands, List.mem_map] at hv
    obtain ⟨⟨v, type⟩, hv, he⟩ := hv
    cases he
    exact (fits_mapOperands g).2 (hg _ _ (h.fits_inst hb hi hv))
  fits_terminator hb ht hv := by
    simp only [block_mapOperands, Option.map_eq_some_iff] at ht
    obtain ⟨t, ht, rfl⟩ := ht
    rw [Terminator.typedOperands_mapOperands, List.mem_map] at hv
    obtain ⟨⟨v, type⟩, hv, he⟩ := hv
    cases he
    exact (fits_mapOperands g).2 (hg _ _ (h.fits_terminator hb ht hv))

theorem Replaceable.wellFormed {i : InstId} {v : Operand} (hf : f.WellFormed)
    (h : f.Replaceable i v) : (f.replaceUses i v).WellFormed := by
  have hs : SameFlow f (f.replaceUses i v) := sameFlow_mapOperands f _
  have hv := hf.toVerified
  have available {b : BlockId} {before rest : List InstId} {x : Operand} (hb : b ∈ f.layout)
      (hi : (f.block b).insts = before ++ rest) (hx : f.AvailableOperand b before x) :
      (f.replaceUses i v).AvailableOperand b before (if x = .inst i then v else x) := by
    refine hs.availableOperand ?_
    split
    · next hxi => exact h.availableOperand hf hb hi (hx i hxi)
    · exact hx
  exact {
    verified := verify_eq_ok.2 (hv.mapOperands fun x type hx => by
      split
      · next hxi => exact h.fits (hxi ▸ hx)
      · exact hx)
    layout_nodup := hf.layout_nodup
    live_nodup := hs.live ▸ hf.live_nodup
    entry_preds := fun he => (hs.preds _).trans (hf.entry_preds (hs.entry? ▸ he))
    dominated_inst := by
      intro b j before after x hb hi hp hx
      rw [hs.insts] at hi
      rw [replaceUses, op_mapOperands, Operation.isPhi_mapOperands] at hp
      rw [replaceUses, op_mapOperands, Operation.operands_mapOperands, List.mem_map] at hx
      obtain ⟨x, hx, rfl⟩ := hx
      exact available hb hi (hf.dominated_inst hb hi hp hx)
    dominated_phi := by
      intro b source j incoming x hb hi ho hx
      rw [hs.insts] at hi
      rw [replaceUses, op_mapOperands] at ho
      obtain ⟨incoming, ho', rfl⟩ := Operation.mapOperands_eq_phi ho
      obtain ⟨⟨y, source⟩, hy, he⟩ := List.mem_map.1 hx
      cases he
      have hsource := (hv.mem_sources hb hi ho').1 (List.mem_map_of_mem (f := (·.2)) hy)
      rw [hs.insts]
      exact available hsource.1 (List.append_nil _).symm (hf.dominated_phi hb hi ho' hy)
    dominated_terminator := by
      intro b t x hb ht hx
      simp only [replaceUses, block_mapOperands, Option.map_eq_some_iff] at ht
      obtain ⟨t, ht, rfl⟩ := ht
      rw [Terminator.operands_mapOperands, List.mem_map] at hx
      obtain ⟨x, hx, rfl⟩ := hx
      rw [hs.insts]
      exact available hb (List.append_nil _).symm (hf.dominated_terminator hb ht hx) }

theorem Replaceable.behaviour_eq {i : InstId} {v : Operand} (hf : f.WellFormed)
    (h : f.Replaceable i v) {e : BlockId} (he : f.entry? = some e) (args : List Float)
    (o : Oracle) :
    ((f.replaceUses i v).process args).behaviour o = (f.process args).behaviour o := by
  have hs : SameFlow f (f.replaceUses i v) := sameFlow_mapOperands f _
  have hv := hf.toVerified
  have hstart : (f.replaceUses i v).startState args = f.startState args := by
    rw [startState_of_entry he, startState_of_entry (hs.entry?.trans he), replaceUses,
      body_mapOperands]
  rw [process, hstart]
  refine (Process.behaviour_congr (f.process args).Reachable .start (fun _ => (·.keeps))
    (fun s hr => ?_) o).symm
  have hloc := located_of_reachable hv he hr
  have value {x : Operand} {before : List InstId}
      (hb : (f.block s.block).insts = before ++ s.rest)
      (hx : f.AvailableOperand s.block before x) :
      s.env.value (if x = .inst i then v else x) = s.env.value x := by
    split
    · next hxi =>
      subst hxi
      exact (h.equal hf he hr hb (hx i rfl)).symm
    · rfl
  refine step_mapOperands (fun j rest hj x hx => ?_) (fun hn t ht x hx => ?_)
    fun hn c hc j hj incoming ho x hx => ?_
  · obtain ⟨before, hb⟩ := hloc.suffix
    have hp := hloc.not_phi j (by simp [hj])
    exact value hb (hf.dominated_inst hloc.mem_layout (hj ▸ hb) hp hx)
  · exact value (by simp [hn]) (hf.dominated_terminator hloc.mem_layout ht hx)
  · have hcl := hv.successor_mem hloc.mem_layout hc
    exact value (by simp [hn]) (hf.dominated_phi hcl hj ho (mem_of_incoming? hx))

theorem callsWith_mapOperands (g : Operand → Operand) {callee : String} {n : Nat}
    (h : (f.mapOperands g).CallsWith callee n) : f.CallsWith callee n := by
  obtain ⟨i, hi, args, ho, hn⟩ := h
  rw [(sameFlow_mapOperands f g).live] at hi
  rw [op_mapOperands] at ho
  cases hop : f.op i <;> simp only [hop, Operation.mapOperands, reduceCtorEq,
    Operation.call.injEq] at ho
  obtain ⟨rfl, rfl⟩ := ho
  exact ⟨i, hi, _, hop, by simpa using hn⟩

/-- Replacement changes nothing that can be observed. -/
theorem Replaceable.refines {i : InstId} {v : Operand} (hf : f.WellFormed)
    (h : f.Replaceable i v) : f.Refines (f.replaceUses i v) := by
  have hs : f.SameFlow (f.replaceUses i v) := sameFlow_mapOperands f _
  cases he : f.entry? with
  | none => exact .of_declaration he (hs.entry?.trans he)
  | some e => exact {
    wellFormed := h.wellFormed hf
    entry? := hs.entry?
    callsWith := callsWith_mapOperands _
    behaviour := h.behaviour_eq hf he }

end Func

end ScalarLang.IR
