import ScalarLang.Proofs.Codegen.Certificate

/-! Steps of code generation keep a function certified. Each step leads to a certificate that agrees
on the blocks that were there, uses only what is available, and lays out all blocks that it
creates. -/

namespace ScalarLang

/-- A function is recorded under its own name. -/
def Registry.Keyed (registry : Registry) : Prop :=
  ∀ {name proto}, registry.find? name = some proto → proto.name = name

theorem Registry.keyed_empty : Registry.Keyed {} := nofun

theorem Registry.Keyed.record {registry : Registry} (h : registry.Keyed) (proto : Prototype) :
    (registry.record proto).Keyed := by
  intro name p hp
  rw [Registry.record, Table.find?_insert] at hp
  split at hp
  · next he => exact Option.some.inj hp ▸ he.symm
  · exact h hp

/-- A function is declared if there is none of its name. -/
theorem IR.Module.find?_redeclare {m : IR.Module} {name : String} (h : m.find? name = none)
    (params : List String) (x : String) : (m.redeclare name params).find? x =
      if x = name then some (.declaration name params) else m.find? x := by
  have hadd : m.redeclare name params =
      { m with functions := m.functions ++ [.declaration name params] } := by
    simp [redeclare, declare, h]
  rw [hadd, find?, List.find?_append]
  split
  · next hx =>
    subst hx
    rw [show m.functions.find? _ = none from h]
    simp [Func.declaration]
  · next hx => simp [Func.declaration, find?, Ne.symm hx]

namespace Codegen

open IR (Builder BlockId Certificate Func InstId Operand Operation SlotId Terminator Ty)

variable {s s' s₁ s₂ : State} {A A' A₁ A₂ : Certificate} {vs ws : List Operand}

/-! ### States -/

/-- The module has a function of this name, with `n` parameters. -/
def State.Knows (s : State) (callee : String) (n : Nat) : Prop :=
  ∃ f, s.unit.find? callee = some f ∧ f.arity = n

/-- The function is certified, its blocks but the current one are ended, and what it calls and the
variables that are visible are known. -/
structure State.Sound (s : State) (A : Certificate) : Prop where
  certified : s.builder.func.Certified A
  ready : s.builder.Ready
  current_mem : s.builder.current ∈ s.builder.func.layout
  ended {c : BlockId} : c ∈ s.builder.func.layout → c ≠ s.builder.current →
    (s.builder.func.block c).terminator.isSome
  scope_lt {name : String} {slot : SlotId} : s.scope.find? name = some slot →
    slot < s.builder.func.slots.size
  knows {i : InstId} {callee : String} {args : List Operand} : i < s.builder.func.insts.size →
    s.builder.func.op i = .call callee args → s.Knows callee args.length

/-- The value can be used where code is generated next. -/
structure State.Usable (s : State) (A : Certificate) (v : Operand) (type : Ty) : Prop where
  fits : s.builder.func.Fits v type
  atEnd {i : InstId} : v = .inst i → s.builder.func.AtEnd A s.builder.current i

theorem State.usable_const (s : State) (A : Certificate) (x : Float) :
    s.Usable A (.const x) .double := ⟨rfl, nofun⟩

/-- A certified function has grown to one that is certified as well, with results `vs`. -/
structure State.Continues (s : State) (A : Certificate) (vs : List Operand) (s' : State)
    (A' : Certificate) : Prop where
  sound : s'.Sound A'
  grows : s.builder.func.Grows s'.builder.func
  agree {c : BlockId} : c < s.builder.func.blocks.size → A' c = A c
  atEnd {i : InstId} : s.builder.func.AtEnd A s.builder.current i →
    s'.builder.func.AtEnd A' s'.builder.current i
  usable {v : Operand} : v ∈ vs → s'.Usable A' v .double
  /-- All new blocks are laid out. -/
  laid_out {c : BlockId} : c < s'.builder.func.blocks.size → c ∉ s'.builder.func.layout →
    c < s.builder.func.blocks.size ∧ c ∉ s.builder.func.layout
  knows {callee : String} {n : Nat} : s.Knows callee n → s'.Knows callee n

namespace State.Continues

theorem refl (hs : s.Sound A) : s.Continues A [] s A :=
  ⟨hs, .refl _, fun _ => rfl, id, nofun, fun h h' => ⟨h, h'⟩, id⟩

theorem of_subset (h : s.Continues A vs s' A') (hw : ws ⊆ vs) : s.Continues A ws s' A' :=
  { h with usable := fun hv => h.usable (hw hv) }

theorem still_usable (h : s.Continues A vs s' A') {v : Operand} {type : Ty}
    (hv : s.Usable A v type) : s'.Usable A' v type :=
  ⟨h.grows.fits hv.fits, fun hi => h.atEnd (hv.atEnd hi)⟩

theorem trans (h₁ : s.Continues A vs s₁ A₁) (h₂ : s₁.Continues A₁ ws s₂ A₂) :
    s.Continues A (vs ++ ws) s₂ A₂ where
  sound := h₂.sound
  grows := h₁.grows.trans h₂.grows
  agree hc := (h₂.agree (Nat.lt_of_lt_of_le hc h₁.grows.blocks_le)).trans (h₁.agree hc)
  atEnd hi := h₂.atEnd (h₁.atEnd hi)
  usable hv := by
    rcases List.mem_append.1 hv with hv | hv
    · exact h₂.still_usable (h₁.usable hv)
    · exact h₂.usable hv
  laid_out hc hc' := by
    obtain ⟨hc, hc'⟩ := h₂.laid_out hc hc'
    exact h₁.laid_out hc hc'
  knows hn := h₂.knows (h₁.knows hn)

/-- Only the last results matter. -/
theorem next (h₁ : s.Continues A vs s₁ A₁) (h₂ : s₁.Continues A₁ ws s₂ A₂) :
    s.Continues A ws s₂ A₂ :=
  (h₁.trans h₂).of_subset (List.subset_append_right _ _)

theorem const (h : s.Continues A vs s' A') (v : Float) : s.Continues A [.const v] s' A' :=
  { h with usable := fun hv => List.mem_singleton.1 hv ▸ s'.usable_const A' v }

end State.Continues

/-! ### Instructions and slots -/

/-- What an operation needs so that it can be added. -/
structure State.Accepts (s : State) (A : Certificate) (op : Operation) : Prop extends
    s.builder.Accepts A op where
  knows {callee : String} {args : List Operand} : op = .call callee args →
    s.Knows callee args.length

namespace State.Accepts

theorem of_usable {op : Operation} (hphi : op.isPhi = false)
    (hslot : ∀ slot, op.slot? = some slot → slot < s.builder.func.slots.size)
    (huse : ∀ p ∈ op.typedOperands, s.Usable A p.1 p.2)
    (hknows : ∀ callee args, op = .call callee args → s.Knows callee args.length) :
    s.Accepts A op where
  slot_lt := hslot _
  fits hv := (huse _ hv).fits
  dominated _ hj := by
    obtain ⟨type, hv⟩ := Operation.exists_typed_of_mem hj
    exact (huse _ hv).atEnd rfl
  phi ho := by
    rw [ho] at hphi
    exact nomatch hphi
  knows := hknows _ _

variable {v w : Operand} {slot : SlotId}

theorem load (hslot : slot < s.builder.func.slots.size) : s.Accepts A (.load slot) :=
  .of_usable rfl (fun _ h => Option.some.inj h ▸ hslot) nofun nofun

theorem store (hslot : slot < s.builder.func.slots.size) (hv : s.Usable A v .double) :
    s.Accepts A (.store slot v) :=
  .of_usable rfl (fun _ h => Option.some.inj h ▸ hslot)
    (by simpa [Operation.typedOperands, Operation.operands] using hv) nofun

theorem binary (op : IR.BinaryOp) (hv : s.Usable A v .double) (hw : s.Usable A w .double) :
    s.Accepts A (.binary op v w) :=
  .of_usable rfl nofun (by simp [Operation.typedOperands, Operation.operands, hv, hw]) nofun

theorem compare (test : IR.Comparison) (hv : s.Usable A v .double) (hw : s.Usable A w .double) :
    s.Accepts A (.compare test v w) :=
  .of_usable rfl nofun (by simp [Operation.typedOperands, Operation.operands, hv, hw]) nofun

theorem toDouble (hv : s.Usable A v .bit) : s.Accepts A (.toDouble v) :=
  .of_usable rfl nofun (by simpa [Operation.typedOperands] using hv) nofun

theorem call {callee : String} {args : List Operand} (hk : s.Knows callee args.length)
    (hargs : ∀ v ∈ args, s.Usable A v .double) : s.Accepts A (.call callee args) := by
  refine .of_usable rfl nofun ?_ fun _ _ h => ?_
  · simpa [Operation.typedOperands, Operation.operands] using hargs
  · cases h
    exact hk

end State.Accepts

namespace State.Sound

theorem emit (h : s.Sound A) {op : Operation} (hop : s.Accepts A op) (name : String) :
    s.Continues A [] (s.emit op name) A := by
  have hgrows := Builder.grows_addInst h.ready op name
  exact {
    sound := {
      certified := h.certified.addInst h.ready h.current_mem hop.toAccepts name
      ready := Builder.ready_addInst h.ready op name
      current_mem := h.current_mem
      ended := fun hc hne => by
        rw [State.emit, State.update, Builder.terminator_addInst]
        exact h.ended hc hne
      scope_lt := h.scope_lt
      knows := fun {i} _ _ hi ho => by
        rw [State.emit, State.update, Builder.op_addInst] at ho
        rw [State.emit, State.update, Builder.insts_addInst] at hi
        split at ho
        · exact hop.knows ho
        · next hne => exact h.knows (Nat.lt_of_le_of_ne (Nat.le_of_lt_succ hi) hne) ho }
    grows := hgrows
    agree := fun _ => rfl
    atEnd := hgrows.atEnd
    usable := fun hv => absurd hv List.not_mem_nil
    laid_out := fun hc hc' => ⟨by rwa [State.emit, State.update, Builder.size_addInst] at hc, hc'⟩
    knows := id }

/-- The result of an instruction can be used right after it. -/
theorem usable_next (h : s.Sound A) {op : Operation} {type : Ty} (htype : op.type? = some type)
    (name : String) : (s.emit op name).Usable A s.nextValue type := by
  have hplaced : s.builder.func.insts.size ∈
      ((s.emit op name).builder.func.block s.builder.current).insts :=
    (Builder.mem_block_addInst h.ready).2 (.inr ⟨rfl, rfl⟩)
  refine ⟨⟨IR.Func.mem_live.2 ⟨_, h.current_mem, hplaced⟩, ?_, ?_⟩, ?_⟩
  · exact Nat.lt_of_lt_of_le (Nat.lt_succ_self _) (Builder.insts_addInst ..).ge
  · rw [State.emit, State.update, Builder.op_addInst_self, htype]
  · rintro i hi
    cases hi
    exact .inr hplaced

/-- An instruction with a result that is a number. -/
theorem emit_value (h : s.Sound A) {op : Operation} (hop : s.Accepts A op)
    (htype : op.type? = some .double) (name : String) :
    s.Continues A [s.nextValue] (s.emit op name) A :=
  { h.emit hop name with usable := fun hv => List.mem_singleton.1 hv ▸ h.usable_next htype name }

theorem addSlot (h : s.Sound A) (name : String) :
    s.Continues A [] (s.update fun b => (b.addSlot name).2) A := by
  have hsize : s.builder.func.slots.size ≤
      (s.update fun b => (b.addSlot name).2).builder.func.slots.size := by
    simp [State.update, Builder.addSlot]
  have hc := h.certified
  exact {
    sound := {
      certified := { hc with
        slot_lt := fun hi hs => Nat.lt_of_lt_of_le (hc.slot_lt hi hs) hsize
        fits_inst := hc.fits_inst
        fits_terminator := hc.fits_terminator }
      ready := ⟨h.ready.current_lt, h.ready.not_ended, h.ready.placed_lt⟩
      current_mem := h.current_mem
      ended := h.ended
      scope_lt := fun hs => Nat.lt_of_lt_of_le (h.scope_lt hs) hsize
      knows := h.knows }
    grows := ((Builder.Growth.refl h.ready).addSlot name).grows
    agree := fun _ => rfl
    atEnd := id
    usable := fun hv => absurd hv List.not_mem_nil
    laid_out := fun hc hc' => ⟨hc, hc'⟩
    knows := id }

end State.Sound

/-! ### Names -/

theorem State.Sound.bind (h : s.Sound A) (name : String) {slot : SlotId}
    (hslot : slot < s.builder.func.slots.size) : s.Continues A [] (s.bind name slot) A :=
  { State.Continues.refl h with
    sound := { h with
      scope_lt := fun {x _} hs => by
        rw [State.bind, Table.find?_insert] at hs
        split at hs
        · exact Option.some.inj hs ▸ hslot
        · exact h.scope_lt hs
      knows := h.knows }
    usable := fun hv => absurd hv List.not_mem_nil
    knows := id }

/-- A binding is closed after what it was made for. -/
theorem State.Continues.unbind (h : s.Sound A) {name : String} {slot : SlotId}
    (hb : (s.bind name slot).Continues A vs s' A') :
    s.Continues A vs (s'.unbind s name) A' where
  sound := { hb.sound with
    scope_lt := fun {x _} hs => by
      rw [State.unbind, Table.find?_restore] at hs
      split at hs
      · exact Nat.lt_of_lt_of_le (h.scope_lt hs) hb.grows.slots_le
      · exact hb.sound.scope_lt hs
    knows := hb.sound.knows }
  grows := hb.grows
  agree := hb.agree
  atEnd := hb.atEnd
  usable hv := ⟨(hb.usable hv).fits, (hb.usable hv).atEnd⟩
  laid_out := hb.laid_out
  knows := hb.knows

theorem State.Sound.known (h : s.Sound A) {registry : Registry} (hreg : registry.Keyed)
    {callee : String} {n : Nat} (hk : Known registry callee n s s') :
    s.Continues A [] s' A ∧ s'.Knows callee n := by
  cases hk with
  | unit hf hn => exact ⟨.refl h, _, hf, hn⟩
  | @registry proto hf hp hn =>
    obtain rfl := hreg hp
    have hfind := IR.Module.find?_redeclare hf proto.params
    have hknows {x : String} {m : Nat} (hx : s.Knows x m) :
        State.Knows { s with unit := s.unit.redeclare proto.name proto.params } x m := by
      obtain ⟨f, hx, hm⟩ := hx
      have hne : x ≠ proto.name := by
        rintro rfl
        exact nomatch hx.symm.trans hf
      exact ⟨f, (hfind x).trans ((if_neg hne).trans hx), hm⟩
    refine ⟨{ State.Continues.refl h with
      sound := { h with knows := fun hi ho => hknows (h.knows hi ho) }
      usable := fun hv => absurd hv List.not_mem_nil
      knows := hknows }, _, (hfind _).trans (if_pos rfl), hn⟩

/-! ### Branches -/

/-- The certificate after the current block is ended. All that is available at its end is so in new
blocks. -/
def State.after (s : State) (A : Certificate) : Certificate :=
  fun c => if c < s.builder.func.blocks.size then A c
    else s.builder.func.AtEnd A s.builder.current

theorem State.after_of_lt {c : BlockId} (hc : c < s.builder.func.blocks.size) :
    s.after A c = A c := if_pos hc

theorem State.after_of_le {c : BlockId} (hc : s.builder.func.blocks.size ≤ c) :
    s.after A c = s.builder.func.AtEnd A s.builder.current := if_neg (Nat.not_lt.2 hc)

/-- The current block may lead to this one. -/
structure State.Enterable (s : State) (A : Certificate) (c : BlockId) : Prop where
  pos : 0 < c
  atEnd {i : InstId} : A c i → s.builder.func.AtEnd A s.builder.current i
  not_phi {i : InstId} : i ∈ (s.builder.func.block c).insts → ¬(s.builder.func.op i).isPhi

namespace State.Sound

variable {step : Builder → Builder} {t : Terminator} {next : BlockId}

/-- What is needed so that the current block can be ended. -/
theorem acceptsEnd (h : s.Sound A) {g : Func}
    (htarget : ∀ c ∈ t.successors, c < g.blocks.size ∧
      (c < s.builder.func.blocks.size → s.Enterable A c))
    (huse : ∀ p ∈ t.typedOperands, s.Usable A p.1 p.2) :
    s.builder.func.AcceptsEnd g A (s.after A) s.builder.current t where
  target_pos {c} hc := by
    by_cases hlt : c < s.builder.func.blocks.size
    · exact ((htarget c hc).2 hlt).pos
    · exact Nat.lt_of_lt_of_le (Nat.zero_lt_of_lt h.ready.current_lt) (Nat.not_lt.1 hlt)
  target_lt hc := (htarget _ hc).1
  atEnd {c i} hc hi := by
    by_cases hlt : c < s.builder.func.blocks.size
    · rw [after_of_lt hlt] at hi
      exact ((htarget c hc).2 hlt).atEnd hi
    · rwa [after_of_le (Nat.not_lt.1 hlt)] at hi
  not_phi {c i} hc hi := by
    by_cases hlt : c < s.builder.func.blocks.size
    · exact ((htarget c hc).2 hlt).not_phi hi
    · rw [(Func.blank_of_size_le (Nat.not_lt.1 hlt)).insts] at hi
      exact nomatch hi
  fits hv := (huse _ hv).fits
  dominated hj := by
    obtain ⟨type, hv⟩ := Terminator.exists_typed_of_mem hj
    exact (huse _ hv).atEnd rfl

theorem branch (h : s.Sound A) (hb : s.builder.Branches (step s.builder) t next)
    (hnext : next ∉ s.builder.func.layout)
    (htarget : ∀ c ∈ t.successors, c < (step s.builder).func.blocks.size ∧
      (c < s.builder.func.blocks.size → s.Enterable A c))
    (huse : ∀ p ∈ t.typedOperands, s.Usable A p.1 p.2) :
    (s.update step).Sound (s.after A) where
  certified := by
    refine h.certified.ends hb.ends h.ready.not_ended h.current_mem (List.nodup_singleton _) ?_ ?_
      (fun _ => after_of_lt) (h.acceptsEnd htarget huse)
    · simpa using hnext
    · exact fun c hc => List.mem_singleton.1 hc ▸ hb.next_lt
  ready := hb.ready h.ready (fun he => hnext (he ▸ h.current_mem)) (h.certified.blank hnext)
  current_mem := by
    rw [State.update, hb.layout, hb.current]
    exact List.mem_append_right _ (List.mem_singleton_self _)
  ended {c} hc hne := by
    rw [State.update, hb.layout, List.mem_append, List.mem_singleton] at hc
    rw [State.update, hb.current] at hne
    rw [State.update, hb.terminator]
    split
    · rfl
    · next hold => exact h.ended (hc.resolve_right hne) hold
  scope_lt hs := by
    rw [State.update, hb.slots]
    exact h.scope_lt hs
  knows hi ho := h.knows (hb.insts ▸ hi) (hb.op _ ▸ ho)

theorem size_not_mem_layout (h : s.Sound A) :
    s.builder.func.blocks.size ∉ s.builder.func.layout :=
  fun hm => Nat.lt_irrefl _ (h.certified.layout_lt hm)

/-- A branch to the only new block. -/
theorem branch_new (h : s.Sound A)
    (hb : s.builder.Branches (step s.builder) t s.builder.func.blocks.size)
    (hsize : (step s.builder).func.blocks.size = s.builder.func.blocks.size + 1)
    (htarget : ∀ c ∈ t.successors, c = s.builder.func.blocks.size ∨
      c < s.builder.func.blocks.size ∧ s.Enterable A c)
    (huse : ∀ p ∈ t.typedOperands, s.Usable A p.1 p.2) :
    s.Continues A [] (s.update step) (s.after A) where
  sound := by
    refine h.branch hb h.size_not_mem_layout (fun c hc => ?_) huse
    rcases htarget c hc with rfl | ⟨hlt, he⟩
    · exact ⟨hb.next_lt, fun hlt => absurd hlt (Nat.lt_irrefl _)⟩
    · exact ⟨Nat.lt_of_lt_of_le hlt hb.blocks_le, fun _ => he⟩
  grows := hb.grows h.ready.not_ended
  agree := after_of_lt
  atEnd hi := by
    rw [Func.AtEnd, State.update, hb.current, after_of_le (Nat.le_refl _)]
    exact .inl hi
  usable := fun hv => absurd hv List.not_mem_nil
  laid_out {c} hc hc' := by
    rw [State.update, hsize] at hc
    rw [State.update, hb.layout, List.mem_append, List.mem_singleton, not_or] at hc'
    exact ⟨Nat.lt_of_le_of_ne (Nat.le_of_lt_succ hc) hc'.2, hc'.1⟩
  knows := id

theorem enterLoop (h : s.Sound A) : s.Continues A [] (s.update (·.enterLoop)) (s.after A) :=
  h.branch_new (Builder.branches_enterLoop h.ready) s.builder.size_enterLoop
    (by simp [Terminator.successors]) (by simp [Terminator.typedOperands])

theorem leaveLoop (h : s.Sound A) {cond : Operand} (hcond : s.Usable A cond .bit) {loop : BlockId}
    (hlt : loop < s.builder.func.blocks.size) (hloop : s.Enterable A loop) :
    s.Continues A [] (s.update (·.leaveLoop cond loop)) (s.after A) :=
  h.branch_new (Builder.branches_leaveLoop h.ready cond loop) (s.builder.size_leaveLoop cond loop)
    (by simp [Terminator.successors, hlt, hloop]) (by simpa [Terminator.typedOperands] using hcond)

theorem fork (h : s.Sound A) {cond : Operand} (hcond : s.Usable A cond .bit) :
    (s.update (·.fork cond)).Sound (s.after A) := by
  refine h.branch (Builder.branches_fork h.ready cond) h.size_not_mem_layout (fun c hc => ?_)
    (by simpa [Terminator.typedOperands] using hcond)
  have hle : s.builder.func.blocks.size ≤ c ∧ c < s.builder.func.blocks.size + 3 := by
    have : c = s.builder.func.blocks.size ∨ c = s.builder.func.blocks.size + 1 := by
      simpa [Terminator.successors] using hc
    rcases this with rfl | rfl <;> simp
  rw [Builder.size_fork]
  exact ⟨hle.2, fun hlt => absurd hlt (Nat.not_lt.2 hle.1)⟩

theorem switch (h : s.Sound A) {join : BlockId} (hjoin : join ∉ s.builder.func.layout)
    (hat : ∀ {i}, A join i → s.builder.func.AtEnd A s.builder.current i)
    (hj : join < s.builder.func.blocks.size)
    (hlt : next < s.builder.func.blocks.size) (hnext : next ∉ s.builder.func.layout) :
    (s.update (·.switch join next)).Sound (s.after A) := by
  have hb := Builder.branches_switch h.ready join hlt
  refine h.branch hb hnext (fun c hc => ?_) (by simp [Terminator.typedOperands])
  obtain rfl := List.mem_singleton.1 hc
  refine ⟨Nat.lt_of_lt_of_le hj hb.blocks_le, fun _ => ⟨Nat.pos_of_ne_zero ?_, hat, ?_⟩⟩
  · rintro rfl
    exact hjoin (Func.entry_mem_layout h.certified.entry)
  · intro i hi
    rw [(h.certified.blank hjoin).insts] at hi
    cases hi

end State.Sound

end Codegen

end ScalarLang
