import ScalarLang.Proofs.Codegen.Soundness
import ScalarLang.Proofs.IR.Optimisation

/-! Generated functions are well formed, and stay so when they are optimised. Well-formed means that
the check accepts them, blocks and instructions are placed once, the entry has no predecessors, and
every use is dominated by its definition. -/

namespace ScalarLang.Codegen

open IR (Builder BlockId Certificate Func InstId Operand Operation SlotId Terminator)

variable {s s' : State} {A A' B C : Certificate} {vs : List Operand} {registry : Registry}

/-! ### Expressions -/

/-- Whatever the generator yields, a certified state goes on to a certified one. -/
def Gen.Certifies {α : Type} (g : Gen α) (values : α → List Operand) : Prop :=
  ∀ {s a s' A}, g.Yields s a s' → s.Sound A → ∃ A', s.Continues A (values a) s' A'

theorem certifies_number (v : Float) : (genExpr registry (.number v)).Certifies ([·]) := by
  intro s a s' A h hs
  rw [genExpr, yields_pure] at h
  obtain ⟨rfl, rfl⟩ := h
  exact ⟨A, (State.Continues.refl hs).const v⟩

theorem certifies_var (name : String) : (genExpr registry (.var name)).Certifies ([·]) := by
  intro s v s' A h hs
  obtain ⟨slot, hslot, rfl, rfl⟩ := yields_var h
  exact ⟨A, hs.emit_value (.load (hs.scope_lt hslot)) rfl name⟩

theorem certifies_operatorCall (hreg : registry.Keyed) {callee : String} {args : List Operand}
    {name : String} {v : Operand} (h : (operatorCall registry callee args name).Yields s v s')
    (hs : s.Sound A) (hargs : ∀ v ∈ args, s.Usable A v .double) :
    ∃ A', s.Continues A [v] s' A' := by
  obtain ⟨s₁, hk, rfl, rfl⟩ := yields_operatorCall h
  obtain ⟨h₁, hk⟩ := hs.known hreg hk
  exact ⟨A, h₁.next (h₁.sound.emit_value (.call hk fun v hv => h₁.still_usable (hargs v hv)) rfl _)⟩

theorem certifies_unary (hreg : registry.Keyed) {op : Char} {e : Expr}
    (he : (genExpr registry e).Certifies ([·])) :
    (genExpr registry (.unary op e)).Certifies ([·]) := by
  intro s v s' A h hs
  simp only [genExpr, yields_bind] at h
  obtain ⟨ve, s₁, he', h⟩ := h
  obtain ⟨A₁, h₁⟩ := he he' hs
  obtain ⟨A₂, h₂⟩ := certifies_operatorCall hreg h h₁.sound fun _ hv => h₁.usable hv
  exact ⟨A₂, h₁.next h₂⟩

theorem certifies_assign {name : String} {e : Expr} (he : (genExpr registry e).Certifies ([·])) :
    (genExpr registry (.binary '=' (.var name) e)).Certifies ([·]) := by
  intro s v s' A h hs
  obtain ⟨s₁, slot, he', hslot, rfl⟩ := yields_assign h
  obtain ⟨A₁, h₁⟩ := he he' hs
  have hstore := h₁.sound.emit
    (.store (h₁.sound.scope_lt hslot) (h₁.usable (List.mem_singleton_self v))) ""
  exact ⟨A₁, (h₁.trans hstore).of_subset (by simp)⟩

theorem certifies_applyBinary (hreg : registry.Keyed) {op : Char} {left right v : Operand}
    (h : (applyBinary registry op left right).Yields s v s') (hs : s.Sound A)
    (hl : s.Usable A left .double) (hr : s.Usable A right .double) :
    ∃ A', s.Continues A [v] s' A' := by
  unfold applyBinary at h
  split at h
  · obtain ⟨rfl, rfl⟩ := yields_emit.1 h
    exact ⟨A, hs.emit_value (.binary _ hl hr) rfl _⟩
  · split at h
    · simp only [yields_bind, yields_emit] at h
      obtain ⟨_, _, ⟨rfl, rfl⟩, rfl, rfl⟩ := h
      have h₁ := hs.emit (.compare .ult hl hr) "cmptmp"
      exact ⟨A, h₁.next (h₁.sound.emit_value (.toDouble (hs.usable_next rfl _)) rfl _)⟩
    · exact certifies_operatorCall hreg h hs (by simp [hl, hr])

theorem certifies_binary (hreg : registry.Keyed) {op : Char} (hop : op ≠ '=') {left right : Expr}
    (hl : (genExpr registry left).Certifies ([·]))
    (hr : (genExpr registry right).Certifies ([·])) :
    (genExpr registry (.binary op left right)).Certifies ([·]) := by
  intro s v s' A h hs
  obtain ⟨vl, s₁, vr, s₂, hl', hr', h⟩ := yields_binary hop h
  obtain ⟨A₁, h₁⟩ := hl hl' hs
  obtain ⟨A₂, h₂⟩ := hr hr' h₁.sound
  obtain ⟨A₃, h₃⟩ := certifies_applyBinary hreg h h₂.sound
    (h₂.still_usable (h₁.usable (List.mem_singleton_self vl)))
    (h₂.usable (List.mem_singleton_self vr))
  exact ⟨A₃, (h₁.next h₂).next h₃⟩

theorem certifies_args_nil : (genArgs registry []).Certifies id := by
  intro s vs s' A h hs
  rw [genArgs, yields_pure] at h
  obtain ⟨rfl, rfl⟩ := h
  exact ⟨A, .refl hs⟩

theorem certifies_args_cons {e : Expr} {rest : List Expr}
    (he : (genExpr registry e).Certifies ([·])) (hrest : (genArgs registry rest).Certifies id) :
    (genArgs registry (e :: rest)).Certifies id := by
  intro s vs s' A h hs
  obtain ⟨v, s₁, vs', he', hr', rfl⟩ := yields_args_cons h
  obtain ⟨A₁, h₁⟩ := he he' hs
  obtain ⟨A₂, h₂⟩ := hrest hr' h₁.sound
  exact ⟨A₂, h₁.trans h₂⟩

theorem length_args {es : List Expr} (h : (genArgs registry es).Yields s vs s') :
    vs.length = es.length := by
  induction es generalizing s vs with
  | nil =>
    rw [genArgs, yields_pure] at h
    rw [h.1]
    rfl
  | cons e rest ih =>
    obtain ⟨v, s₁, vs', -, hr, rfl⟩ := yields_args_cons h
    rw [List.length_cons, List.length_cons, ih hr]

theorem certifies_call (hreg : registry.Keyed) {callee : String} {args : List Expr}
    (ha : (genArgs registry args).Certifies id) :
    (genExpr registry (.call callee args)).Certifies ([·]) := by
  intro s v s' A h hs
  obtain ⟨s₁, vs, s₂, hk, ha', rfl, rfl⟩ := yields_call h
  obtain ⟨h₁, hk⟩ := hs.known hreg hk
  obtain ⟨A₂, h₂⟩ := ha ha' h₁.sound
  rw [← length_args ha'] at hk
  exact ⟨A₂, (h₁.next h₂).next
    (h₂.sound.emit_value (.call (h₂.knows hk) fun v hv => h₂.usable hv) rfl _)⟩

theorem certifies_init_none : (genInit registry none).Certifies ([·]) := by
  intro s v s' A h hs
  rw [genInit, yields_pure] at h
  obtain ⟨rfl, rfl⟩ := h
  exact ⟨A, (State.Continues.refl hs).const 0.0⟩

theorem certifies_else_none : (genElse registry none).Certifies ([·]) := by
  intro s v s' A h
  rw [genElse] at h
  exact absurd h yields_throw

theorem State.Continues.slot_lt {name : String}
    (h : (s.update fun b => (b.addSlot name).2).Continues A vs s' A') :
    s.builder.func.slots.size < s'.builder.func.slots.size :=
  Nat.lt_of_lt_of_le (by simp [State.update, Builder.addSlot]) h.grows.slots_le

theorem certifies_vars_cons {name : String} {init : Option Expr}
    {rest : List (String × Option Expr)} {body : Gen Operand}
    (hi : (genInit registry init).Certifies ([·]))
    (hrest : (genVars registry rest body).Certifies ([·])) :
    (genVars registry ((name, init) :: rest) body).Certifies ([·]) := by
  intro s v s' A h hs
  obtain ⟨vi, s₁, s₂, hi', hr', rfl⟩ := yields_vars_cons h
  have h₀ := hs.addSlot name
  obtain ⟨A₁, h₁⟩ := hi hi' h₀.sound
  have hstore := h₁.sound.emit (.store h₁.slot_lt (h₁.usable (List.mem_singleton_self vi))) ""
  obtain ⟨A₂, h₂⟩ := hrest hr' (hstore.sound.bind name h₁.slot_lt).sound
  exact ⟨A₂, ((h₀.next h₁).next hstore).next (.unbind hstore.sound h₂)⟩

/-! ### Conditionals -/

/-- The states of a conditional that is certified. Its test is in `s`, its first branch ends in `y`
and its second in `n`. -/
structure State.Diamond (cond : Operand) (s : State) (A : Certificate) (vy : Operand) (y : State)
    (B : Certificate) (vn : Operand) (n : State) (C : Certificate) : Prop where
  sound : s.Sound A
  builder : Builder.Diamond cond s.builder y.builder n.builder
  yes : (s.update (·.fork cond)).Continues (s.after A) [vy] y B
  no : (y.update (·.switch (s.builder.func.blocks.size + 2)
    (s.builder.func.blocks.size + 1))).Continues (y.after B) [vn] n C

namespace State.Diamond

variable {cond vy vn : Operand} {y n : State}

/-- The certificate of the blocks that are entered later is not touched by the first branch. -/
theorem certificate_yes (hy : (s.update (·.fork cond)).Continues (s.after A) [vy] y B) {c : BlockId}
    (hc : s.builder.func.blocks.size ≤ c) (hc' : c < s.builder.func.blocks.size + 3) :
    B c = s.builder.func.AtEnd A s.builder.current := by
  rw [hy.agree (by rwa [State.update, Builder.size_fork]), after_of_le hc]

theorem atEnd_yes (hy : (s.update (·.fork cond)).Continues (s.after A) [vy] y B) {i : InstId}
    (hi : s.builder.func.AtEnd A s.builder.current i) :
    y.builder.func.AtEnd B y.builder.current i := by
  refine hy.atEnd (.inl ?_)
  change s.after A s.builder.func.blocks.size i
  rwa [after_of_le (Nat.le_refl _)]

theorem sound_switch_no (hs : s.Sound A) (gy : (s.builder.fork cond).Growth y.builder)
    (hy : (s.update (·.fork cond)).Continues (s.after A) [vy] y B) :
    (y.update (·.switch (s.builder.func.blocks.size + 2)
      (s.builder.func.blocks.size + 1))).Sound (y.after B) := by
  have hsize : s.builder.func.blocks.size + 3 ≤ y.builder.func.blocks.size :=
    s.builder.size_fork cond ▸ gy.grows.blocks_le
  have hnew {c : BlockId} (hc : s.builder.func.blocks.size < c)
      (hc' : c < s.builder.func.blocks.size + 3) : c ∉ y.builder.func.layout :=
    Builder.Diamond.not_mem_layout_yes hs.ready gy hs.certified.layout_lt hc hc'
  refine hy.sound.switch (hnew (by simp) (by simp)) (fun hi => ?_)
    (Nat.lt_of_succ_le hsize) (Nat.lt_of_succ_lt (Nat.lt_of_succ_le hsize))
    (hnew (by simp) (by simp))
  rw [certificate_yes hy (c := s.builder.func.blocks.size + 2) (by simp) (by simp)] at hi
  exact atEnd_yes hy hi

variable (d : Diamond cond s A vy y B vn n C)
include d

theorem size_le : s.builder.func.blocks.size + 3 ≤ y.builder.func.blocks.size :=
  s.builder.size_fork cond ▸ d.builder.yes.grows.blocks_le

/-- The second branch does not touch the certificates of the first. -/
theorem agree_no {c : BlockId} (hc : c < y.builder.func.blocks.size) : n.after C c = B c := by
  have hlt := Nat.lt_of_lt_of_le hc
    (Builder.Diamond.branches_switch_no d.builder.ready d.builder.yes).blocks_le
  rw [after_of_lt (Nat.lt_of_lt_of_le hlt d.no.grows.blocks_le), d.no.agree hlt, after_of_lt hc]

theorem certificate_join : C (s.builder.func.blocks.size + 2) =
    s.builder.func.AtEnd A s.builder.current := by
  have hjoin := d.agree_no (Nat.lt_of_succ_le d.size_le)
  rwa [after_of_lt d.builder.join_blank.1, certificate_yes d.yes (by simp) (by simp)] at hjoin

theorem atEnd_no {i : InstId} (hi : s.builder.func.AtEnd A s.builder.current i) :
    n.builder.func.AtEnd C n.builder.current i := by
  refine d.no.atEnd (.inl ?_)
  change y.after B (s.builder.func.blocks.size + 1) i
  rwa [after_of_lt (Nat.lt_of_succ_lt (Nat.lt_of_succ_le d.size_le)),
    certificate_yes d.yes (by simp) (by simp)]

theorem sound_switch_join : (n.update (·.switch (s.builder.func.blocks.size + 2)
    (s.builder.func.blocks.size + 2))).Sound (n.after C) := by
  have hnew := d.builder.not_mem_layout_no d.sound.certified.layout_lt
  refine d.no.sound.switch hnew (fun hi => ?_) d.builder.join_blank.1 d.builder.join_blank.1 hnew
  exact d.atEnd_no (d.certificate_join ▸ hi)

theorem grows_no : n.builder.func.Grows (n.builder.switch (s.builder.func.blocks.size + 2)
    (s.builder.func.blocks.size + 2)).func :=
  d.builder.branches_switch_join.grows d.no.sound.ready.not_ended

theorem grows_yes : y.builder.func.Grows (n.builder.switch (s.builder.func.blocks.size + 2)
    (s.builder.func.blocks.size + 2)).func :=
  (((Builder.Diamond.branches_switch_no d.builder.ready d.builder.yes).grows
    d.yes.sound.ready.not_ended).trans d.no.grows).trans d.grows_no

theorem perm_preds : [y.builder.current, n.builder.current].Perm
    ((n.builder.switch (s.builder.func.blocks.size + 2)
      (s.builder.func.blocks.size + 2)).func.preds (s.builder.func.blocks.size + 2)) := by
  refine (List.perm_ext_iff_of_nodup ?_ (Func.preds_nodup _ _)).2 fun p => ?_
  · simpa using d.builder.ends_ne
  · rw [Func.mem_preds, d.builder.successors_join fun he => (d.sound.certified.target he).2]
    have hy := d.grows_yes.layout.subset d.yes.sound.current_mem
    have hn := d.grows_no.layout.subset d.no.sound.current_mem
    grind

/-- The values of both branches are available where their branches end. -/
theorem usable_yes {i : InstId} (hi : vy = .inst i) :
    (n.builder.switch (s.builder.func.blocks.size + 2) (s.builder.func.blocks.size + 2)).func.AtEnd
      (n.after C) y.builder.current i := by
  have hi := (d.yes.usable (List.mem_singleton_self vy)).atEnd hi
  rw [Func.AtEnd, d.agree_no d.yes.sound.ready.current_lt]
  exact d.grows_yes.atEnd hi

theorem usable_no {i : InstId} (hi : vn = .inst i) :
    (n.builder.switch (s.builder.func.blocks.size + 2) (s.builder.func.blocks.size + 2)).func.AtEnd
      (n.after C) n.builder.current i := by
  have hi := (d.no.usable (List.mem_singleton_self vn)).atEnd hi
  rw [Func.AtEnd, after_of_lt d.no.sound.ready.current_lt]
  exact d.grows_no.atEnd hi

theorem accepts_phi : (n.update (·.switch (s.builder.func.blocks.size + 2)
    (s.builder.func.blocks.size + 2))).Accepts (n.after C)
      (.phi [(vy, y.builder.current), (vn, n.builder.current)]) where
  slot_lt := nofun
  fits {v type} hv := by
    have hv : v = vy ∧ type = .double ∨ v = vn ∧ type = .double := by
      simpa [Operation.typedOperands, Operation.operands] using hv
    rcases hv with ⟨rfl, rfl⟩ | ⟨rfl, rfl⟩
    · exact d.grows_yes.fits (d.yes.usable (List.mem_singleton_self _)).fits
    · exact d.grows_no.fits (d.no.usable (List.mem_singleton_self _)).fits
  dominated h := absurd rfl h
  phi {incoming} h := by
    cases h
    refine ⟨?_, d.perm_preds, fun {j source} hj => ?_⟩
    · exact (d.builder.branches_switch_join.blank d.builder.join_blank.2.1
        d.builder.join_blank.2.2).insts
    · rcases List.mem_pair.1 hj with hj | hj <;> cases hj
      · exact d.usable_yes rfl
      · exact d.usable_no rfl
  knows := nofun

theorem laid_out {c : BlockId} (hc : c < n.builder.func.blocks.size)
    (hjoin : c ≠ s.builder.func.blocks.size + 2) (hm : c ∉ n.builder.func.layout) :
    c < s.builder.func.blocks.size ∧ c ∉ s.builder.func.layout := by
  obtain ⟨hc, hm⟩ := d.no.laid_out hc hm
  rw [State.update, Builder.size_switch] at hc
  rw [State.update, (Builder.Diamond.branches_switch_no d.builder.ready d.builder.yes).layout,
    List.mem_append, List.mem_singleton, not_or] at hm
  obtain ⟨hc, hm'⟩ := d.yes.laid_out hc hm.1
  rw [State.update, Builder.size_fork] at hc
  rw [State.update, (Builder.branches_fork d.sound.ready cond).layout, List.mem_append,
    List.mem_singleton, not_or] at hm'
  have hlt {m k : Nat} (hk : k < m + 3) (h₀ : k ≠ m) (h₁ : k ≠ m + 1) (h₂ : k ≠ m + 2) :
      k < m := by omega
  exact ⟨hlt hc hm'.2 hm.2 hjoin, hm'.1⟩

/-- The conditional as a whole. -/
theorem continues (name : String) :
    s.Continues A [n.nextValue] ((n.update (·.switch (s.builder.func.blocks.size + 2)
      (s.builder.func.blocks.size + 2))).emit
        (.phi [(vy, y.builder.current), (vn, n.builder.current)]) name) (n.after C) := by
  have hphi := d.sound_switch_join.emit_value d.accepts_phi rfl name
  have hgrows := ((Builder.branches_fork d.sound.ready cond).grows
    d.sound.ready.not_ended).trans (d.yes.grows.trans d.grows_yes)
  exact {
    sound := hphi.sound
    grows := hgrows.trans hphi.grows
    agree := fun {c} hc => by
      have hle : s.builder.func.blocks.size ≤ y.builder.func.blocks.size :=
        (Nat.le_add_right _ 3).trans d.size_le
      rw [d.agree_no (Nat.lt_of_lt_of_le hc hle), d.yes.agree, after_of_lt hc]
      exact Nat.lt_of_lt_of_le hc (s.builder.size_fork cond ▸ Nat.le_add_right _ 3)
    atEnd := fun hi => hphi.atEnd (.inl (by
      change n.after C (s.builder.func.blocks.size + 2) _
      rwa [after_of_lt d.builder.join_blank.1, d.certificate_join]))
    usable := hphi.usable
    laid_out := fun {c} hc hm => by
      obtain ⟨hc, hm⟩ := hphi.laid_out hc hm
      rw [State.update, Builder.size_switch] at hc
      rw [State.update, d.builder.branches_switch_join.layout, List.mem_append,
        List.mem_singleton, not_or] at hm
      exact d.laid_out hc hm.2 hm.1
    knows := fun hk => hphi.knows (d.no.knows (d.yes.knows hk)) }

end State.Diamond

theorem certifies_cond {test yes : Expr} {no : Option Expr}
    (ht : (genExpr registry test).Certifies ([·])) (hy : (genExpr registry yes).Certifies ([·]))
    (hn : (genElse registry no).Certifies ([·])) :
    (genExpr registry (.cond test yes no)).Certifies ([·]) := by
  intro s v s' A h hs
  obtain ⟨vt, s₁, vy, s₂, vn, s₃, ht', hy', hn', rfl, rfl⟩ := yields_cond h
  obtain ⟨A₁, h₁⟩ := ht ht' hs
  have htest := h₁.sound.emit (.compare .one (h₁.usable (List.mem_singleton_self vt))
    (s₁.usable_const A₁ 0.0)) "ifcond"
  rw [← s₁.builder.size_addInst (.compare .one vt (.const 0.0)) "ifcond"] at hn' ⊢
  have hfork := htest.sound.fork (h₁.sound.usable_next rfl _)
  have gy := genExpr_grows registry yes hy' hfork.ready
  obtain ⟨A₂, h₂⟩ := hy hy' hfork
  have hswitch := State.Diamond.sound_switch_no htest.sound gy.builder h₂
  have gn := genElse_grows registry no hn' hswitch.ready
  obtain ⟨A₃, h₃⟩ := hn hn' hswitch
  have d : State.Diamond s₁.nextValue _ _ vy s₂ A₂ vn s₃ A₃ :=
    ⟨htest.sound, ⟨htest.sound.ready, gy.builder, gn.builder⟩, h₂, h₃⟩
  exact ⟨_, (h₁.next htest).next (d.continues "iftmp")⟩

/-! ### Loops -/

theorem State.Sound.advance (h : s.Sound A) (index : String) {slot : SlotId}
    (hslot : slot < s.builder.func.slots.size) {increment : Operand}
    (hv : s.Usable A increment .double) :
    s.Continues A [] (s.advance index slot increment) A := by
  have hload := h.emit_value (.load hslot) rfl index
  have hadd := hload.sound.emit_value (.binary .add (hload.usable (List.mem_singleton_self _))
    (hload.still_usable hv)) rfl "nextvar"
  exact (hload.next hadd).next (hadd.sound.emit
    (.store hslot (hadd.usable (List.mem_singleton_self _))) "")

/-- The end of a loop may lead to its head. -/
theorem State.Continues.enterable (h : s.Continues A vs s' A') (hpos : 0 < s.builder.current)
    (hlt : s.builder.current < s.builder.func.blocks.size)
    (hblank : s.builder.func.Blank s.builder.current) (hgrowth : s.builder.Growth s'.builder) :
    s'.Enterable A' s.builder.current where
  pos := hpos
  atEnd hi := h.atEnd (.inl (h.agree hlt ▸ hi))
  not_phi hi := by
    refine (hgrowth.not_phi hi).resolve_left fun hi => ?_
    rw [hblank.insts] at hi
    exact nomatch hi

theorem certifies_loop {index : String} {start stop step body : Expr}
    (hstart : (genExpr registry start).Certifies ([·]))
    (hbody : (genExpr registry body).Certifies ([·]))
    (hstep : (genExpr registry step).Certifies ([·]))
    (hstop : (genExpr registry stop).Certifies ([·])) :
    (genExpr registry (.loop index start stop step body)).Certifies ([·]) := by
  intro s v s' A h hs
  obtain ⟨first, s₁, vb, s₂, vs, s₃, vt, s₄, hstart', hbody', hstep', hstop', rfl, rfl⟩ :=
    yields_loop h
  rw [← s₁.builder.size_addInst (.store s.builder.func.slots.size first) ""]
  have h₀ := hs.addSlot index
  obtain ⟨A₁, h₁⟩ := hstart hstart' h₀.sound
  have hstore := h₁.sound.emit (.store h₁.slot_lt (h₁.usable (List.mem_singleton_self first))) ""
  have hbind := (hstore.sound.bind index h₁.slot_lt).sound
  have henter := hbind.enterLoop
  have hround := State.Grown.round (genExpr_grows registry body) (genExpr_grows registry step)
    (genExpr_grows registry stop) henter.sound.ready hbody' hstep' hstop'
  obtain ⟨A₂, h₂⟩ := hbody hbody' henter.sound
  obtain ⟨A₃, h₃⟩ := hstep hstep' h₂.sound
  have hslot := Nat.lt_of_lt_of_le h₁.slot_lt (h₂.grows.trans h₃.grows).slots_le
  have hadvance := h₃.sound.advance index hslot (h₃.usable (List.mem_singleton_self vs))
  obtain ⟨A₄, h₄⟩ := hstop hstop' hadvance.sound
  have htest := h₄.sound.emit (.compare .one (h₄.usable (List.mem_singleton_self vt))
    (s₄.usable_const A₄ 0.0)) "loopcond"
  have hall := (((h₂.next h₃).next hadvance).next h₄).next htest
  have hhead := hall.enterable (Nat.zero_lt_of_lt hbind.ready.current_lt)
    henter.sound.ready.current_lt
    ((Builder.branches_enterLoop hbind.ready).blank_new hbind.ready) hround.builder
  have hleave := htest.sound.leaveLoop (h₄.sound.usable_next rfl _)
    (Nat.lt_of_lt_of_le henter.sound.ready.current_lt hall.grows.blocks_le) hhead
  exact ⟨_, (((h₀.next h₁).next hstore).next
    (.unbind hstore.sound ((henter.next hall).next hleave))).const 0.0⟩

/-- Generating an expression keeps a function certified. -/
theorem genExpr_certifies (hreg : registry.Keyed) (e : Expr) :
    (genExpr registry e).Certifies ([·]) :=
  genExpr.induct registry (fun e => (genExpr registry e).Certifies ([·]))
    (fun e => (genElse registry e).Certifies ([·])) (fun es => (genArgs registry es).Certifies id)
    (fun vars => ∀ body, body.Certifies ([·]) → (genVars registry vars body).Certifies ([·]))
    (fun e => (genInit registry e).Certifies ([·]))
    certifies_number certifies_var (fun _ _ => certifies_unary hreg)
    (fun _ _ => certifies_assign) (fun _ _ hl _ _ _ _ h => absurd h (not_yields_assign hl))
    (fun _ _ _ hop => certifies_binary hreg hop) (fun _ _ hv hb => genExpr_declare .. ▸ hv _ hb)
    (fun _ _ => certifies_call hreg) (fun _ _ _ => certifies_cond)
    (fun _ _ _ _ _ => certifies_loop) (fun _ => id)
    (fun _ _ _ hi hrest _ hb => certifies_vars_cons hi (hrest _ hb)) certifies_args_nil
    (fun _ _ => certifies_args_cons) (fun _ => id) certifies_else_none (fun _ => id)
    certifies_init_none e

/-! ### Functions -/

theorem sound_startState (unit : IR.Module) (proto : Prototype) :
    (startState unit proto).Sound fun _ _ => False := by
  have hblank := Builder.blank_start proto.name proto.params
  have hinsts {c : BlockId} {i : InstId}
      (hi : i ∈ ((startState unit proto).builder.func.block c).insts) : False := by
    rw [startState, (hblank c).insts] at hi
    cases hi
  have hterminator (c : BlockId) :
      ((startState unit proto).builder.func.block c).terminator = none := (hblank c).terminator
  have hsucc {c d : BlockId} (hd : d ∈ (startState unit proto).builder.func.successors c) :
      False := by
    simp [Func.successors, hterminator] at hd
  exact {
    certified := {
      layout_nodup := List.nodup_singleton 0
      layout_lt := fun hc => List.mem_singleton.1 hc ▸ Nat.one_pos
      entry := rfl
      not_entry := id
      blank := fun _ => hblank _
      target := fun hd => (hsucc hd).elim
      inst_lt := fun hi => (hinsts hi).elim
      insts_nodup := fun c => (hblank c).insts ▸ List.nodup_nil
      unique := fun hi => (hinsts hi).elim
      phis_first := fun c => (hblank c).insts ▸ List.Pairwise.nil
      sources := fun hi => (hinsts hi).elim
      slot_lt := fun hi => (hinsts hi).elim
      fits_inst := fun hi => (hinsts hi).elim
      fits_terminator := fun ht => by simp [hterminator] at ht
      edge := fun hd => (hsucc hd).elim
      dominated_inst := fun hsplit =>
        (hinsts (hsplit ▸ List.mem_append_right _ (List.mem_cons_self ..))).elim
      dominated_phi := fun hi => (hinsts hi).elim
      dominated_terminator := fun ht => by simp [hterminator] at ht }
    ready := Builder.ready_start proto.name proto.params
    current_mem := List.mem_singleton_self 0
    ended := fun hc hne => absurd (List.mem_singleton.1 hc) hne
    scope_lt := fun hs => by cases hs
    knows := fun hi => absurd hi (Nat.not_lt_zero _) }

theorem continues_params {params : List String} {index : Nat} {u : Unit}
    (h : (genParams params index).Yields s u s') (hs : s.Sound A)
    (hle : index + params.length ≤ s.builder.func.arity) : s.Continues A [] s' A := by
  induction params generalizing s index with
  | nil =>
    rw [genParams, yields_pure] at h
    obtain ⟨-, rfl⟩ := h
    exact .refl hs
  | cons param rest ih =>
    rw [List.length_cons] at hle
    have hslot := hs.addSlot param
    have hlt := (State.Continues.refl hslot.sound).slot_lt
    have harg : (s.update fun b => (b.addSlot param).2).Usable A (.arg index) .double :=
      ⟨⟨Nat.lt_of_lt_of_le (by omega) hle, rfl⟩, by simp⟩
    have hstore := hslot.sound.emit (.store hlt harg) ""
    have hbind := hstore.sound.bind param hlt
    have hrest := ih (yields_params_cons h) hbind.sound (by
      change index + 1 + rest.length ≤ s.builder.func.arity
      omega)
    exact ((hslot.next hstore).next hbind).next hrest

theorem State.Sound.wellFormed_ret (hs : s.Sound A) {v : Operand} (hv : s.Usable A v .double)
    (hall : ∀ c < s.builder.func.blocks.size, c ∈ s.builder.func.layout) :
    (s.builder.terminate (.ret v)).func.WellFormed := by
  have hends := Builder.ends_terminate hs.ready.current_lt (.ret v)
  have hret : s.builder.func.AcceptsEnd (s.builder.terminate (.ret v)).func A (s.after A)
      s.builder.current (.ret v) :=
    hs.acceptsEnd (by simp [Terminator.successors]) (by simpa [Terminator.typedOperands] using hv)
  have hcertified := hs.certified.ends hends hs.ready.not_ended hs.current_mem List.nodup_nil
    (by simp) (by simp) (fun _ => State.after_of_lt) hret
  refine hcertified.wellFormed (fun c hc => ?_) fun c hc => ?_
  · rw [hends.layout, List.append_nil] at hc
    rw [hends.terminator]
    split
    · rfl
    · next hne => exact hs.ended hc hne
  · rw [hends.layout, List.append_nil]
    rw [Builder.size_terminate] at hc
    exact hall c hc

theorem State.Sound.uniformCalls_ret (hs : s.Sound A) (v : Operand) :
    (s.builder.terminate (.ret v)).func.UniformCalls := by
  intro callee n m hn hm
  have hends := Builder.ends_terminate hs.ready.current_lt (.ret v)
  have known {k : Nat} (hk : (s.builder.terminate (.ret v)).func.CallsWith callee k) :
      s.Knows callee k := by
    obtain ⟨i, hi, args, ho, rfl⟩ := hk
    obtain ⟨b, -, hi⟩ := Func.mem_live.1 hi
    rw [hends.insts_block] at hi
    exact hs.knows (hs.ready.placed_lt hi) (hends.op i ▸ ho)
  obtain ⟨f, hf, rfl⟩ := known hn
  obtain ⟨g, hg, rfl⟩ := known hm
  rw [Option.some.inj (hf.symm.trans hg)]

theorem wellFormed_genBody (hreg : registry.Keyed) {unit : IR.Module} {proto : Prototype}
    {body : Expr} (h : (genBody registry proto body).Yields (startState unit proto) () s) :
    s.builder.func.WellFormed ∧ s.builder.func.UniformCalls := by
  obtain ⟨s₁, v, s₂, hp, hb, rfl⟩ := yields_body h
  have hparams := continues_params hp (sound_startState unit proto)
    (by rw [Nat.zero_add]; exact Nat.le_refl _)
  obtain ⟨A, hbody⟩ := genExpr_certifies hreg body hb hparams.sound
  refine ⟨hbody.sound.wellFormed_ret (hbody.usable (List.mem_singleton_self v)) fun c hc => ?_,
    hbody.sound.uniformCalls_ret v⟩
  by_contra hm
  obtain ⟨hlt, hm⟩ := (hparams.next hbody).laid_out hc hm
  exact hm (List.mem_singleton.2 (Nat.lt_one_iff.1 hlt))

/-- All functions that are generated are well formed, with as many arguments in all calls of one
function, and each pass keeps well-formed functions so. The check accepts whatever is optimised. -/
theorem wellFormed_generated_and_optimised :
    (∀ (registry : Registry) (unit : IR.Module) (proto : Prototype) (body : Expr) (s : State),
      registry.Keyed → (genBody registry proto body).Yields (startState unit proto) () s →
        s.builder.func.WellFormed ∧ s.builder.func.UniformCalls) ∧
    (∀ (pass : IR.Pass) (f : Func), f.WellFormed → (pass.run f).1.WellFormed) ∧
    ∀ (passes : IR.Pipeline) (f : Func), f.WellFormed →
      (passes.run f).1.WellFormed ∧ (passes.run f).1.verify = .ok () := by
  refine ⟨fun _ _ _ _ _ hreg h => wellFormed_genBody hreg h,
    fun pass _ hf => (pass.run_refines hf).wellFormed, fun passes f hf => ?_⟩
  have h := (passes.run_refines hf).wellFormed
  exact ⟨h, h.verified⟩

/-- The body of a function that calls itself for every other number below its argument. -/
def alternating : Expr :=
  .declare [("odd", some (.number 1.0))]
    (.loop "i" (.number 1.0) (.binary '<' (.var "i") (.var "n")) (.number 1.0)
      (.cond (.binary '=' (.var "odd") (.binary '-' (.number 1.0) (.var "odd")))
        (.call "visit" [.var "i"]) (some (.number 0.0))))

theorem wellFormed_alternating :
    ∃ s, (genBody {} ⟨"visit", ["n"], .plain⟩ alternating).Yields
        (startState ⟨"unit", []⟩ ⟨"visit", ["n"], .plain⟩) () s ∧
      s.builder.func.WellFormed ∧ s.builder.func.UniformCalls ∧
      (IR.Pass.simplify.run s.builder.func).1.WellFormed ∧
      (IR.Pipeline.standard.run s.builder.func).1.verify = .ok () := by
  have hok : (exec (genBody {} ⟨"visit", ["n"], .plain⟩ alternating)
      (startState ⟨"unit", []⟩ ⟨"visit", ["n"], .plain⟩)).1.isOk = true := by
    decide +kernel
  match h : exec (genBody {} ⟨"visit", ["n"], .plain⟩ alternating)
      (startState ⟨"unit", []⟩ ⟨"visit", ["n"], .plain⟩) with
  | (.ok (), s) =>
    obtain ⟨generated, pass, optimised⟩ := wellFormed_generated_and_optimised
    have hs := generated _ _ _ _ s Registry.keyed_empty h
    exact ⟨s, h, hs.1, hs.2, pass .simplify _ hs.1, (optimised .standard _ hs.1).2⟩
  | (.error e, s) => simp [h, Except.isOk, Except.toBool] at hok

end ScalarLang.Codegen
