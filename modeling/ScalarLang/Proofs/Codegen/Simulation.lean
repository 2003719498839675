import ScalarLang.Proofs.Codegen.Execution

/-! Generated code does what the expression means: it makes the same calls and comes to the same
value, and runs on for as long as the evaluation does. While it runs, each cell that is visible has
its value in the slot that the generator gave to its name. -/

namespace ScalarLang.Codegen

open ScalarLang.Expr (Bindings Eval Halt World)
open IR (Builder BlockId Env Func InstId Operand Operation SlotId Terminator)

variable {Λ : List (Nat × SlotId)} {σ σ' σ₁ σ₂ : State} {env : Bindings} {cells : Array Float}
  {slots : SlotId → Float}

/-! ### Cells and slots -/

/-- What a name stands for: nothing on both sides, or a cell and its slot. -/
inductive Paired (Λ : List (Nat × SlotId)) : Option SlotId → Option Nat → Prop where
  | none : Paired Λ none none
  | some {c : Nat} {s : SlotId} (h : (c, s) ∈ Λ) : Paired Λ (some s) (some c)

theorem Paired.mono {Λ' : List (Nat × SlotId)} {s : Option SlotId} {c : Option Nat}
    (h : Paired Λ s c) (hΛ : Λ ⊆ Λ') : Paired Λ' s c := by
  cases h with
  | none => exact .none
  | some h => exact .some (hΛ h)

/-- The cells and slots in `Λ` belong together one to one, and have the same values. -/
structure Linked (Λ : List (Nat × SlotId)) (σ : State) (env : Bindings) (cells : Array Float)
    (slots : SlotId → Float) : Prop where
  cell_lt {c : Nat} {s : SlotId} : (c, s) ∈ Λ → c < cells.size
  slot_lt {c : Nat} {s : SlotId} : (c, s) ∈ Λ → s < σ.builder.func.slots.size
  value {c : Nat} {s : SlotId} : (c, s) ∈ Λ → cells.getD c 0.0 = slots s
  cell_iff_slot {c c' : Nat} {s s' : SlotId} : (c, s) ∈ Λ → (c', s') ∈ Λ → (c' = c ↔ s' = s)
  names (name : String) : Paired Λ (σ.scope.find? name) (env.lookup name)

namespace Linked

variable (h : Linked Λ σ env cells slots)
include h

theorem mono (hslots : σ.builder.func.slots.size ≤ σ'.builder.func.slots.size)
    (hscope : ∀ name, σ'.scope.find? name = σ.scope.find? name) : Linked Λ σ' env cells slots :=
  { h with
    slot_lt := fun hm => Nat.lt_of_lt_of_le (h.slot_lt hm) hslots
    names := fun name => hscope name ▸ h.names name }

theorem grown {vs : List Operand} (hg : σ.Grown vs σ') : Linked Λ σ' env cells slots :=
  h.mono hg.builder.grows.slots_le hg.scope

theorem exists_cell {name : String} {s : SlotId} (hs : σ.scope.find? name = some s) :
    ∃ c, env.lookup name = some c ∧ (c, s) ∈ Λ := by
  have hn := h.names name
  rw [hs] at hn
  generalize env.lookup name = c at hn
  cases hn with | some hm => exact ⟨_, rfl, hm⟩

/-- An assignment changes a cell and its slot. -/
theorem write {c : Nat} {s : SlotId} (hm : (c, s) ∈ Λ) (x : Float) :
    Linked Λ σ env (cells.setIfInBounds c x) fun s' => if s' = s then x else slots s' :=
  { h with
    cell_lt := fun hm => by simpa using h.cell_lt hm
    value := fun {c' s'} hm' => by
      have hv := h.value hm'
      rw [Array.getD_eq_getD_getElem?] at hv ⊢
      by_cases hc : c' = c
      · simp [hc, (h.cell_iff_slot hm hm').1 hc, h.cell_lt hm]
      · have hs : s' ≠ s := fun hs => hc ((h.cell_iff_slot hm hm').2 hs)
        simpa [hs, Array.getElem?_setIfInBounds, Ne.symm hc] using hv }

/-- A new variable gets a new cell and a slot that no other has. -/
theorem push {s : SlotId} (hs : s < σ.builder.func.slots.size) (hnew : ∀ c, (c, s) ∉ Λ)
    (name : String) (x : Float) :
    Linked ((cells.size, s) :: Λ) (σ.bind name s) ((name, cells.size) :: env) (cells.push x)
      fun s' => if s' = s then x else slots s' where
  cell_lt hm := by
    rcases List.mem_cons.1 hm with he | hm
    · cases he
      simp
    · simpa using Nat.lt_succ_of_lt (h.cell_lt hm)
  slot_lt hm := by
    rcases List.mem_cons.1 hm with he | hm
    · cases he
      exact hs
    · exact h.slot_lt hm
  value {c' s'} hm := by
    rcases List.mem_cons.1 hm with he | hm
    · cases he
      simp
    · have hne : s' ≠ s := fun he => hnew c' (he ▸ hm)
      have hv := h.value hm
      rw [Array.getD_eq_getD_getElem?] at hv ⊢
      simpa [hne, Array.getElem?_push, Nat.ne_of_lt (h.cell_lt hm)] using hv
  cell_iff_slot {c c' s₁ s₂} hm hm' := by
    rcases List.mem_cons.1 hm with he | hm <;> rcases List.mem_cons.1 hm' with he' | hm'
    · cases he
      cases he'
      simp
    · cases he
      have := h.cell_lt hm'
      exact ⟨fun hc => absurd hc (Nat.ne_of_lt this), fun hs => absurd (hs ▸ hm') (hnew c')⟩
    · cases he'
      have := h.cell_lt hm
      exact ⟨fun hc => absurd hc.symm (Nat.ne_of_lt this), fun hs => absurd (hs ▸ hm) (hnew c)⟩
    · exact h.cell_iff_slot hm hm'
  names x := by
    simp only [State.bind, Table.find?_insert, List.lookup_cons]
    by_cases hx : x = name
    · simpa [hx] using .some (List.mem_cons_self ..)
    · have hx' : (x == name) = false := by simpa using hx
      simpa [hx, hx'] using (h.names x).mono (List.subset_cons_self ..)

/-- The values after some steps, seen from where the steps began. -/
theorem back {cells' : Array Float} {slots' : SlotId → Float}
    (h' : Linked Λ σ' env cells' slots') : Linked Λ σ env cells' slots' :=
  { h' with slot_lt := h.slot_lt, names := h.names }

/-- A variable goes, and its name means again what it meant before. -/
theorem pop {pair : Nat × SlotId} {env' : Bindings} {cells' : Array Float}
    {slots' : SlotId → Float} (h' : Linked (pair :: Λ) σ₁ env' cells' slots')
    (hslots : σ₁.builder.func.slots.size ≤ σ'.builder.func.slots.size)
    (hscope : ∀ name, σ'.scope.find? name = σ.scope.find? name) :
    Linked Λ σ' env cells' slots' where
  cell_lt hm := h'.cell_lt (List.mem_cons_of_mem _ hm)
  slot_lt hm := Nat.lt_of_lt_of_le (h'.slot_lt (List.mem_cons_of_mem _ hm)) hslots
  value hm := h'.value (List.mem_cons_of_mem _ hm)
  cell_iff_slot := h.cell_iff_slot
  names name := hscope name ▸ h.names name

end Linked

/-! ### Steps of the run -/

variable {F : Func} {args : List Float} {o : Oracle} {n : Nat} {ρ ρ₁ ρ' : Env} {t : Trace}

theorem run_emit (hs : σ.builder.Ready) {op : Operation} {name : String}
    (hF : (σ.emit op name).builder.func.Grows F) (hop : op.isPhi = false)
    (hcall : ∀ callee vs, op ≠ .call callee vs) :
    (F.process args).run o 1 (σ.builder.at F ρ, t) =
      some ((σ.emit op name).builder.at F (Func.evalOp σ.builder.func.insts.size ρ op), t) := by
  obtain ⟨ho, hstep⟩ := Builder.step_addInst hs hF hop ρ
  refine Func.run_next (hstep.trans ?_)
  rw [Func.stepInst, ho]
  cases op with
  | call callee vs => exact absurd rfl (hcall callee vs)
  | _ => rfl

theorem run_emit_call (hs : σ.builder.Ready) {callee name : String} {vs : List Operand}
    (hF : (σ.emit (.call callee vs) name).builder.func.Grows F) :
    let call : Call := ⟨callee, vs.map ρ.value⟩
    (F.process args).run o 1 (σ.builder.at F ρ, t) =
      some ((σ.emit (.call callee vs) name).builder.at F
        (ρ.setResult σ.builder.func.insts.size (o t call)), t ++ [(call, o t call)]) := by
  intro call
  obtain ⟨ho, hstep⟩ := Builder.step_addInst hs hF rfl ρ
  have hask : F.step (σ.builder.at F ρ) = .ask call fun r =>
      (σ.emit (.call callee vs) name).builder.at F (ρ.setResult σ.builder.func.insts.size r) := by
    rw [hstep, Func.stepInst, ho]
    rfl
  exact Func.run_ask hask

theorem run_branch {b b' : Builder} {cond : Operand} {yes no next : BlockId}
    (h : b.Branches b' (.condBr cond yes no) next) (hF : b'.func.Grows F) {c : Bool}
    (hc : (ρ.value cond == 0.0) = !c) : (F.process args).run o 1 (b.at F ρ, t) =
      some (F.enter b.current (if c then yes else no) ρ, t) := by
  refine Func.run_next ((h.step hF).trans ?_)
  rw [Func.stepTerminator, hc]
  cases c <;> rfl

theorem run_jump {b b' : Builder} {target next : BlockId} (h : b.Branches b' (.br target) next)
    (hF : b'.func.Grows F) : (F.process args).run o 1 (b.at F ρ, t) =
      some (F.enter b.current target ρ, t) :=
  Func.run_next (h.step hF)

theorem run_continue {b b' : Builder} {next : BlockId} (h : b.Branches b' (.br next) next)
    (hF : b'.func.Grows F) (hblank : b'.func.Blank b'.current) :
    (F.process args).run o 1 (b.at F ρ, t) =
      some (b'.at F (F.enterEnv b.current b'.current ρ), t) := by
  obtain rfl := h.current
  exact (run_jump h hF).trans (congrArg (fun s => some (s, t)) (Builder.enter_eq hblank _))

/-- A condition is compared with zero, and the result decides where the run goes on. -/
theorem run_test (hs : σ.builder.Ready) {v : Operand} {name : String} {b : Builder}
    {yes no next : BlockId} (hF : b.func.Grows F)
    (hbr : (σ.emit (.compare .one v (.const 0.0)) name).builder.Branches b
      (.condBr σ.nextValue yes no) next) :
    ∃ ρ', ρ.Frame σ.builder.func.insts.size ρ' ∧ ρ'.slots = ρ.slots ∧
      (F.process args).run o (1 + 1) (σ.builder.at F ρ, t) = some (F.enter σ.builder.current
        (if Expr.isTrue (ρ.value v) then yes else no) ρ', t) := by
  have hready := Builder.ready_addInst hs (.compare .one v (.const 0.0)) name
  refine ⟨ρ.setResult σ.builder.func.insts.size (IR.boolValue (Expr.isTrue (ρ.value v))),
    .setResult ρ _ _, rfl, Process.run_trans
      (run_emit hs ((hbr.grows hready.not_ended).trans hF) rfl (by simp)) (run_branch hbr hF ?_)⟩
  exact (congrArg (· == 0.0) (ρ.results_setResult_self _ _)).trans (IR.boolValue_beq_zero _)

/-! ### Simulation -/

/-- The run has come from `σ` to `σ'`, all that is visible is still linked, and the results from
before `σ` are untouched. -/
def Arrives (F : Func) (Λ : List (Nat × SlotId)) (env : Bindings) (σ σ' : State) (ρ : Env)
    (P : Env → Prop) (w : World) (s : IR.State) : Prop :=
  ∃ ρ', s = σ'.builder.at F ρ' ∧ Linked Λ σ' env w.cells ρ'.slots ∧
    ρ.Frame σ.builder.func.insts.size ρ' ∧ P ρ'

theorem Arrives.precede {P : Env → Prop} {w : World} {s : IR.State} {vs : List Operand}
    (h : Arrives F Λ env σ₁ σ' ρ₁ P w s) (hg : σ.Grown vs σ₁)
    (hf : ρ.Frame σ.builder.func.insts.size ρ₁) : Arrives F Λ env σ σ' ρ P w s := by
  obtain ⟨ρ', hs, hl, hf', hP⟩ := h
  exact ⟨ρ', hs, hl, hf.trans hf' hg.builder.grows.insts_le, hP⟩

/-- The code of a generator follows an evaluation. -/
def Gen.Simulates {α β : Type} (F : Func) (args : List Float) (o : Oracle) (n : Nat) (g : Gen α)
    (e : Bindings → Eval β) (value : Env → α → β) : Prop :=
  ∀ {Λ σ a σ' env w ρ}, g.Yields σ a σ' → σ.builder.Ready → σ'.builder.func.Grows F →
    Linked Λ σ env w.cells ρ.slots → (F.process args).Follows o n (σ.builder.at F ρ, w.trace)
      (fun r => Arrives F Λ env σ σ' ρ fun ρ' => value ρ' a = r) (exec (e env) w)

variable {registry : Registry}

/-- The code of an expression follows its evaluation. -/
abbrev ExprSimulates (registry : Registry) (F : Func) (args : List Float) (o : Oracle) (n : Nat)
    (e : Expr) : Prop := (genExpr registry e).Simulates F args o n (e.eval o n) Env.value

theorem simulates_number (v : Float) : ExprSimulates registry F args o n (.number v) := by
  intro Λ σ a σ' env w ρ h hs hF hl
  rw [genExpr, yields_pure] at h
  obtain ⟨rfl, rfl⟩ := h
  rw [Expr.eval]
  exact .pure ⟨ρ, rfl, hl, .refl _ ρ, rfl⟩

theorem simulates_var (name : String) : ExprSimulates registry F args o n (.var name) := by
  intro Λ σ v σ' env w ρ h hs hF hl
  obtain ⟨slot, hslot, rfl, rfl⟩ := yields_var h
  obtain ⟨c, hc, hm⟩ := hl.exists_cell hslot
  have hexec : exec (Expr.eval o n (.var name) env) w = (.ok (w.cells.getD c 0.0), w) := by
    simp only [Expr.eval, Expr.cell, hc]
    rfl
  rw [hexec]
  refine ⟨1, _, run_emit hs hF rfl (by simp), _, rfl, ?_, .setResult ρ _ _, ?_⟩
  · exact hl.grown ((State.Grown.refl hs).emit hs rfl name)
  · exact (ρ.results_setResult_self _ _).trans (hl.value hm).symm

/-! ### Operators and calls -/

variable {w : World}

theorem follows_ask (hs : σ.builder.Ready) {callee name : String} {vs : List Operand}
    (hF : (σ.emit (.call callee vs) name).builder.func.Grows F)
    (hl : Linked Λ σ env w.cells ρ.slots) :
    (F.process args).Follows o n (σ.builder.at F ρ, w.trace)
      (fun r => Arrives F Λ env σ (σ.emit (.call callee vs) name) ρ fun ρ' =>
        ρ'.value σ.nextValue = r) (exec (Expr.ask o callee (vs.map ρ.value)) w) :=
  ⟨1, _, run_emit_call hs hF, _, rfl, hl.grown ((State.Grown.refl hs).emit hs rfl name),
    .setResult ρ _ _, ρ.results_setResult_self _ _⟩

theorem follows_operatorCall (hs : σ.builder.Ready) {callee name : String} {vs : List Operand}
    {v : Operand} (h : (operatorCall registry callee vs name).Yields σ v σ')
    (hF : σ'.builder.func.Grows F) (hl : Linked Λ σ env w.cells ρ.slots) :
    (F.process args).Follows o n (σ.builder.at F ρ, w.trace)
      (fun r => Arrives F Λ env σ σ' ρ fun ρ' => ρ'.value v = r)
      (exec (Expr.ask o callee (vs.map ρ.value)) w) := by
  obtain ⟨σ₁, hk, rfl, rfl⟩ := yields_operatorCall h
  have hg := (State.Grown.refl hs).known hk
  rw [← hk.builder]
  exact (follows_ask hg.builder.ready hF (hl.grown hg)).imp fun _ _ _ ha =>
    ha.precede hg (.refl _ ρ)

theorem follows_arithmetic (hs : σ.builder.Ready) {instr : IR.BinaryOp} {name : String}
    {vl vr v : Operand} (h : (emit (.binary instr vl vr) name).Yields σ v σ')
    (hF : σ'.builder.func.Grows F) (hl : Linked Λ σ env w.cells ρ.slots) :
    (F.process args).Follows o n (σ.builder.at F ρ, w.trace)
      (fun r => Arrives F Λ env σ σ' ρ fun ρ' => ρ'.value v = r)
      (exec (pure (instr.apply (ρ.value vl) (ρ.value vr)) : Eval Float) w) := by
  obtain ⟨rfl, rfl⟩ := yields_emit.1 h
  exact ⟨1, _, run_emit hs hF rfl (by simp), _, rfl,
    hl.grown ((State.Grown.refl hs).emit hs rfl name), .setResult ρ _ _,
    ρ.results_setResult_self _ _⟩

/-- A comparison is an instruction that yields a truth value, and one that makes it a number. -/
theorem follows_compare (hs : σ.builder.Ready) {vl vr v : Operand}
    (h : (do let test ← emit (.compare .ult vl vr) "cmptmp"
             emit (.toDouble test) "booltmp" : Gen Operand).Yields σ v σ')
    (hF : σ'.builder.func.Grows F) (hl : Linked Λ σ env w.cells ρ.slots) :
    (F.process args).Follows o n (σ.builder.at F ρ, w.trace)
      (fun r => Arrives F Λ env σ σ' ρ fun ρ' => ρ'.value v = r)
      (exec (pure (IR.boolValue (IR.Comparison.ult.apply (ρ.value vl) (ρ.value vr))) :
        Eval Float) w) := by
  simp only [yields_bind, yields_emit] at h
  obtain ⟨_, _, ⟨rfl, rfl⟩, rfl, rfl⟩ := h
  have h₁ := (State.Grown.refl hs).emit hs (rfl : (Operation.compare .ult vl vr).isPhi = false)
    "cmptmp"
  have h₂ := h₁.emit hs (rfl : (Operation.toDouble σ.nextValue).isPhi = false) "booltmp"
  have hF₁ := (Builder.grows_addInst h₁.builder.ready _ _).trans hF
  refine ⟨1 + 1, _, Process.run_trans (run_emit hs hF₁ rfl (by simp))
    (run_emit h₁.builder.ready hF rfl (by simp)), _, rfl, hl.grown h₂, ?_, ?_⟩
  · exact (IR.Env.Frame.setResult ρ _ _).trans (.setResult _ _ _) h₁.builder.grows.insts_le
  · exact (IR.Env.results_setResult_self ..).trans (ρ.results_setResult_self _ _)

theorem follows_applyBinary (hs : σ.builder.Ready) {op : Char} {vl vr v : Operand}
    (h : (applyBinary registry op vl vr).Yields σ v σ') (hF : σ'.builder.func.Grows F)
    (hl : Linked Λ σ env w.cells ρ.slots) :
    (F.process args).Follows o n (σ.builder.at F ρ, w.trace)
      (fun r => Arrives F Λ env σ σ' ρ fun ρ' => ρ'.value v = r)
      (exec (Expr.applyBinary o op (ρ.value vl) (ρ.value vr)) w) := by
  unfold Expr.applyBinary
  split
  · exact follows_arithmetic hs h hF hl
  · exact follows_arithmetic hs h hF hl
  · exact follows_arithmetic hs h hF hl
  · exact follows_arithmetic hs h hF hl
  · exact follows_compare hs h hF hl
  · next hadd hsub hmul hdiv hlt =>
    have ha : arithmetic? op = none := by
      unfold arithmetic?
      split <;> simp_all
    have hne : op ≠ '<' := hlt
    simp only [applyBinary, ha, if_neg hne] at h
    exact follows_operatorCall hs h hF hl

/-! ### Expressions -/

theorem simulates_unary {op : Char} {e : Expr} (he : ExprSimulates registry F args o n e) :
    ExprSimulates registry F args o n (.unary op e) := by
  intro Λ σ v σ' env w ρ h hs hF hl
  obtain ⟨ve, σ₁, σ₂, he', hk, rfl, rfl⟩ := yields_unary h
  have h₁ := genExpr_grows registry e he' hs
  have h₂ := (State.Grown.refl h₁.builder.ready).known hk
  have hF₁ := hk.builder ▸ (Builder.grows_addInst h₂.builder.ready _ _).trans hF
  rw [Expr.eval]
  refine (he he' hs hF₁ hl).bind ?_
  rintro r w₁ _ ⟨ρ₁, rfl, hl₁, hf₁, rfl⟩
  rw [← hk.builder]
  exact (follows_ask h₂.builder.ready hF (hl₁.grown h₂)).imp fun _ _ _ ha =>
    (ha.precede h₂ (.refl _ ρ₁)).precede h₁ hf₁

theorem simulates_assign {name : String} {e : Expr} (he : ExprSimulates registry F args o n e) :
    ExprSimulates registry F args o n (.binary '=' (.var name) e) := by
  intro Λ σ v σ' env w ρ h hs hF hl
  obtain ⟨σ₁, slot, he', hslot, rfl⟩ := yields_assign h
  have h₁ := genExpr_grows registry e he' hs
  have hF₁ := (Builder.grows_addInst h₁.builder.ready _ _).trans hF
  rw [Expr.eval, if_pos rfl]
  refine (he he' hs hF₁ hl).bind ?_
  rintro r w₁ _ ⟨ρ₁, rfl, hl₁, hf₁, rfl⟩
  obtain ⟨c, hc, hm⟩ := hl₁.exists_cell hslot
  have hexec : exec (do Expr.write (← Expr.cell env name) (ρ₁.value v); pure (ρ₁.value v)) w₁ =
      (.ok (ρ₁.value v), { w₁ with cells := w₁.cells.setIfInBounds c (ρ₁.value v) }) := by
    simp only [Expr.cell, hc]
    rfl
  rw [hexec]
  refine ⟨1, _, run_emit h₁.builder.ready hF rfl (by simp), _, rfl, ?_, ?_, ρ₁.value_setSlot ..⟩
  · exact (hl₁.grown ((State.Grown.refl h₁.builder.ready).emit h₁.builder.ready rfl "")).write hm _
  · exact hf₁.trans (.setSlot ρ₁ _ _ _) (Nat.le_refl _)

theorem simulates_binary {op : Char} (hop : op ≠ '=') {left right : Expr}
    (hleft : ExprSimulates registry F args o n left)
    (hright : ExprSimulates registry F args o n right) :
    ExprSimulates registry F args o n (.binary op left right) := by
  intro Λ σ v σ' env w ρ h hs hF hl
  obtain ⟨vl, σ₁, vr, σ₂, hleft', hright', h⟩ := yields_binary hop h
  have h₁ := genExpr_grows registry left hleft' hs
  have h₂ := genExpr_grows registry right hright' h₁.builder.ready
  have hF₂ := (grows_applyBinary op vl vr h h₂.builder.ready).builder.grows.trans hF
  have hF₁ := h₂.builder.grows.trans hF₂
  rw [Expr.eval_binary hop]
  refine (hleft hleft' hs hF₁ hl).bind ?_
  rintro rl w₁ _ ⟨ρ₁, rfl, hl₁, hf₁, rfl⟩
  refine (hright hright' h₁.builder.ready hF₂ hl₁).bind ?_
  rintro rr w₂ _ ⟨ρ₂, rfl, hl₂, hf₂, rfl⟩
  rw [← hf₂.value fun i hi => h₁.result (by simp [hi])]
  exact (follows_applyBinary h₂.builder.ready h hF hl₂).imp fun _ _ _ ha =>
    (ha.precede h₂ hf₂).precede h₁ hf₁

theorem simulates_args_nil : (genArgs registry []).Simulates F args o n
    (Expr.evalArgs o n []) fun ρ vs => vs.map ρ.value := by
  intro Λ σ vs σ' env w ρ h hs hF hl
  rw [genArgs, yields_pure] at h
  obtain ⟨rfl, rfl⟩ := h
  rw [Expr.evalArgs]
  exact .pure ⟨ρ, rfl, hl, .refl _ ρ, rfl⟩

theorem simulates_args_cons {e : Expr} {rest : List Expr}
    (he : ExprSimulates registry F args o n e)
    (hrest : (genArgs registry rest).Simulates F args o n (Expr.evalArgs o n rest)
      fun ρ vs => vs.map ρ.value) :
    (genArgs registry (e :: rest)).Simulates F args o n (Expr.evalArgs o n (e :: rest))
      fun ρ vs => vs.map ρ.value := by
  intro Λ σ vs σ' env w ρ h hs hF hl
  obtain ⟨v, σ₁, vs', he', hrest', rfl⟩ := yields_args_cons h
  have h₁ := genExpr_grows registry e he' hs
  have h₂ := genArgs_grows registry rest hrest' h₁.builder.ready
  rw [Expr.evalArgs]
  refine (he he' hs (h₂.builder.grows.trans hF) hl).bind ?_
  rintro r w₁ _ ⟨ρ₁, rfl, hl₁, hf₁, rfl⟩
  refine (hrest hrest' h₁.builder.ready hF hl₁).bind ?_
  rintro rs w₂ _ ⟨ρ₂, rfl, hl₂, hf₂, rfl⟩
  have hv : ρ₂.value v = ρ₁.value v := hf₂.value fun i hi => h₁.result (by simp [hi])
  exact .pure ⟨ρ₂, rfl, hl₂, hf₁.trans hf₂ h₁.builder.grows.insts_le, by simp [hv]⟩

theorem simulates_call {callee : String} {es : List Expr}
    (hargs : (genArgs registry es).Simulates F args o n (Expr.evalArgs o n es)
      fun ρ vs => vs.map ρ.value) : ExprSimulates registry F args o n (.call callee es) := by
  intro Λ σ v σ' env w ρ h hs hF hl
  obtain ⟨σ₁, vs, σ₂, hk, hargs', rfl, rfl⟩ := yields_call h
  have h₁ := (State.Grown.refl hs).known hk
  have h₂ := genArgs_grows registry es hargs' h₁.builder.ready
  rw [Expr.eval, ← hk.builder]
  refine (hargs hargs' h₁.builder.ready ((Builder.grows_addInst h₂.builder.ready _ _).trans hF)
    (hl.grown h₁)).bind ?_
  rintro rs w₂ _ ⟨ρ₂, rfl, hl₂, hf₂, rfl⟩
  exact (follows_ask h₂.builder.ready hF hl₂).imp fun _ _ _ ha =>
    (ha.precede h₂ hf₂).precede h₁ (.refl _ ρ)

theorem simulates_init_none : (genInit registry none).Simulates F args o n
    (Expr.evalInit o n none) Env.value := by
  intro Λ σ v σ' env w ρ h hs hF hl
  rw [genInit, yields_pure] at h
  obtain ⟨rfl, rfl⟩ := h
  rw [Expr.evalInit]
  exact .pure ⟨ρ, rfl, hl, .refl _ ρ, rfl⟩

theorem simulates_else_none : (genElse registry none).Simulates F args o n
    (Expr.evalElse o n none) Env.value := by
  intro Λ σ v σ' env w ρ h
  rw [genElse] at h
  exact absurd h yields_throw

theorem exec_create_bind {α : Type} (x : Float) (k : Nat → Eval α) (w : World) :
    exec (Expr.create x >>= k) w =
      exec (k w.cells.size) { w with cells := w.cells.push x } := rfl

theorem simulates_vars_cons {name : String} {init : Option Expr}
    {rest : List (String × Option Expr)} {body : Gen Operand} {e : Bindings → Eval Float}
    (hbody : body.Grows ([·]))
    (hinit : (genInit registry init).Simulates F args o n (Expr.evalInit o n init) Env.value)
    (hrest : (genVars registry rest body).Simulates F args o n
      (fun env => Expr.evalVars o n rest env e) Env.value) :
    (genVars registry ((name, init) :: rest) body).Simulates F args o n
      (fun env => Expr.evalVars o n ((name, init) :: rest) env e) Env.value := by
  intro Λ σ v σ' env w ρ h hs hF hl
  obtain ⟨vi, σ₁, σ₂, hinit', hrest', rfl⟩ := yields_vars_cons h
  have h₀ := State.Grown.addSlot hs name
  have h₁ := genInit_grows registry init hinit' h₀.builder.ready
  have hstore := (State.Grown.refl h₁.builder.ready).emit h₁.builder.ready
    (rfl : (Operation.store σ.builder.func.slots.size vi).isPhi = false) ""
  have hready := hstore.builder.ready
  have h₂ := genVars_grows registry hbody rest hrest' hready
  have hF₁ := hstore.builder.grows.trans (h₂.builder.grows.trans hF)
  simp only [Expr.evalVars]
  refine (hinit hinit' h₀.builder.ready hF₁ (hl.grown h₀)).bind ?_
  rintro r w₁ _ ⟨ρ₁, rfl, hl₁, hf₁, rfl⟩
  rw [exec_create_bind]
  have hslot : σ.builder.func.slots.size < σ₁.builder.func.slots.size :=
    Nat.lt_of_lt_of_le (by simp [State.update, Builder.addSlot]) h₁.builder.grows.slots_le
  have hl₂ := (hl₁.grown hstore).push hslot (fun c hm => Nat.lt_irrefl _ (hl.slot_lt hm)) name
    (ρ₁.value vi)
  refine .after (run_emit h₁.builder.ready (h₂.builder.grows.trans hF) rfl (by simp)) ?_
  refine (hrest hrest' hready hF hl₂).imp ?_
  rintro r w₂ _ ⟨ρ₂, rfl, hl₂, hf₂, rfl⟩
  refine ⟨ρ₂, rfl, hl₁.pop hl₂ (Nat.le_refl _) (hstore.unbind h₁.builder.ready h₂).scope, ?_, rfl⟩
  exact hf₁.trans ((Env.Frame.setSlot ρ₁ _ _ _).trans hf₂ hstore.builder.grows.insts_le)
    h₁.builder.grows.insts_le

/-! ### Conditionals -/

/-- A branch of a conditional is entered, follows its evaluation, and jumps to block `j` where a phi
takes its value. The results in `f` are untouched. -/
theorem follows_branch {g : Gen Operand} {e : Bindings → Eval Float}
    (hg : g.Simulates F args o n e Env.value) (hgrows : g.Grows ([·])) {v : Operand}
    (h : g.Yields σ v σ') (hs : σ.builder.Ready) (hblank : σ.builder.func.Blank σ.builder.current)
    {b j : Builder} {next : BlockId} (hbr : σ'.builder.Branches b (.br j.current) next)
    (hFb : b.func.Grows F) (hj : j.Ready) (hjblank : j.func.Blank j.current)
    {incoming : List (Operand × BlockId)} {name : String}
    (hF : (j.addInst (.phi incoming) name).2.func.Grows F)
    (hinc : IR.incoming? incoming σ'.builder.current = some v) {f : Func} (hf : f.Grows F)
    (hfblank : f.Blank j.current) (hle : f.insts.size ≤ σ.builder.func.insts.size)
    (hl : Linked Λ σ env w.cells ρ.slots) (c : BlockId) :
    (F.process args).Follows o n (F.enter c σ.builder.current ρ, w.trace)
      (fun r w' s => ∃ ρ', s = (j.addInst (.phi incoming) name).2.at F ρ' ∧
        Linked Λ σ' env w'.cells ρ'.slots ∧ ρ.Frame f.insts.size ρ' ∧
        ρ'.results j.func.insts.size = r) (exec (e env) w) := by
  have hg' := hgrows h hs
  have hF' := (hbr.grows hg'.builder.ready.not_ended).trans hFb
  have hfin := Env.Frame.enter (hg'.builder.grows.trans hF') hblank c ρ
  have hl₁ : Linked Λ σ env w.cells (F.enterEnv c σ.builder.current ρ).slots := hl
  rw [Builder.enter_eq hblank]
  refine (hg h hs hF' hl₁).then_run ?_
  rintro r w' _ ⟨ρ', rfl, hl', hf', rfl⟩
  obtain ⟨hstate, hvalue⟩ := Builder.enter_phi hj hjblank hF σ'.builder.current ρ'
  refine ⟨1, _, (run_jump hbr hFb).trans (congrArg (fun s => some (s, w'.trace)) hstate), _, rfl,
    hl', ?_, hvalue v hinc⟩
  exact ((hfin.of_le hle).trans hf' hle).trans (.enter hf hfblank _ ρ') (Nat.le_refl _)

theorem simulates_cond {test yes : Expr} {no : Option Expr}
    (htest : ExprSimulates registry F args o n test) (hyes : ExprSimulates registry F args o n yes)
    (hno : (genElse registry no).Simulates F args o n (Expr.evalElse o n no) Env.value) :
    ExprSimulates registry F args o n (.cond test yes no) := by
  intro Λ σ v σ' env w ρ h hs hF hl
  have hcond := genExpr_grows registry (.cond test yes no) h hs
  obtain ⟨vt, σ₁, vy, σ₂, vn, σ₃, ht', hy', hn', rfl, rfl⟩ := yields_cond h
  have h₁ := genExpr_grows registry test ht' hs
  have hcompare := (State.Grown.refl h₁.builder.ready).emit h₁.builder.ready
    (rfl : (Operation.compare .one vt (.const 0.0)).isPhi = false) "ifcond"
  have hready := hcompare.builder.ready
  rw [← σ₁.builder.size_addInst (.compare .one vt (.const 0.0)) "ifcond"] at hn' hF hcond ⊢
  have hfork := Builder.Diamond.growth_fork hready σ₁.nextValue
  have h₂ := genExpr_grows registry yes hy' hfork.ready
  have hswitch := Builder.Diamond.growth_switch_no hready h₂.builder
  have h₃ := genElse_grows registry no hn' hswitch.ready
  have d : Builder.Diamond _ _ _ _ := ⟨hready, h₂.builder, h₃.builder⟩
  have hjready := d.growth_join.ready
  have hjblank := d.branches_switch_join.blank d.join_blank.2.1 d.join_blank.2.2
  have hFj := (Builder.grows_addInst hjready _ _).trans hF
  have hF₃ := (d.branches_switch_join.grows d.no.ready.not_ended).trans hFj
  have hno' := Builder.Diamond.branches_switch_no hready d.yes
  have hFno := d.no.grows.trans hF₃
  have hFfork := d.yes.grows.trans ((hno'.grows d.yes.ready.not_ended).trans hFno)
  have hFb := hfork.grows.trans hFfork
  rw [Expr.eval]
  refine (htest ht' hs (hcompare.builder.grows.trans hFb) hl).bind ?_
  rintro r w₁ _ ⟨ρ₁, rfl, hl₁, hf₁, rfl⟩
  obtain ⟨ρ₂, hf₂, hslots, hrun⟩ :=
    run_test h₁.builder.ready hFfork (Builder.branches_fork hready σ₁.nextValue)
  have hblank := Func.blank_of_size_le (f := (σ₁.emit (.compare .one vt (.const 0.0))
    "ifcond").builder.func) (Nat.le_add_right _ 2)
  have hframe {ρ' : Env} (hf' : ρ₂.Frame (σ₁.emit (.compare .one vt (.const 0.0))
      "ifcond").builder.func.insts.size ρ') : ρ.Frame σ.builder.func.insts.size ρ' :=
    hf₁.trans (hf₂.trans hf' hcompare.builder.grows.insts_le) h₁.builder.grows.insts_le
  have hswitchLe := (d.branches_switch_join.grows d.no.ready.not_ended).slots_le
  refine .after hrun ?_
  cases hr : Expr.isTrue (ρ₁.value vt) with
  | true =>
    have hl₂ := hl₁.grown (hcompare.update (·.fork σ₁.nextValue)
      (hcompare.builder.trans h₁.builder.ready hfork) rfl)
    refine (follows_branch hyes (genExpr_grows registry yes) hy' hfork.ready
      ((Builder.branches_fork hready _).blank_new hready) hno' hFno hjready hjblank hF
      (by simp [IR.incoming?]) hFb hblank hfork.grows.insts_le (hslots ▸ hl₂) _).imp ?_
    rintro r w' _ ⟨ρ', rfl, hl', hf', rfl⟩
    refine ⟨ρ', rfl, hl'.mono ?_ fun x => ?_, hframe hf', rfl⟩
    · exact (hno'.grows d.yes.ready.not_ended).slots_le.trans (d.no.grows.slots_le.trans hswitchLe)
    · exact (hcond.scope x).trans ((h₂.scope x).trans (h₁.scope x)).symm
  | false =>
    have hl₂ : Linked Λ (σ₂.update (·.switch _ _)) env w₁.cells ρ₁.slots :=
      hl₁.mono (hcompare.builder.grows.trans hswitch.grows).slots_le h₂.scope
    obtain ⟨-, hnew, hnoBlank⟩ :=
      Builder.Diamond.later_blank hready d.yes (Nat.lt_succ_self _) (by simp)
    have hne : ¬σ₂.builder.current = σ₃.builder.current := d.ends_ne
    refine (follows_branch hno (genElse_grows registry no) hn' hswitch.ready
      (hno'.blank hnew hnoBlank) d.branches_switch_join hFj hjready hjblank hF
      (by simp [IR.incoming?, hne]) hFb hblank hswitch.grows.insts_le (hslots ▸ hl₂) _).imp ?_
    rintro r w' _ ⟨ρ', rfl, hl', hf', rfl⟩
    refine ⟨ρ', rfl, hl'.mono hswitchLe fun x => ?_, hframe hf', rfl⟩
    exact (hcond.scope x).trans ((h₃.scope x).trans ((h₂.scope x).trans (h₁.scope x))).symm

/-! ### Loops -/

/-- The step of a loop adds to what the slot of its index holds. -/
theorem run_advance (hs : σ.builder.Ready) {index : String} {slot : SlotId} {v : Operand}
    (hv : ∀ i, v = .inst i → i < σ.builder.func.insts.size)
    (hF : (σ.advance index slot v).builder.func.Grows F) :
    ∃ ρ', ρ.Frame σ.builder.func.insts.size ρ' ∧
      (ρ'.slots = fun s => if s = slot then ρ.slots slot + ρ.value v else ρ.slots s) ∧
      (F.process args).run o (1 + 1 + 1) (σ.builder.at F ρ, t) =
        some ((σ.advance index slot v).builder.at F ρ', t) := by
  have h₁ := (State.Grown.refl hs).emit hs (rfl : (Operation.load slot).isPhi = false) index
  have h₂ := h₁.emit hs (rfl : (Operation.binary .add σ.nextValue v).isPhi = false) "nextvar"
  have hF₂ := (Builder.grows_addInst h₂.builder.ready _ _).trans hF
  have hF₁ := (Builder.grows_addInst h₁.builder.ready _ _).trans hF₂
  refine ⟨_, ?_, ?_, Process.run_trans (Process.run_trans (run_emit hs hF₁ rfl (by simp))
    (run_emit h₁.builder.ready hF₂ rfl (by simp))) (run_emit h₂.builder.ready hF rfl (by simp))⟩
  · exact ((Env.Frame.setResult ρ _ _).trans (.setResult _ _ _) h₁.builder.grows.insts_le).trans
      (.setSlot _ _ _ _) (Nat.le_refl _)
  · have hold : (ρ.setResult σ.builder.func.insts.size (ρ.slots slot)).value v = ρ.value v :=
      (Env.Frame.setResult ρ _ _).value hv
    have hsum : ((ρ.setResult σ.builder.func.insts.size (ρ.slots slot)).value σ.nextValue) +
        (ρ.setResult σ.builder.func.insts.size (ρ.slots slot)).value v =
          ρ.slots slot + ρ.value v := by
      rw [hold, State.nextValue, Env.value, Env.results_setResult_self]
    funext s
    refine if_congr Iff.rfl ?_ rfl
    exact (Env.results_setResult_self ..).trans hsum

/-- One round of a loop: the body, the step, and the test. -/
def round (o : Oracle) (n : Nat) (stop step body : Expr) (inner : Bindings) (c : Nat) :
    Eval Bool := do
  let _ ← body.eval o n inner
  let increment ← step.eval o n inner
  Expr.write c ((← Expr.read c) + increment)
  return Expr.isTrue (← stop.eval o n inner)

theorem exec_advance {α : Type} (c : Nat) (x : Float) (k : Eval α) (w : World) :
    exec (do Expr.write c ((← Expr.read c) + x); k) w =
      exec k { w with cells := w.cells.setIfInBounds c (w.cells.getD c 0.0 + x) } := rfl

/-- The code of a round, from the head of the loop to its test. -/
theorem follows_round {index : String} {stop step body : Expr}
    (hbody : ExprSimulates registry F args o n body)
    (hstep : ExprSimulates registry F args o n step)
    (hstop : ExprSimulates registry F args o n stop) {σ₃ : State} {vb vs vt : Operand}
    {slot : SlotId} (hbody' : (genExpr registry body).Yields σ vb σ₁)
    (hstep' : (genExpr registry step).Yields σ₁ vs σ₂)
    (hstop' : (genExpr registry stop).Yields (σ₂.advance index slot vs) vt σ₃)
    (hs : σ.builder.Ready) (hF : σ₃.builder.func.Grows F) {c : Nat} (hm : (c, slot) ∈ Λ)
    (hl : Linked Λ σ env w.cells ρ.slots) :
    (F.process args).Follows o n (σ.builder.at F ρ, w.trace)
      (fun again => Arrives F Λ env σ σ₃ ρ fun ρ' => Expr.isTrue (ρ'.value vt) = again)
      (exec (round o n stop step body env c) w) := by
  have h₁ := genExpr_grows registry body hbody' hs
  have h₂ := genExpr_grows registry step hstep' h₁.builder.ready
  have hadvance := (State.Grown.refl h₂.builder.ready).advance h₂.builder.ready index slot vs
  have h₃ := genExpr_grows registry stop hstop' hadvance.builder.ready
  have hFa := h₃.builder.grows.trans hF
  have hF₂ := hadvance.builder.grows.trans hFa
  refine (hbody hbody' hs (h₂.builder.grows.trans hF₂) hl).bind ?_
  rintro - w₁ _ ⟨ρ₁, rfl, hl₁, hf₁, -⟩
  refine (hstep hstep' h₁.builder.ready hF₂ hl₁).bind ?_
  rintro r w₂ _ ⟨ρ₂, rfl, hl₂, hf₂, rfl⟩
  obtain ⟨ρ₃, hf₃, hslots, hrun⟩ := run_advance h₂.builder.ready
    (fun i hi => h₂.result (by simp [hi])) hFa
  have hl₃ : Linked Λ (σ₂.advance index slot vs) env
      (w₂.cells.setIfInBounds c (w₂.cells.getD c 0.0 + ρ₂.value vs)) ρ₃.slots := by
    rw [hslots, ← hl₂.value hm]
    exact (hl₂.grown hadvance).write hm _
  rw [exec_advance]
  refine .after hrun ((hstop hstop' hadvance.builder.ready hF hl₃).bind ?_)
  rintro r w₄ _ ⟨ρ₄, rfl, hl₄, hf₄, rfl⟩
  refine .pure ⟨ρ₄, rfl, hl₄, ?_, rfl⟩
  exact hf₁.trans (hf₂.trans (hf₃.trans hf₄ hadvance.builder.grows.insts_le)
    h₂.builder.grows.insts_le) h₁.builder.grows.insts_le

/-- The code of a loop, from its head to where it goes on after it. -/
theorem follows_loop {index : String} {stop step body : Expr}
    (hbody : ExprSimulates registry F args o n body)
    (hstep : ExprSimulates registry F args o n step)
    (hstop : ExprSimulates registry F args o n stop) {σ₃ : State} {vb vs vt : Operand}
    {slot : SlotId} (hbody' : (genExpr registry body).Yields σ vb σ₁)
    (hstep' : (genExpr registry step).Yields σ₁ vs σ₂)
    (hstop' : (genExpr registry stop).Yields (σ₂.advance index slot vs) vt σ₃)
    (hs : σ.builder.Ready) (hblank : σ.builder.func.Blank σ.builder.current)
    (hs₃ : σ₃.builder.Ready) {b : Builder} {name : String} {next : BlockId}
    (hleave : (σ₃.emit (.compare .one vt (.const 0.0)) name).builder.Branches b
      (.condBr σ₃.nextValue σ.builder.current next) next) (hbblank : b.func.Blank b.current)
    (hF : b.func.Grows F) (hgrows : σ.builder.func.Grows σ₃.builder.func) {c : Nat}
    (hm : (c, slot) ∈ Λ) (hl : Linked Λ σ env w.cells ρ.slots) :
    (F.process args).Follows o n (σ.builder.at F ρ, w.trace)
      (fun _ w' s => ∃ ρ', s = b.at F ρ' ∧ Linked Λ σ₃ env w'.cells ρ'.slots ∧
        ρ.Frame σ.builder.func.insts.size ρ')
      (exec (Expr.rounds n (round o n stop step body env c)) w) := by
  have hready := Builder.ready_addInst hs₃ (.compare .one vt (.const 0.0)) name
  have hFcompare := (hleave.grows hready.not_ended).trans hF
  have hF₃ := (Builder.grows_addInst hs₃ _ _).trans hFcompare
  refine Process.Follows.rounds (I := fun w s => ∃ ρ', s = σ.builder.at F ρ' ∧
    Linked Λ σ env w.cells ρ'.slots ∧ ρ.Frame σ.builder.func.insts.size ρ') ?_ (Nat.le_refl n)
    ⟨ρ, rfl, hl, .refl _ ρ⟩
  rintro w' _ ⟨ρ', rfl, hl', hf'⟩
  refine (follows_round hbody hstep hstop hbody' hstep' hstop' hs hF₃ hm hl').imp ?_
  rintro again w'' _ ⟨ρ₁, rfl, hl₁, hf₁, rfl⟩
  obtain ⟨ρ₂, hf₂, hslots, hrun⟩ := run_test hs₃ hF hleave
  have hf₂ := hf'.trans (hf₁.trans hf₂ hgrows.insts_le) (Nat.le_refl _)
  have hl₂ : Linked Λ σ₃ env w''.cells ρ₂.slots := hslots ▸ hl₁
  refine ⟨1 + 1, _, Nat.succ_pos 1, hrun, ?_⟩
  cases Expr.isTrue (ρ₁.value vt) with
  | true =>
    refine ⟨_, Builder.enter_eq hblank _, hl'.back hl₂, ?_⟩
    exact hf₂.trans (.enter (hgrows.trans hF₃) hblank _ ρ₂) (Nat.le_refl _)
  | false =>
    obtain rfl := hleave.current
    refine ⟨_, Builder.enter_eq hbblank _, hl₂, ?_⟩
    have hgrows' := hgrows.trans
      ((Builder.grows_addInst hs₃ _ _).trans (hleave.grows hready.not_ended))
    exact hf₂.trans (.enter hF hbblank _ ρ₂) hgrows'.insts_le

theorem simulates_loop {index : String} {start stop step body : Expr}
    (hstart : ExprSimulates registry F args o n start)
    (hbody : ExprSimulates registry F args o n body)
    (hstep : ExprSimulates registry F args o n step)
    (hstop : ExprSimulates registry F args o n stop) :
    ExprSimulates registry F args o n (.loop index start stop step body) := by
  intro Λ σ v σ' env w ρ h hs hF hl
  have hloop := genExpr_grows registry (.loop index start stop step body) h hs
  obtain ⟨first, σ₁, vb, σ₂, vs, σ₃, vt, σ₄, hstart', hbody', hstep', hstop', rfl, rfl⟩ :=
    yields_loop h
  rw [← σ₁.builder.size_addInst (.store σ.builder.func.slots.size first) ""] at hF hloop ⊢
  have h₀ := State.Grown.addSlot hs index
  have h₁ := genExpr_grows registry start hstart' h₀.builder.ready
  have hstore := (State.Grown.refl h₁.builder.ready).emit h₁.builder.ready
    (rfl : (Operation.store σ.builder.func.slots.size first).isPhi = false) ""
  have henter := Builder.branches_enterLoop hstore.builder.ready
  have hhead := Builder.growth_enterLoop hstore.builder.ready
  have hblank := henter.blank_new hstore.builder.ready
  have h₂ := genExpr_grows registry body hbody' hhead.ready
  have h₃ := genExpr_grows registry step hstep' h₂.builder.ready
  have hadvance := (State.Grown.refl h₃.builder.ready).advance h₃.builder.ready index
    σ.builder.func.slots.size vs
  have h₄ := genExpr_grows registry stop hstop' hadvance.builder.ready
  have hcompare := (State.Grown.refl h₄.builder.ready).emit h₄.builder.ready
    (rfl : (Operation.compare .one vt (.const 0.0)).isPhi = false) "loopcond"
  have hleave := Builder.branches_leaveLoop hcompare.builder.ready σ₄.nextValue
    (σ₁.emit (.store σ.builder.func.slots.size first) "").builder.func.blocks.size
  have hF₄ := hcompare.builder.grows.trans
    ((hleave.grows hcompare.builder.ready.not_ended).trans hF)
  have hgrows := h₂.builder.grows.trans (h₃.builder.grows.trans
    (hadvance.builder.grows.trans h₄.builder.grows))
  have hFhead := hgrows.trans hF₄
  have hFstore := hhead.grows.trans hFhead
  rw [Expr.eval]
  refine (hstart hstart' h₀.builder.ready (hstore.builder.grows.trans hFstore)
    (hl.grown h₀)).bind ?_
  rintro r w₁ _ ⟨ρ₁, rfl, hl₁, hf₁, rfl⟩
  rw [exec_create_bind]
  have hslot : σ.builder.func.slots.size < σ₁.builder.func.slots.size :=
    Nat.lt_of_lt_of_le (by simp [State.update, Builder.addSlot]) h₁.builder.grows.slots_le
  have hl₂ := (hl₁.grown (hstore.update (·.enterLoop)
    (hstore.builder.trans h₁.builder.ready hhead) rfl)).push hslot
    (fun c hm => Nat.lt_irrefl _ (hl.slot_lt hm)) index (ρ₁.value first)
  refine .after (run_emit h₁.builder.ready hFstore rfl (by simp))
    (.after (run_continue henter hFhead hblank) ?_)
  refine (follows_loop hbody hstep hstop hbody' hstep' hstop' hhead.ready hblank h₄.builder.ready
    hleave (hleave.blank_new hcompare.builder.ready) hF hgrows (List.mem_cons_self ..) hl₂).bind ?_
  rintro - w₂ _ ⟨ρ₂, rfl, hl₂, hf₂⟩
  refine .pure ⟨ρ₂, rfl, hl₁.pop hl₂ (Nat.le_refl _)
    (fun x => (hloop.scope x).trans (h₁.scope x).symm), ?_, rfl⟩
  have hle := hstore.builder.grows.insts_le.trans hhead.grows.insts_le
  exact hf₁.trans
    (((Env.Frame.setSlot ρ₁ _ _ _).trans (.enter hFhead hblank _ _) hle).trans hf₂ hle)
    h₁.builder.grows.insts_le

/-- The code of every expression follows its evaluation. -/
theorem genExpr_simulates (registry : Registry) (F : Func) (args : List Float) (o : Oracle)
    (n : Nat) (e : Expr) : ExprSimulates registry F args o n e :=
  genExpr.induct registry (ExprSimulates registry F args o n)
    (fun e => (genElse registry e).Simulates F args o n (Expr.evalElse o n e) Env.value)
    (fun es => (genArgs registry es).Simulates F args o n (Expr.evalArgs o n es)
      fun ρ vs => vs.map ρ.value)
    (fun vars => ∀ (g : Gen Operand) e, g.Grows ([·]) → g.Simulates F args o n e Env.value →
      (genVars registry vars g).Simulates F args o n (fun env => Expr.evalVars o n vars env e)
        Env.value)
    (fun e => (genInit registry e).Simulates F args o n (Expr.evalInit o n e) Env.value)
    simulates_number simulates_var (fun _ _ => simulates_unary) (fun _ _ => simulates_assign)
    (fun _ _ hl _ _ _ _ _ _ _ h => absurd h (not_yields_assign hl))
    (fun _ _ _ hop => simulates_binary hop)
    (fun _ body hv hb => genExpr_declare .. ▸ hv _ _ (genExpr_grows registry body) hb)
    (fun _ _ => simulates_call) (fun _ _ _ => simulates_cond) (fun _ _ _ _ _ => simulates_loop) (fun _ _ _ hg => hg)
    (fun _ _ _ hi hrest _ e hb hg => simulates_vars_cons hb hi (hrest _ e hb hg))
    simulates_args_nil (fun _ _ => simulates_args_cons) (fun _ => id)
    simulates_else_none (fun _ => id) simulates_init_none e

end ScalarLang.Codegen
