import ScalarLang.Codegen

/-! What a successful step of code generation does. A generator yields a result if it ends without
an error. For each kind of expression this says which generators yield what, one after the
other. -/

namespace ScalarLang

variable {α β : Type}

/-- The result of a computation that can fail, and the state that it leaves. -/
def exec {ε σ : Type} (m : ExceptT ε (StateM σ) α) (s : σ) : Except ε α × σ := m.run.run s

theorem exec_bind {ε σ : Type} (m : ExceptT ε (StateM σ) α) (k : α → ExceptT ε (StateM σ) β)
    (s : σ) : exec (m >>= k) s =
      match exec m s with
      | (.ok a, s₁) => exec (k a) s₁
      | (.error e, s₁) => (.error e, s₁) := by
  change (match exec m s with | (x, s₁) => (ExceptT.bindCont k x).run s₁) = _
  rcases exec m s with ⟨- | a, s₁⟩ <;> rfl

theorem run_bind {σ : Type} (m : StateM σ α) (k : α → StateM σ β) (s : σ) :
    (m >>= k).run s = (k (m.run s).1).run (m.run s).2 := rfl

namespace Codegen

open IR (Builder BlockId Operand Operation SlotId Terminator)

variable {s s' : State}

/-- The generator ends in state `s'` with result `a`. -/
def Gen.Yields (g : Gen α) (s : State) (a : α) (s' : State) : Prop := exec g s = (.ok a, s')

/-! ### Steps -/

@[simp] theorem yields_pure {a b : α} : (pure a : Gen α).Yields s b s' ↔ b = a ∧ s' = s := by
  have : exec (pure a : Gen α) s = (.ok a, s) := rfl
  simp [Gen.Yields, this, eq_comm]

@[simp] theorem yields_bind {g : Gen α} {k : α → Gen β} {b : β} :
    (g >>= k).Yields s b s' ↔ ∃ a s₁, g.Yields s a s₁ ∧ (k a).Yields s₁ b s' := by
  simp only [Gen.Yields, exec_bind]
  rcases exec g s with ⟨- | a, s₁⟩ <;> simp [and_assoc]

@[simp] theorem yields_throw {e : CodegenError} {a : α} : ¬(throw e : Gen α).Yields s a s' := by
  have : exec (throw e : Gen α) s = (.error e, s) := rfl
  simp [Gen.Yields, this]

@[simp] theorem yields_get {a : State} : (get : Gen State).Yields s a s' ↔ a = s ∧ s' = s := by
  have : exec (get : Gen State) s = (.ok s, s) := rfl
  simp [Gen.Yields, this, eq_comm]

@[simp] theorem yields_modify {f : State → State} {u : Unit} :
    (modify f : Gen Unit).Yields s u s' ↔ s' = f s := by
  have : exec (modify f : Gen Unit) s = (.ok (), f s) := rfl
  simp [Gen.Yields, this, eq_comm]

@[simp] theorem yields_build {step : Builder → α × Builder} {a : α} : (build step).Yields s a s' ↔
    a = (step s.builder).1 ∧ s' = { s with builder := (step s.builder).2 } := by
  have : exec (build step) s =
    (.ok (step s.builder).1, { s with builder := (step s.builder).2 }) := rfl
  simp [Gen.Yields, this, eq_comm]

@[simp] theorem yields_edit {step : Builder → Builder} {u : Unit} :
    (edit step).Yields s u s' ↔ s' = { s with builder := step s.builder } := yields_modify

@[simp] theorem yields_lookup {name : String} {slot : SlotId} :
    (lookup name).Yields s slot s' ↔ s.scope.find? name = some slot ∧ s' = s := by
  simp only [lookup, yields_bind, yields_get]
  constructor
  · rintro ⟨_, _, ⟨h₁, h₂⟩, h⟩
    rw [h₁, h₂] at h
    cases hf : s.scope.find? name <;> simp_all
  · rintro ⟨hf, rfl⟩
    exact ⟨s', s', ⟨rfl, rfl⟩, by simp [hf]⟩

/-- The state after a step of the builder. -/
def State.update (s : State) (step : Builder → Builder) : State :=
  { s with builder := step s.builder }

/-- The state after an instruction is added. -/
def State.emit (s : State) (op : Operation) (name : String) : State :=
  s.update fun b => (b.addInst op name).2

/-- The result of the instruction that is added next. -/
def State.nextValue (s : State) : Operand := .inst s.builder.func.insts.size

@[simp] theorem yields_emit {op : Operation} {name : String} {v : Operand} :
    (Codegen.emit op name).Yields s v s' ↔ v = s.nextValue ∧ s' = s.emit op name := yields_build

@[simp] theorem yields_here {b : BlockId} :
    here.Yields s b s' ↔ b = s.builder.current ∧ s' = s := by
  simp only [here, yields_bind, yields_get, yields_pure]
  constructor
  · rintro ⟨_, _, ⟨h₁, h₂⟩, rfl, rfl⟩
    exact ⟨by rw [h₁], h₂⟩
  · rintro ⟨rfl, rfl⟩
    exact ⟨_, _, ⟨rfl, rfl⟩, rfl, rfl⟩

/-! Steps of the builder in front of a generator. -/

theorem yields_build_bind {step : Builder → α × Builder} {k : α → Gen β} {b : β} :
    (build step >>= k).Yields s b s' ↔
      (k (step s.builder).1).Yields (s.update fun b => (step b).2) b s' := Iff.rfl

theorem yields_edit_bind {step : Builder → Builder} {k : Unit → Gen β} {b : β} :
    (edit step >>= k).Yields s b s' ↔ (k ()).Yields (s.update step) b s' := Iff.rfl

theorem yields_emit_bind {op : Operation} {name : String} {k : Operand → Gen β} {b : β} :
    (Codegen.emit op name >>= k).Yields s b s' ↔
      (k s.nextValue).Yields (s.emit op name) b s' := Iff.rfl

theorem yields_here_bind {k : BlockId → Gen β} {b : β} :
    (here >>= k).Yields s b s' ↔ (k s.builder.current).Yields s b s' := Iff.rfl

/-- The state where a name is bound to a slot. -/
def State.bind (s : State) (name : String) (slot : SlotId) : State :=
  { s with scope := s.scope.insert name slot }

/-- The state where a name means what it meant in `s`. -/
def State.unbind (s' s : State) (name : String) : State :=
  { s' with scope := s'.scope.restore name (s.scope.find? name) }

theorem exec_withBinding (name : String) (slot : SlotId) (body : Gen α) (s : State) :
    exec (withBinding name slot body) s =
      ((exec body (s.bind name slot)).1, (exec body (s.bind name slot)).2.unbind s name) := rfl

@[simp] theorem yields_withBinding {name : String} {slot : SlotId} {body : Gen α} {a : α} :
    (withBinding name slot body).Yields s a s' ↔
      ∃ s₁, body.Yields (s.bind name slot) a s₁ ∧ s' = s₁.unbind s name := by
  rw [Gen.Yields, exec_withBinding]
  simp only [Gen.Yields, Prod.mk.injEq]
  constructor
  · rintro ⟨ha, rfl⟩
    exact ⟨_, Prod.ext ha rfl, rfl⟩
  · rintro ⟨s₁, h, rfl⟩
    simp [h]

/-! ### Calls -/

/-- The state after a function was looked up that takes `n` arguments. -/
inductive Known (registry : Registry) (callee : String) (n : Nat) (s : State) : State → Prop where
  | unit {f : IR.Func} (h : s.unit.find? callee = some f) (hn : f.arity = n) :
      Known registry callee n s s
  | registry {proto : Prototype} (h : s.unit.find? callee = none)
      (hp : registry.find? callee = some proto) (hn : proto.arity = n) :
      Known registry callee n s { s with unit := s.unit.redeclare proto.name proto.params }

theorem Known.builder {registry : Registry} {callee : String} {n : Nat}
    (h : Known registry callee n s s') : s'.builder = s.builder := by
  cases h <;> rfl

theorem Known.scope {registry : Registry} {callee : String} {n : Nat}
    (h : Known registry callee n s s') : s'.scope = s.scope := by
  cases h <;> rfl

theorem yields_checkArity {registry : Registry} {callee : String} {n : Nat} {u : Unit}
    (h : (checkArity registry callee n).Yields s u s') : Known registry callee n s s' := by
  simp only [checkArity, arity?, yields_bind, yields_get] at h
  obtain ⟨k, s₁, ⟨_, _, ⟨h₁, h₂⟩, hk⟩, h⟩ := h
  rw [h₁, h₂] at hk
  cases hf : s.unit.find? callee with
  | some f =>
    simp only [hf, yields_pure] at hk
    obtain ⟨rfl, rfl⟩ := hk
    by_cases hn : f.arity = n
    · obtain rfl : s' = s₁ := by simpa [hn] using h
      exact .unit hf hn
    · simp [hn] at h
  | none =>
    cases hp : registry.find? callee with
    | none => simp_all
    | some proto =>
      simp only [hf, hp, yields_bind, yields_modify, yields_pure] at hk
      obtain ⟨_, _, rfl, rfl, rfl⟩ := hk
      by_cases hn : proto.arity = n
      · simp only [hn, ne_eq, not_true_eq_false, if_false, yields_pure, true_and] at h
        exact h ▸ .registry hf hp hn
      · simp [hn] at h

/-! ### Blocks -/

end Codegen

namespace IR.Builder

/-- Ends the current block with a branch to two new ones, of which the second is not laid out, as
is the one where they meet. Goes on in the first. -/
def fork (b : Builder) (cond : Operand) : Builder :=
  let (yes, b) := b.appendNewBlock "then"
  let (no, b) := b.createBlock "else"
  let (_, b) := b.createBlock "ifcont"
  (b.terminate (.condBr cond yes no)).position yes

/-- Ends the current block with a jump to `join`, and goes on in `next`. -/
def switch (b : Builder) (join next : BlockId) : Builder :=
  ((b.terminate (.br join)).appendBlock next).position next

/-- Ends the current block with a jump to a new one, and goes on in it. -/
def enterLoop (b : Builder) : Builder :=
  let (loop, b) := b.appendNewBlock "loop"
  (b.terminate (.br loop)).position loop

/-- Ends the current block with a branch to `loop` and to a new one, and goes on in the new one. -/
def leaveLoop (b : Builder) (cond : Operand) (loop : BlockId) : Builder :=
  let (after, b) := b.appendNewBlock "afterloop"
  (b.terminate (.condBr cond loop after)).position after

theorem size_createBlock (b : Builder) (name : String) :
    (b.createBlock name).2.func.blocks.size = b.func.blocks.size + 1 := by
  simp [createBlock]

theorem size_appendNewBlock (b : Builder) (name : String) :
    (b.appendNewBlock name).2.func.blocks.size = b.func.blocks.size + 1 :=
  b.size_createBlock name

theorem size_addInst (b : Builder) (op : Operation) (name : String) :
    (b.addInst op name).2.func.blocks.size = b.func.blocks.size := by
  simp [addInst, Func.modifyBlock]

end IR.Builder

namespace Codegen

open IR (Builder BlockId Operand Operation SlotId Terminator)

variable {s s' : State} {registry : Registry}

/-! ### Declarations -/

/-- A slot for a variable, with its initial value in it. -/
def initVar (registry : Registry) (name : String) (init : Option Expr) : Gen SlotId := do
  let slot ← build (·.addSlot name)
  let v ← genInit registry init
  edit (·.addStore slot v)
  return slot

/-- Binds variables around a body, each until all behind it is generated. -/
def genVars (registry : Registry) : List (String × Option Expr) → Gen Operand → Gen Operand
  | [], body => body
  | (name, init) :: rest, body => do
    let slot ← build (·.addSlot name)
    let v ← genInit registry init
    edit (·.addStore slot v)
    withBinding name slot (genVars registry rest body)

/-- Generates a body after variables were bound, if they all were, and closes the bindings. -/
def closing (body : Gen Operand) :
    (List Shadowed × Except CodegenError Unit) × State → Except CodegenError Operand × State
  | ((shadowed, .ok _), s) =>
    ((exec body s).1, { (exec body s).2 with scope := (exec body s).2.scope.closeAll shadowed })
  | ((shadowed, .error e), s) => (.error e, { s with scope := s.scope.closeAll shadowed })

theorem exec_declare (vars : List (String × Option Expr)) (body : Expr) (s : State) :
    exec (genExpr registry (.declare vars body)) s =
      closing (genExpr registry body) ((bindVars registry vars).run s) := by
  rw [genExpr, exec, ExceptT.run_mk, run_bind]
  rcases (bindVars registry vars).run s with ⟨⟨shadowed, e | ⟨⟩⟩, s₁⟩ <;> rfl

theorem run_bindVars_cons (name : String) (init : Option Expr)
    (rest : List (String × Option Expr)) (s : State) :
    (bindVars registry ((name, init) :: rest)).run s =
      match exec (initVar registry name init) s with
      | (.error e, s₁) => (([], .error e), s₁)
      | (.ok slot, s₁) =>
        let ((more, bound), s₂) := (bindVars registry rest).run (s₁.bind name slot)
        ((⟨name, s₁.scope.find? name⟩ :: more, bound), s₂) := by
  rcases h : exec (initVar registry name init) s with ⟨e | slot, s₁⟩
  all_goals
    simp only [exec, initVar] at h
    simp only [bindVars, run_bind, h]
    rfl

theorem genVars_cons (name : String) (init : Option Expr) (rest : List (String × Option Expr))
    (body : Gen Operand) : genVars registry ((name, init) :: rest) body =
      initVar registry name init >>= fun slot =>
        withBinding name slot (genVars registry rest body) := by
  simp only [genVars, initVar, bind_assoc, pure_bind]

theorem exec_genVars (vars : List (String × Option Expr)) (body : Gen Operand) (s : State) :
    exec (genVars registry vars body) s = closing body ((bindVars registry vars).run s) := by
  induction vars generalizing s with
  | nil =>
    rw [genVars, bindVars]
    rfl
  | cons var rest ih =>
    obtain ⟨name, init⟩ := var
    rw [genVars_cons, exec_bind, run_bindVars_cons]
    rcases exec (initVar registry name init) s with ⟨e | slot, s₁⟩
    · rfl
    · simp only
      rw [exec_withBinding, ih]
      rcases (bindVars registry rest).run (s₁.bind name slot) with ⟨⟨shadowed, e | ⟨⟩⟩, s₂⟩
      all_goals
        simp only [closing, Scope.closeAll_cons]
        rfl

/-- To close bindings together, the last first, is to close each where it was made. -/
theorem genExpr_declare (vars : List (String × Option Expr)) (body : Expr) :
    genExpr registry (.declare vars body) = genVars registry vars (genExpr registry body) := by
  funext s
  exact (exec_declare vars body s).trans (exec_genVars vars _ s).symm

/-! ### Expressions -/

theorem yields_var {name : String} {v : Operand}
    (h : (genExpr registry (.var name)).Yields s v s') : ∃ slot, s.scope.find? name = some slot ∧
      v = s.nextValue ∧ s' = s.emit (.load slot) name := by
  simp only [genExpr, yields_bind, yields_lookup, yields_emit] at h
  obtain ⟨slot, _, ⟨hs, rfl⟩, rfl, rfl⟩ := h
  exact ⟨slot, hs, rfl, rfl⟩

theorem yields_operatorCall {callee : String} {args : List Operand} {name : String} {v : Operand}
    (h : (operatorCall registry callee args name).Yields s v s') :
    ∃ s₁, Known registry callee args.length s s₁ ∧ v = s₁.nextValue ∧
      s' = s₁.emit (.call callee args) name := by
  simp only [operatorCall, yields_bind, yields_emit] at h
  obtain ⟨_, s₁, hk, rfl, rfl⟩ := h
  exact ⟨s₁, yields_checkArity hk, rfl, rfl⟩

theorem yields_unary {op : Char} {e : Expr} {v : Operand}
    (h : (genExpr registry (.unary op e)).Yields s v s') :
    ∃ ve s₁ s₂, (genExpr registry e).Yields s ve s₁ ∧
      Known registry (Prototype.unaryName op) 1 s₁ s₂ ∧ v = s₂.nextValue ∧
      s' = s₂.emit (.call (Prototype.unaryName op) [ve]) "unop" := by
  simp only [genExpr, yields_bind] at h
  obtain ⟨ve, s₁, he, h⟩ := h
  obtain ⟨s₂, h⟩ := yields_operatorCall h
  exact ⟨ve, s₁, s₂, he, h⟩

theorem yields_assign {name : String} {e : Expr} {v : Operand}
    (h : (genExpr registry (.binary '=' (.var name) e)).Yields s v s') :
    ∃ s₁ slot, (genExpr registry e).Yields s v s₁ ∧ s₁.scope.find? name = some slot ∧
      s' = s₁.emit (.store slot v) "" := by
  simp only [genExpr, if_true, yields_bind, yields_lookup, yields_edit, yields_pure] at h
  obtain ⟨_, s₁, he, slot, _, ⟨hs, rfl⟩, _, _, rfl, rfl, rfl⟩ := h
  exact ⟨_, slot, he, hs, rfl⟩

theorem not_yields_assign {left right : Expr} {v : Operand} (hl : ∀ name, left ≠ .var name) :
    ¬(genExpr registry (.binary '=' left right)).Yields s v s' := by
  unfold genExpr
  cases left <;> simp_all

theorem yields_binary {op : Char} (hop : op ≠ '=') {left right : Expr} {v : Operand}
    (h : (genExpr registry (.binary op left right)).Yields s v s') :
    ∃ vl s₁ vr s₂, (genExpr registry left).Yields s vl s₁ ∧
      (genExpr registry right).Yields s₁ vr s₂ ∧
      (applyBinary registry op vl vr).Yields s₂ v s' := by
  simp only [genExpr, if_neg hop, yields_bind] at h
  obtain ⟨vl, s₁, hl, vr, s₂, hr, h⟩ := h
  exact ⟨vl, s₁, vr, s₂, hl, hr, h⟩

theorem yields_call {callee : String} {args : List Expr} {v : Operand}
    (h : (genExpr registry (.call callee args)).Yields s v s') :
    ∃ s₁ vs s₂, Known registry callee args.length s s₁ ∧ (genArgs registry args).Yields s₁ vs s₂ ∧
      v = s₂.nextValue ∧ s' = s₂.emit (.call callee vs) "calltmp" := by
  simp only [genExpr, yields_bind, yields_emit] at h
  obtain ⟨_, s₁, hk, vs, s₂, ha, rfl, rfl⟩ := h
  exact ⟨s₁, vs, s₂, yields_checkArity hk, ha, rfl, rfl⟩

theorem yields_args_cons {e : Expr} {rest : List Expr} {vs : List Operand}
    (h : (genArgs registry (e :: rest)).Yields s vs s') :
    ∃ v s₁ vs', (genExpr registry e).Yields s v s₁ ∧ (genArgs registry rest).Yields s₁ vs' s' ∧
      vs = v :: vs' := by
  simp only [genArgs, yields_bind, yields_pure] at h
  obtain ⟨v, s₁, he, vs', _, hr, rfl, rfl⟩ := h
  exact ⟨v, s₁, vs', he, hr, rfl⟩

theorem yields_vars_cons {name : String} {init : Option Expr} {rest : List (String × Option Expr)}
    {body : Gen Operand} {v : Operand}
    (h : (genVars registry ((name, init) :: rest) body).Yields s v s') :
    ∃ vi s₁ s₂, (genInit registry init).Yields (s.update fun b => (b.addSlot name).2) vi s₁ ∧
      (genVars registry rest body).Yields ((s₁.emit (.store s.builder.func.slots.size vi) "").bind
        name s.builder.func.slots.size) v s₂ ∧ s' = s₂.unbind s₁ name := by
  simp only [genVars, yields_bind, yields_build, yields_edit, yields_withBinding] at h
  obtain ⟨_, _, ⟨rfl, rfl⟩, vi, s₁, hi, _, _, rfl, s₂, hr, rfl⟩ := h
  exact ⟨vi, s₁, s₂, hi, hr, rfl⟩

theorem yields_cond {test yes : Expr} {no : Option Expr} {v : Operand}
    (h : (genExpr registry (.cond test yes no)).Yields s v s') :
    ∃ vt s₁ vy s₂ vn s₃, (genExpr registry test).Yields s vt s₁ ∧
      (genExpr registry yes).Yields ((s₁.emit (.compare .one vt (.const 0.0)) "ifcond").update
        (·.fork s₁.nextValue)) vy s₂ ∧
      (genElse registry no).Yields (s₂.update
        (·.switch (s₁.builder.func.blocks.size + 2) (s₁.builder.func.blocks.size + 1))) vn s₃ ∧
      v = s₃.nextValue ∧ s' = (s₃.update
        (·.switch (s₁.builder.func.blocks.size + 2) (s₁.builder.func.blocks.size + 2))).emit
          (.phi [(vy, s₂.builder.current), (vn, s₃.builder.current)]) "iftmp" := by
  simp only [genExpr, testNonzero, terminate, moveTo, openBlock] at h
  rw [yields_bind] at h
  obtain ⟨vt, s₁, ht, h⟩ := h
  rw [yields_emit_bind, yields_build_bind, yields_build_bind, yields_build_bind, yields_edit_bind,
    yields_edit_bind, yields_bind] at h
  obtain ⟨vy, s₂, hy, h⟩ := h
  rw [yields_edit_bind, yields_here_bind, yields_edit_bind, yields_bind] at h
  obtain ⟨vn, s₃, hn, h⟩ := h
  rw [yields_edit_bind, yields_here_bind, yields_edit_bind, yields_emit] at h
  obtain ⟨rfl, rfl⟩ := h
  have hno (b : Builder) (name : String) : (b.createBlock name).1 = b.func.blocks.size := rfl
  have hbuilder (s : State) (step : Builder → Builder) :
    (s.update step).builder = step s.builder := rfl
  have hsize : (s₁.emit (.compare .one vt (.const 0.0)) "ifcond").builder.func.blocks.size =
    s₁.builder.func.blocks.size := s₁.builder.size_addInst ..
  simp only [hno, hbuilder, Builder.size_createBlock, Builder.size_appendNewBlock, hsize] at hn ⊢
  exact ⟨vt, s₁, vy, s₂, vn, s₃, ht, hy, hn, rfl, rfl⟩

/-- The state after a loop has taken its step: the index is read, increased and written. -/
def State.advance (s : State) (index : String) (slot : SlotId) (increment : Operand) : State :=
  let read := s.emit (.load slot) index
  let added := read.emit (.binary .add s.nextValue increment) "nextvar"
  added.emit (.store slot read.nextValue) ""

theorem yields_loop {index : String} {start stop step body : Expr} {v : Operand}
    (h : (genExpr registry (.loop index start stop step body)).Yields s v s') :
    ∃ first s₁ vb s₂ vs s₃ vt s₄,
      (genExpr registry start).Yields (s.update fun b => (b.addSlot index).2) first s₁ ∧
      (genExpr registry body).Yields (((s₁.emit (.store s.builder.func.slots.size first) "").update
        (·.enterLoop)).bind index s.builder.func.slots.size) vb s₂ ∧
      (genExpr registry step).Yields s₂ vs s₃ ∧
      (genExpr registry stop).Yields (s₃.advance index s.builder.func.slots.size vs) vt s₄ ∧
      v = .const 0.0 ∧ s' = ((s₄.emit (.compare .one vt (.const 0.0)) "loopcond").update
        (·.leaveLoop s₄.nextValue s₁.builder.func.blocks.size)).unbind s₁ index := by
  simp only [genExpr, testNonzero, terminate, moveTo] at h
  rw [yields_build_bind, yields_bind] at h
  obtain ⟨first, s₁, hstart, h⟩ := h
  rw [yields_edit_bind, yields_build_bind, yields_edit_bind, yields_edit_bind, yields_bind] at h
  obtain ⟨_, _, hloop, hv⟩ := h
  rw [yields_pure] at hv
  obtain ⟨rfl, rfl⟩ := hv
  rw [yields_withBinding] at hloop
  obtain ⟨s₅, hloop, rfl⟩ := hloop
  rw [yields_bind] at hloop
  obtain ⟨vb, s₂, hbody, hloop⟩ := hloop
  rw [yields_bind] at hloop
  obtain ⟨vs, s₃, hstep, hloop⟩ := hloop
  rw [yields_emit_bind, yields_emit_bind, yields_edit_bind, yields_bind] at hloop
  obtain ⟨vt, s₄, hstop, hloop⟩ := hloop
  rw [yields_emit_bind, yields_build_bind, yields_edit_bind, yields_edit] at hloop
  subst hloop
  have hsize : (s₁.emit (.store s.builder.func.slots.size first) "").builder.func.blocks.size =
    s₁.builder.func.blocks.size := s₁.builder.size_addInst ..
  refine ⟨first, s₁, vb, s₂, vs, s₃, vt, s₄, hstart, hbody, hstep, hstop, rfl, ?_⟩
  rw [← hsize]
  rfl

/-! ### Functions -/

theorem yields_params_cons {param : String} {rest : List String} {index : Nat} {u : Unit}
    (h : (genParams (param :: rest) index).Yields s u s') :
    (genParams rest (index + 1)).Yields (((s.update fun b => (b.addSlot param).2).emit
      (.store s.builder.func.slots.size (.arg index)) "").bind param s.builder.func.slots.size)
      u s' := by
  simp only [genParams, yields_bind, yields_build, yields_edit, yields_modify] at h
  obtain ⟨_, _, ⟨rfl, rfl⟩, _, _, rfl, _, _, rfl, h⟩ := h
  exact h

theorem yields_body {proto : Prototype} {body : Expr} {u : Unit}
    (h : (genBody registry proto body).Yields s u s') :
    ∃ s₁ v s₂, (genParams proto.params 0).Yields s () s₁ ∧ (genExpr registry body).Yields s₁ v s₂ ∧
      s' = s₂.update (·.terminate (.ret v)) := by
  simp only [genBody, terminate, yields_bind, yields_edit] at h
  obtain ⟨_, s₁, hp, v, s₂, hb, rfl⟩ := h
  exact ⟨s₁, v, s₂, hp, hb, rfl⟩

/-- The state in which a function is generated. -/
def startState (unit : IR.Module) (proto : Prototype) : State where
  unit := unit.redeclare proto.name proto.params
  builder := .start proto.name proto.params
  scope := {}

theorem function_eq_exec (passes : IR.Pipeline) (unit : IR.Module) (proto : Prototype)
    (body : Expr) : function registry passes unit proto body =
      match exec (genBody registry proto body) (startState unit proto) with
      | (.error e, s) => (.error e, s.unit)
      | (.ok _, s) =>
        match s.builder.func.verify with
        | .error e => (.error (.verify e), s.unit)
        | .ok _ =>
          (.ok (passes.run s.builder.func).1, s.unit.define (passes.run s.builder.func).1) :=
  rfl

theorem function_eq_ok {passes : IR.Pipeline} {unit unit' : IR.Module} {proto : Prototype}
    {body : Expr} {f : IR.Func}
    (h : function registry passes unit proto body = (.ok f, unit')) :
    ∃ s, (genBody registry proto body).Yields (startState unit proto) () s ∧
      s.builder.func.verify = .ok () ∧ f = (passes.run s.builder.func).1 ∧
      unit' = s.unit.define f := by
  rw [function_eq_exec] at h
  rcases hg : exec (genBody registry proto body) (startState unit proto) with ⟨e | _, s⟩
  · simp [hg] at h
  · cases hv : s.builder.func.verify with
    | error e => simp [hg, hv] at h
    | ok _ =>
      simp only [hg, hv, Prod.mk.injEq, Except.ok.injEq] at h
      exact ⟨s, hg, hv, h.1.symm, h.1 ▸ h.2.symm⟩

end Codegen

end ScalarLang
