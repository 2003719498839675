import ScalarLang.Proofs.Codegen.Scoping
import ScalarLang.Proofs.Expr.Places

/-! When a function can be generated: if every place in its body is proper, which depends on the
form of the expression there, the names that are visible, and the numbers of parameters of the
functions that are known. Otherwise generation ends with an error, and the unit has no new
definition. -/

namespace ScalarLang

open IR (Builder BlockId Func Operand Operation SlotId Terminator)

/-- The infix operators that are instructions. -/
def Expr.instructions : List Char := ['+', '-', '*', '/', '<']

/-- What is asked of the expression at a place where the names `visible` are in scope: variables are
visible, variables only are assigned to, calls and uses of other operators pass as many arguments as
the function takes, and conditionals have both branches. -/
def Expr.Proper (signature : String → Option Nat) (visible : List String) : Expr → Prop
  | .number _ => True
  | .var name => name ∈ visible
  | .unary op _ => signature (Prototype.unaryName op) = some 1
  | .binary op left _ =>
    if op = '=' then ∃ name, left = .var name
    else op ∈ instructions ∨ signature (Prototype.binaryName op) = some 2
  | .declare _ _ => True
  | .call callee args => signature callee = some args.length
  | .cond _ _ no => no.isSome
  | .loop _ _ _ _ _ => True

namespace Codegen

variable {α β : Type} {registry : Registry} {signature : String → Option Nat}
  {visible : List String} {s s' : State} {P Q : Prop}

/-- In the state these functions are known, and these names are in scope. -/
structure State.Offers (registry : Registry) (signature : String → Option Nat)
    (visible : List String) (s : State) : Prop where
  known (name : String) : known registry s.unit name = signature name
  visible (name : String) : (s.scope.find? name).isSome ↔ name ∈ visible

theorem State.Offers.kept (hreg : registry.Keyed) (h : s.Offers registry signature visible)
    (hk : s.Kept registry s') : s'.Offers registry signature visible where
  known name := (hk.known hreg name).trans (h.known name)
  visible name := by
    rw [hk.scope]
    exact h.visible name

/-- The generator ends without an error. -/
def Gen.Succeeds (g : Gen α) (s : State) : Prop := ∃ a s', g.Yields s a s'

/-- The generator succeeds exactly if `P` holds. -/
structure Gen.Requires (registry : Registry) (signature : String → Option Nat)
    (visible : List String) (g : Gen α) (P : Prop) : Prop where
  keeps : g.Keeps registry
  succeeds_iff {s : State} : s.Offers registry signature visible → (g.Succeeds s ↔ P)

namespace Gen.Requires

theorem congr {g : Gen α} (h : g.Requires registry signature visible P) (hPQ : P ↔ Q) :
    g.Requires registry signature visible Q :=
  ⟨h.keeps, fun hs => (h.succeeds_iff hs).trans hPQ⟩

variable (hreg : registry.Keyed) {g : Gen α} {k : α → Gen β}
include hreg

theorem bind (hg : g.Requires registry signature visible P)
    (hk : ∀ a, (k a).Requires registry signature visible Q) :
    (g >>= k).Requires registry signature visible (P ∧ Q) := by
  refine ⟨hg.keeps.bind fun a => (hk a).keeps, fun {s} hs => ?_⟩
  have hoffers {a : α} {s₁ : State} (h : g.Yields s a s₁) :
      s₁.Offers registry signature visible := by
    have hkept := hg.keeps s
    rw [show exec g s = (.ok a, s₁) from h] at hkept
    exact hs.kept hreg hkept
  simp only [Succeeds, yields_bind]
  constructor
  · rintro ⟨b, s', a, s₁, hga, hkb⟩
    exact ⟨(hg.succeeds_iff hs).1 ⟨a, s₁, hga⟩, ((hk a).succeeds_iff (hoffers hga)).1 ⟨b, s', hkb⟩⟩
  · rintro ⟨hP, hQ⟩
    obtain ⟨a, s₁, hga⟩ := (hg.succeeds_iff hs).2 hP
    obtain ⟨b, s', hkb⟩ := ((hk a).succeeds_iff (hoffers hga)).2 hQ
    exact ⟨b, s', a, s₁, hga, hkb⟩

/-- A generator behind one that always succeeds. -/
theorem after (hg : g.Requires registry signature visible True)
    (hk : ∀ a, (k a).Requires registry signature visible Q) :
    (g >>= k).Requires registry signature visible Q :=
  (bind hreg hg hk).congr (by rw [true_and])

/-- A generator before one that always succeeds. -/
theorem before (hg : g.Requires registry signature visible P)
    (hk : ∀ a, (k a).Requires registry signature visible True) :
    (g >>= k).Requires registry signature visible P :=
  (bind hreg hg hk).congr (by rw [and_true])

end Gen.Requires

/-! ### Steps -/

theorem requires_pure (a : α) : (pure a : Gen α).Requires registry signature visible True :=
  ⟨fun s => .build s s.builder, by simp [Gen.Succeeds]⟩

theorem requires_throw (e : CodegenError) :
    (throw e : Gen α).Requires registry signature visible False :=
  ⟨fun s => .build s s.builder, by simp [Gen.Succeeds]⟩

theorem requires_build (step : Builder → α × Builder) :
    (build step).Requires registry signature visible True :=
  ⟨fun s => .build s _, by simp [Gen.Succeeds]⟩

theorem requires_edit (step : Builder → Builder) :
    (edit step).Requires registry signature visible True :=
  requires_build fun b => ((), step b)

theorem requires_emit (op : Operation) (name : String) :
    (emit op name).Requires registry signature visible True :=
  requires_build (·.addValue op name)

theorem requires_here : here.Requires registry signature visible True :=
  requires_build fun b => (b.current, b)

theorem requires_lookup (name : String) :
    (lookup name).Requires registry signature visible (name ∈ visible) := by
  refine ⟨(keeps_compositional registry).lookup name, fun hs => ?_⟩
  rw [← hs.visible name, Option.isSome_iff_exists]
  simp [Gen.Succeeds]

theorem requires_withBinding {name : String} {slot : SlotId} {body : Gen α}
    (h : body.Requires registry signature (name :: visible) P) :
    (withBinding name slot body).Requires registry signature visible P := by
  refine ⟨keeps_withBinding h.keeps, fun {s} hs => ?_⟩
  have hbind : (s.bind name slot).Offers registry signature (name :: visible) := by
    refine ⟨hs.known, fun x => ?_⟩
    show (Table.find? (s.scope.insert name slot) x).isSome ↔ _
    rw [Table.find?_insert, List.mem_cons, ← hs.visible x]
    by_cases hx : x = name <;> simp [hx]
  rw [← h.succeeds_iff hbind]
  simp [Gen.Succeeds]

theorem requires_checkArity (callee : String) (n : Nat) :
    (checkArity registry callee n).Requires registry signature visible
      (signature callee = some n) := by
  refine ⟨(keeps_compositional registry).checkArity callee n, fun {s} hs => ?_⟩
  rw [← hs.known callee]
  simp only [Gen.Succeeds, Gen.Yields, exec_checkArity]
  cases known registry s.unit callee with
  | none => simp
  | some m => by_cases hm : m = n <;> simp [hm]

theorem mem_instructions_iff {op : Char} :
    op ∈ Expr.instructions ↔ (arithmetic? op).isSome ∨ op = '<' := by
  constructor
  · intro h
    simp only [Expr.instructions, List.mem_cons, List.not_mem_nil, or_false] at h
    rcases h with rfl | rfl | rfl | rfl | rfl <;> decide
  · rintro (h | rfl)
    · unfold arithmetic? at h
      split at h
      iterate 4 decide
      simp at h
    · decide

section

variable (hreg : registry.Keyed)
include hreg

theorem requires_operatorCall (callee : String) (args : List Operand) (name : String) :
    (operatorCall registry callee args name).Requires registry signature visible
      (signature callee = some args.length) :=
  .before hreg (requires_checkArity callee args.length) fun _ => requires_emit _ _

theorem requires_applyBinary (op : Char) (left right : Operand) :
    (applyBinary registry op left right).Requires registry signature visible
      (op ∈ Expr.instructions ∨ signature (Prototype.binaryName op) = some 2) := by
  unfold applyBinary
  split
  · next instr name he =>
    have hop : op ∈ Expr.instructions := mem_instructions_iff.2 (.inl (by simp [he]))
    exact (requires_emit _ _).congr (iff_of_true trivial (.inl hop))
  · next he =>
    split
    · next hlt =>
      have hop : op ∈ Expr.instructions := mem_instructions_iff.2 (.inr hlt)
      exact (Gen.Requires.after hreg (requires_emit _ _) fun _ => requires_emit _ _).congr
        (iff_of_true trivial (.inl hop))
    · next hlt =>
      have hop : op ∉ Expr.instructions := by simp [mem_instructions_iff, he, hlt]
      exact (requires_operatorCall hreg _ _ _).congr (by simp [hop])

/-! ### Expressions -/

/-- The generator of the expression requires all places in it to be proper. -/
def RequiresProper (registry : Registry) (signature : String → Option Nat) (e : Expr) : Prop :=
  ∀ visible, (genExpr registry e).Requires registry signature visible
    (e.Everywhere (Expr.Proper signature) visible)

theorem requiresProper_var (name : String) : RequiresProper registry signature (.var name) := by
  intro visible
  rw [genExpr, Expr.everywhere_var_iff]
  exact .before hreg (requires_lookup name) fun _ => requires_emit _ _

theorem requiresProper_unary {op : Char} {e : Expr} (he : RequiresProper registry signature e) :
    RequiresProper registry signature (.unary op e) := by
  intro visible
  rw [genExpr, Expr.everywhere_unary_iff, and_comm]
  exact .bind hreg (he visible) fun v => requires_operatorCall hreg _ [v] _

theorem requiresProper_assign {name : String} {right : Expr}
    (hr : RequiresProper registry signature right) :
    RequiresProper registry signature (.binary '=' (.var name) right) := by
  intro visible
  rw [genExpr, if_pos rfl]
  have hstore (v : Operand) : (lookup name >>= fun slot => edit (·.addStore slot v) >>= fun _ =>
      pure v).Requires registry signature visible (name ∈ visible) :=
    .before hreg (requires_lookup name) fun _ => .after hreg (requires_edit _) fun _ =>
      requires_pure v
  refine (Gen.Requires.bind hreg (hr visible) hstore).congr ?_
  rw [Expr.everywhere_binary_iff, Expr.everywhere_var_iff]
  simp [Expr.Proper, and_comm]

omit hreg in
theorem requiresProper_invalid {left right : Expr} (hl : ∀ name, left ≠ .var name) :
    RequiresProper registry signature (.binary '=' left right) := by
  intro visible
  refine ⟨(keeps_compositional registry).expr _, fun {s} hs => iff_of_false ?_ ?_⟩
  · rintro ⟨v, s', h⟩
    exact not_yields_assign hl h
  · intro h
    simpa [Expr.Proper, hl] using h _ _ .self

theorem requiresProper_binary {op : Char} {left right : Expr} (hop : op ≠ '=')
    (hl : RequiresProper registry signature left) (hr : RequiresProper registry signature right) :
    RequiresProper registry signature (.binary op left right) := by
  intro visible
  rw [genExpr_binary hop]
  refine (Gen.Requires.bind hreg (hl visible) fun l => .bind hreg (hr visible) fun r =>
    requires_applyBinary hreg op l r).congr ?_
  rw [Expr.everywhere_binary_iff, Expr.Proper, if_neg hop, ← and_assoc, and_comm]

theorem requiresProper_call {callee : String} {args : List Expr}
    (hargs : ∀ visible, (genArgs registry args).Requires registry signature visible
      (∀ e ∈ args, e.Everywhere (Expr.Proper signature) visible)) :
    RequiresProper registry signature (.call callee args) := by
  intro visible
  rw [genExpr, Expr.everywhere_call_iff]
  exact .bind hreg (requires_checkArity callee args.length) fun _ =>
    .before hreg (hargs visible) fun _ => requires_emit _ _

theorem requiresProper_cond {test yes : Expr} {no : Option Expr}
    (ht : RequiresProper registry signature test) (hy : RequiresProper registry signature yes)
    (hn : ∀ visible, (genElse registry no).Requires registry signature visible
      (no.isSome ∧ ∀ e ∈ no, e.Everywhere (Expr.Proper signature) visible)) :
    RequiresProper registry signature (.cond test yes no) := by
  intro visible
  have hplaces : (Expr.cond test yes no).Everywhere (Expr.Proper signature) visible ↔
      test.Everywhere (Expr.Proper signature) visible ∧
      yes.Everywhere (Expr.Proper signature) visible ∧
      no.isSome ∧ ∀ e ∈ no, e.Everywhere (Expr.Proper signature) visible := by
    rw [Expr.everywhere_cond_iff, Expr.Proper]
    tauto
  rw [genExpr, hplaces]
  refine .bind hreg (ht visible) fun v => .after hreg (requires_emit _ _) fun cond => ?_
  refine .after hreg (requires_build _) fun yesBlock => ?_
  refine .after hreg (requires_build _) fun noBlock => ?_
  refine .after hreg (requires_build _) fun joinBlock => ?_
  refine .after hreg (requires_edit _) fun _ => .after hreg (requires_edit _) fun _ => ?_
  refine .bind hreg (hy visible) fun yesValue => .after hreg (requires_edit _) fun _ => ?_
  refine .after hreg requires_here fun yesEnd => .after hreg (requires_edit _) fun _ => ?_
  refine .before hreg (hn visible) fun noValue => .after hreg (requires_edit _) fun _ => ?_
  exact .after hreg requires_here fun noEnd => .after hreg (requires_edit _) fun _ =>
    requires_emit _ _

theorem requiresProper_loop {index : String} {start stop step body : Expr}
    (hstart : RequiresProper registry signature start)
    (hbody : RequiresProper registry signature body)
    (hstep : RequiresProper registry signature step)
    (hstop : RequiresProper registry signature stop) :
    RequiresProper registry signature (.loop index start stop step body) := by
  intro visible
  rw [genExpr, Expr.everywhere_loop_iff, Expr.Proper, true_and]
  refine .after hreg (requires_build _) fun slot => .bind hreg (hstart visible) fun first => ?_
  refine .after hreg (requires_edit _) fun _ => .after hreg (requires_build _) fun loopBlock => ?_
  refine .after hreg (requires_edit _) fun _ => .after hreg (requires_edit _) fun _ => ?_
  refine .before hreg (requires_withBinding ?_) fun _ => requires_pure _
  refine .bind hreg (hbody _) fun _ => .bind hreg (hstep _) fun increment => ?_
  refine .after hreg (requires_emit _ _) fun current => ?_
  refine .after hreg (requires_emit _ _) fun next => ?_
  refine .after hreg (requires_edit _) fun _ => .before hreg (hstop _) fun v => ?_
  refine .after hreg (requires_emit _ _) fun cond => ?_
  refine .after hreg (requires_build _) fun afterBlock => ?_
  exact .after hreg (requires_edit _) fun _ => requires_edit _

/-- `Q` is what the body requires, by the names in scope. -/
theorem requires_vars_cons {name : String} {init : Option Expr}
    {rest : List (String × Option Expr)} {body : Gen Operand} {Q : List String → Prop}
    (hi : ∀ visible, (genInit registry init).Requires registry signature visible
      (∀ e ∈ init, e.Everywhere (Expr.Proper signature) visible))
    (hrest : ∀ visible, (genVars registry rest body).Requires registry signature visible
      (Expr.EverywhereInits (Expr.Proper signature) visible rest ∧
        Q (Expr.declared rest ++ visible))) :
    (genVars registry ((name, init) :: rest) body).Requires registry signature visible
      (Expr.EverywhereInits (Expr.Proper signature) visible ((name, init) :: rest) ∧
        Q (Expr.declared ((name, init) :: rest) ++ visible)) := by
  have hnames : Expr.declared ((name, init) :: rest) ++ visible =
      Expr.declared rest ++ name :: visible := by simp [Expr.declared]
  rw [genVars, Expr.everywhereInits_cons_iff, hnames, and_assoc]
  refine .after hreg (requires_build _) fun slot => .bind hreg (hi visible) fun v => ?_
  exact .after hreg (requires_edit _) fun _ => requires_withBinding (hrest _)

theorem requiresProper (e : Expr) : RequiresProper registry signature e := by
  refine genExpr.induct registry (RequiresProper registry signature)
    (fun no => ∀ visible, (genElse registry no).Requires registry signature visible
      (no.isSome ∧ ∀ e ∈ no, e.Everywhere (Expr.Proper signature) visible))
    (fun args => ∀ visible, (genArgs registry args).Requires registry signature visible
      (∀ e ∈ args, e.Everywhere (Expr.Proper signature) visible))
    (fun vars => ∀ (body : Gen Operand) (Q : List String → Prop),
      (∀ visible, body.Requires registry signature visible (Q visible)) →
      ∀ visible, (genVars registry vars body).Requires registry signature visible
        (Expr.EverywhereInits (Expr.Proper signature) visible vars ∧
          Q (Expr.declared vars ++ visible)))
    (fun init => ∀ visible, (genInit registry init).Requires registry signature visible
      (∀ e ∈ init, e.Everywhere (Expr.Proper signature) visible))
    ?_ (fun _ => requiresProper_var hreg _) (fun _ _ => requiresProper_unary hreg)
    (fun _ _ => requiresProper_assign hreg) (fun _ _ => requiresProper_invalid)
    (fun _ _ _ => requiresProper_binary hreg) ?_ (fun _ _ => requiresProper_call hreg)
    (fun _ _ _ => requiresProper_cond hreg) (fun _ _ _ _ _ => requiresProper_loop hreg) ?_
    (fun _ _ _ hi hrest _ Q hb _ => requires_vars_cons hreg hi (hrest _ Q hb)) ?_ ?_ ?_ ?_ ?_ ?_ e
  · intro v visible
    rw [genExpr, Expr.everywhere_number_iff]
    exact requires_pure _
  · intro vars body hv hb visible
    rw [genExpr_declare, Expr.everywhere_declare_iff, Expr.Proper, true_and]
    exact hv _ _ hb visible
  · intro body Q hb visible
    rw [genVars]
    exact (hb visible).congr (by simp [Expr.everywhereInits_nil, Expr.declared])
  · intro visible
    rw [genArgs]
    exact (requires_pure _).congr (by simp)
  · intro e rest he hrest visible
    rw [genArgs, List.forall_mem_cons]
    exact .bind hreg (he visible) fun v => .before hreg (hrest visible) fun vs => requires_pure _
  · intro e he visible
    rw [genElse]
    exact (he visible).congr (by simp)
  · intro visible
    rw [genElse]
    exact (requires_throw _).congr (by simp)
  · intro e he visible
    rw [genInit]
    exact (he visible).congr (by simp)
  · intro visible
    rw [genInit]
    exact (requires_pure _).congr (by simp)

end

/-! ### Errors -/

/-- Generation does not check the code that it makes. -/
theorem unchecked_compositional (registry : Registry) : Compositional registry fun _ g =>
    ∀ (s : State) v, (exec g s).1 ≠ .error (.verify v) where
  pure _ _ _ := by simp [exec]
  throw e he s v := by
    show Except.error e ≠ _
    simpa using he v
  bind {_ _ g k} hg hk s v := by
    have hs := hg s v
    rw [exec_bind]
    rcases hx : exec g s with ⟨e | a, s₁⟩
    · rw [hx] at hs
      simpa using hs
    · exact hk a s₁ v
  build _ _ _ _ := by simp [exec_build]
  lookup name s v := by
    rw [exec_lookup]
    cases s.scope.find? name <;> simp
  withBinding hbody s v := by
    rw [exec_withBinding]
    exact hbody _ v
  checkArity callee n s v := by
    rw [exec_checkArity]
    cases known registry s.unit callee with
    | none => simp
    | some m => by_cases hm : m = n <;> simp [hm]

/-! ### Functions -/

/-- The numbers of parameters of the functions that a body can call: the function itself, those in
the unit, and those on record. -/
def signatures (registry : Registry) (unit : IR.Module) (proto : Prototype) (name : String) :
    Option Nat :=
  if name = proto.name then some proto.arity else known registry unit name

theorem known_startState {unit : IR.Module} {proto : Prototype}
    (hunit : ∀ f ∈ unit.definitions, f.name ≠ proto.name) (name : String) :
    known registry (startState unit proto).unit name = signatures registry unit proto name := by
  have hdeclared (f : Func) (hf : unit.find? proto.name = some f) : f.isDeclaration = true := by
    by_contra hd
    have hmem : f ∈ unit.definitions :=
      List.mem_filter.2 ⟨IR.Module.mem_of_find? hf, by simpa using hd⟩
    exact hunit f hmem (IR.Module.name_of_find? hf)
  show known registry (unit.redeclare proto.name proto.params) name = _
  unfold known signatures
  rw [IR.Module.arity?_redeclare hdeclared]
  split
  · rfl
  · rfl

/-- Parameters can always be put into slots, and are in scope then. -/
theorem genParams_succeeds (params : List String) (index : Nat) (s : State) :
    ∃ s', (genParams params index).Yields s () s' ∧ s'.unit = s.unit ∧
      ∀ name, (s'.scope.find? name).isSome ↔ name ∈ params ∨ (s.scope.find? name).isSome := by
  induction params generalizing index s with
  | nil => exact ⟨s, rfl, rfl, by simp⟩
  | cons param rest ih =>
    obtain ⟨s', hs', hunit, hscope⟩ := ih (index + 1)
      (((s.update fun b => (b.addSlot param).2).emit
        (.store s.builder.func.slots.size (.arg index)) "").bind param s.builder.func.slots.size)
    refine ⟨s', ?_, hunit, fun name => (hscope name).trans ?_⟩
    · exact hs'
    · show _ ∨ (Table.find? (s.scope.insert param _) name).isSome ↔ _
      rw [Table.find?_insert]
      by_cases hname : name = param <;> simp [hname]

theorem exec_genBody {proto : Prototype} (h : (genParams proto.params 0).Yields s () s')
    (body : Expr) : exec (genBody registry proto body) s =
      exec (genExpr registry body >>= fun v => terminate (.ret v)) s' := by
  rw [genBody, exec_bind, show exec (genParams proto.params 0) s = (.ok (), s') from h]

theorem genBody_requires (hreg : registry.Keyed) {unit : IR.Module} {proto : Prototype}
    (hunit : ∀ f ∈ unit.definitions, f.name ≠ proto.name) (body : Expr) :
    ((genBody registry proto body).Succeeds (startState unit proto) ↔
      body.Everywhere (Expr.Proper (signatures registry unit proto)) proto.params) ∧
    (exec (genBody registry proto body) (startState unit proto)).2.unit.definitions =
      unit.definitions := by
  obtain ⟨s, hs, hsame, hscope⟩ := genParams_succeeds proto.params 0 (startState unit proto)
  have hoffers : s.Offers registry (signatures registry unit proto) proto.params := by
    refine ⟨fun name => ?_, fun name => (hscope name).trans ?_⟩
    · rw [hsame]
      exact known_startState hunit name
    · have hempty : (startState unit proto).scope.find? name = none := rfl
      simp [hempty]
  have hbody : (genExpr registry body >>= fun v => terminate (.ret v)).Requires registry
      (signatures registry unit proto) proto.params
      (body.Everywhere (Expr.Proper (signatures registry unit proto)) proto.params) :=
    .before hreg (requiresProper hreg body proto.params) fun _ => requires_edit _
  constructor
  · rw [← hbody.succeeds_iff hoffers]
    simp only [Gen.Succeeds, Gen.Yields, exec_genBody hs]
  · rw [exec_genBody hs, (hbody.keeps s).definitions hreg, hsame]
    exact IR.Module.definitions_redeclare hunit proto.params

theorem genBody_unchecked (registry : Registry) (proto : Prototype) (body : Expr) (s : State)
    (v : IR.VerifyError) : (exec (genBody registry proto body) s).1 ≠ .error (.verify v) := by
  obtain ⟨s₁, hs, -⟩ := genParams_succeeds proto.params 0 s
  have hc := unchecked_compositional registry
  rw [exec_genBody hs]
  exact hc.bind (hc.expr body) (fun _ => hc.terminate _) s₁ v

/-- A function can be generated exactly if all places in its body are proper. The check of the code
never fails, and if there is an error, the unit has the definitions that it had. -/
theorem function_ok_iff_proper (hreg : registry.Keyed) (passes : IR.Pipeline) {unit : IR.Module}
    {proto : Prototype} (hunit : ∀ f ∈ unit.definitions, f.name ≠ proto.name) (body : Expr) :
    ((∃ f, (function registry passes unit proto body).1 = .ok f) ↔
      body.Everywhere (Expr.Proper (signatures registry unit proto)) proto.params) ∧
    ∀ e, (function registry passes unit proto body).1 = .error e →
      (∀ v, e ≠ .verify v) ∧
        (function registry passes unit proto body).2.definitions = unit.definitions := by
  obtain ⟨hiff, hdefinitions⟩ := genBody_requires hreg hunit body
  rw [← hiff, function_eq_exec]
  have hunchecked := genBody_unchecked registry proto body (startState unit proto)
  rcases hs : exec (genBody registry proto body) (startState unit proto) with ⟨e | _, s⟩
  · rw [hs] at hdefinitions hunchecked
    simp only [Gen.Succeeds, Gen.Yields, hs]
    refine ⟨by simp, ?_⟩
    rintro e' ⟨⟩
    exact ⟨fun v hv => hunchecked v (by rw [hv]), hdefinitions⟩
  · have hverify := (wellFormed_genBody hreg hs).1.verified
    simp only [Gen.Succeeds, Gen.Yields, hs, hverify]
    simp

/-- A body with a loop that starts at a variable, which may be its own index. -/
def looping (start : String) : Expr :=
  .declare [("a", some (.var "n")), ("a", some (.unary '!' (.var "a")))]
    (.loop "i" (.var start) (.binary '<' (.var "i") (.call "limit" [.var "i", .var "a"]))
      (.number 1.0) (.cond (.call "odd" [.var "i"])
        (.binary '=' (.var "a") (.call "visit" [.var "n"])) (some (.number 0.0))))

/-- Functions of earlier units, one of them for an operator. -/
def recorded : Registry :=
  (Registry.record {} ⟨"limit", ["x", "y"], .plain⟩).record ⟨"unary!", ["x"], .unary⟩

/-- A unit with the definition of another function. -/
def odds : IR.Module :=
  (function {} .standard ⟨"unit", []⟩ ⟨"odd", ["x"], .plain⟩ (.var "x")).2

theorem function_ok_iff_proper_looping :
    odds.definitions.map (·.name) = ["odd"] ∧
      (∃ f, (function recorded .standard odds ⟨"visit", ["n"], .plain⟩ (looping "a")).1 = .ok f) ∧
      (function recorded .standard odds ⟨"visit", ["n"], .plain⟩ (looping "i")).2.definitions =
        odds.definitions := by
  have hreg : recorded.Keyed := Registry.Keyed.record (Registry.keyed_empty.record _) _
  have hodds : odds.definitions.map (·.name) = ["odd"] := by decide +kernel
  have hunit : ∀ f ∈ odds.definitions, f.name ≠ "visit" := by
    intro f hf
    have hname : f.name ∈ ["odd"] := hodds ▸ List.mem_map_of_mem hf
    simp [List.mem_singleton.1 hname]
  have hsignatures : ["limit", "unary!", "odd", "visit"].map
      (signatures recorded odds ⟨"visit", ["n"], .plain⟩) = [some 2, some 1, some 1, some 1] := by
    decide +kernel
  refine ⟨hodds, ?_, ?_⟩
  · apply (function_ok_iff_proper hreg .standard hunit (looping "a")).1.2
    simp only [List.map_cons, List.map_nil, List.cons.injEq, and_true] at hsignatures
    simp [looping, Expr.everywhere_declare_iff, Expr.everywhereInits_cons_iff,
      Expr.everywhereInits_nil, Expr.everywhere_loop_iff, Expr.everywhere_cond_iff,
      Expr.everywhere_binary_iff, Expr.everywhere_unary_iff, Expr.everywhere_call_iff,
      Expr.everywhere_var_iff, Expr.everywhere_number_iff, Expr.Proper, Expr.declared,
      Expr.instructions, Prototype.unaryName, hsignatures]
  · have hfails : (function recorded .standard odds ⟨"visit", ["n"], .plain⟩ (looping "i")).1 =
        .error (.unknownVariable "i") := by decide +kernel
    exact ((function_ok_iff_proper hreg .standard hunit (looping "i")).2 _ hfails).2

end Codegen

end ScalarLang
