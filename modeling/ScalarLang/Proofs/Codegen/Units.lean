import ScalarLang.Proofs.Codegen.Composition
import ScalarLang.Proofs.Codegen.WellFormed

/-! The unit that a function is generated into. Generation reads a unit only for the numbers of
parameters of what it declares, so units that declare alike lead to the same function or to the same
error. The unit then holds this function and declarations, and nothing else. -/

namespace ScalarLang

open IR (Builder BlockId Func Operand Operation SlotId Terminator)

namespace IR.Module

variable {m : Module} {f : Func}

/-- The module has no code, and no name twice. -/
structure Declares (m : Module) : Prop where
  declaration {f : Func} : f ∈ m.functions → f.isDeclaration = true
  nodup : (m.functions.map (·.name)).Nodup

theorem declares_empty (name : String) : Declares { name } := ⟨nofun, .nil⟩

theorem name_of_find? {name : String} (h : m.find? name = some f) : f.name = name := by
  simpa using List.find?_some h

theorem mem_of_find? {name : String} (h : m.find? name = some f) : f ∈ m.functions :=
  List.mem_of_find?_eq_some h

theorem isSome_find? {name : String} :
    (m.find? name).isSome ↔ name ∈ m.functions.map (·.name) := by
  simp [find?, List.find?_isSome]

theorem Declares.find?_of_mem (h : m.Declares) (hf : f ∈ m.functions) :
    m.find? f.name = some f := by
  obtain ⟨g, hg⟩ := Option.isSome_iff_exists.1 (isSome_find?.2 (List.mem_map_of_mem hf))
  rw [hg, List.inj_on_of_nodup_map h.nodup (mem_of_find? hg) hf (name_of_find? hg)]

/-- Replacing a function by one of its name keeps all names. -/
theorem map_name_replace (f : Func) (gs : List Func) :
    (gs.map fun g => if g.name == f.name then f else g).map (·.name) = gs.map (·.name) := by
  rw [List.map_map]
  refine List.map_congr_left fun g _ => ?_
  by_cases hg : g.name = f.name <;> simp [hg]

theorem find?_define (m : Module) (f : Func) (name : String) :
    (m.define f).find? name = if name = f.name then some f else m.find? name := by
  unfold define
  split
  · next hsome =>
    obtain ⟨g, hg⟩ := Option.isSome_iff_exists.1 hsome
    have hname : (fun g : Func => g.name == name) ∘ (fun g => if g.name == f.name then f else g) =
        fun g => g.name == name := by
      funext g
      by_cases hg : g.name = f.name <;> simp [hg]
    rw [find?, List.find?_map, hname]
    change (m.find? name).map _ = _
    split
    · next he =>
      rw [he, hg]
      simp [name_of_find? hg]
    · next he =>
      cases hx : m.find? name with
      | none => rfl
      | some x => simp [name_of_find? hx, he]
  · next hnone =>
    rw [Bool.not_eq_true, Option.isSome_eq_false_iff, Option.isNone_iff_eq_none] at hnone
    rw [find?, List.find?_append]
    split
    · next he =>
      rw [he, show m.functions.find? _ = none from hnone]
      simp
    · next he => simp [find?, Ne.symm he]

theorem Declares.define_declaration (h : m.Declares) (name : String) (params : List String) :
    (m.define (.declaration name params)).Declares := by
  unfold define
  split
  · constructor
    · intro f hf
      obtain ⟨g, hg, rfl⟩ := List.mem_map.1 hf
      split
      · rfl
      · exact h.declaration hg
    · rw [map_name_replace]
      exact h.nodup
  · next hnone =>
    constructor
    · intro f hf
      rcases List.mem_append.1 hf with hf | hf
      · exact h.declaration hf
      · rw [List.mem_singleton.1 hf]
        rfl
    · rw [isSome_find?] at hnone
      rw [List.map_append, List.map_singleton, List.nodup_append]
      refine ⟨h.nodup, List.nodup_singleton _, ?_⟩
      rintro x hx _ hy rfl
      exact hnone (List.mem_singleton.1 hy ▸ hx)

theorem redeclare_eq (m : Module) (name : String) (params : List String) :
    m.redeclare name params = m ∨
      m.redeclare name params = m.define (.declaration name params) := by
  unfold redeclare
  split
  · split
    · exact .inr rfl
    · exact .inl rfl
  · next hnone => exact .inr (by simp [declare, define, hnone, Func.declaration])

theorem Declares.redeclare (h : m.Declares) (name : String) (params : List String) :
    (m.redeclare name params).Declares := by
  rcases m.redeclare_eq name params with he | he <;> rw [he]
  · exact h
  · exact h.define_declaration name params

/-- The number of parameters of a function in the module. -/
def arity? (m : Module) (name : String) : Option Nat := (m.find? name).map (·.arity)

/-- A function that is declared is known by its new parameters, unless it has code. -/
theorem arity?_redeclare {name : String} (h : ∀ f, m.find? name = some f → f.isDeclaration = true)
    (params : List String) (x : String) :
    (m.redeclare name params).arity? x = if x = name then some params.length else m.arity? x := by
  have hdefine : (m.define (.declaration name params)).arity? x =
      if x = name then some params.length else m.arity? x := by
    rw [arity?, find?_define]
    change Option.map _ (if x = name then _ else _) = _
    split <;> rfl
  unfold IR.Module.redeclare
  split
  · next f hf =>
    split
    · exact hdefine
    · next hn =>
      split
      · next hx =>
        rw [hx, arity?, hf, Option.map_some, not_not.1 fun hne => hn ⟨h f hf, hne⟩]
      · rfl
  · next hnone =>
    rw [← hdefine]
    simp [declare, define, hnone, Func.declaration]

theorem Declares.arity?_redeclare (h : m.Declares) (name : String) (params : List String)
    (x : String) :
    (m.redeclare name params).arity? x = if x = name then some params.length else m.arity? x :=
  Module.arity?_redeclare (fun _ hf => h.declaration (mem_of_find? hf)) params x

theorem filter_replace (hf : f.isDeclaration = false) {gs : List Func}
    (hgs : ∀ g ∈ gs, g.isDeclaration = true) (hnodup : (gs.map (·.name)).Nodup) :
    (gs.map fun g => if g.name == f.name then f else g).filter (!·.isDeclaration) =
      if f.name ∈ gs.map (·.name) then [f] else [] := by
  induction gs with
  | nil => rfl
  | cons g gs ih =>
    rw [List.map_cons, List.nodup_cons] at hnodup
    have ih := ih (fun g hg => hgs g (List.mem_cons_of_mem _ hg)) hnodup.2
    have hg := hgs g List.mem_cons_self
    by_cases he : g.name = f.name
    · rw [he] at hnodup
      rw [if_neg hnodup.1] at ih
      rw [List.map_cons, List.filter_cons, ih]
      simp [he, hf]
    · rw [List.map_cons, List.filter_cons, ih]
      simp [he, hg, Ne.symm he]

/-- A function that is added to declarations is the only one with code. -/
theorem Declares.definitions_define (h : m.Declares) (hf : f.isDeclaration = false) :
    (m.define f).definitions = [f] := by
  unfold define
  split
  · next hsome =>
    rw [definitions, filter_replace hf (fun g => h.declaration) h.nodup,
      if_pos (isSome_find?.1 hsome)]
  · have hnone : m.functions.filter (!·.isDeclaration) = [] :=
      List.filter_eq_nil_iff.2 fun g hg => by simp [h.declaration hg]
    rw [definitions, List.filter_append, hnone]
    simp [hf]

end IR.Module

namespace Codegen

variable {α β : Type} {registry : Registry} {header : String × List String} {s s' : State}

/-! ### What generation reads of a unit -/

/-- The number of arguments that a call must pass. -/
def known (registry : Registry) (unit : IR.Module) (name : String) : Option Nat :=
  (unit.arity? name).or ((registry.find? name).map (·.arity))

/-- The unit after a function was looked up. -/
def consulted (registry : Registry) (unit : IR.Module) (name : String) : IR.Module :=
  match unit.find? name, registry.find? name with
  | none, some proto => unit.redeclare proto.name proto.params
  | _, _ => unit

theorem exec_get_bind (k : State → Gen α) (s : State) : exec (get >>= k) s = exec (k s) s := rfl

theorem exec_build (step : Builder → α × Builder) (s : State) : exec (build step) s =
    (.ok (step s.builder).1, { s with builder := (step s.builder).2 }) := rfl

theorem exec_lookup (name : String) (s : State) : exec (lookup name) s =
    (match s.scope.find? name with
      | some slot => .ok slot
      | none => .error (.unknownVariable name), s) := by
  rw [lookup, exec_get_bind]
  cases s.scope.find? name <;> rfl

theorem exec_checkArity (callee : String) (n : Nat) (s : State) :
    exec (checkArity registry callee n) s =
      (match known registry s.unit callee with
        | none => .error (.unknownFunction callee)
        | some k => if k ≠ n then .error (.arityMismatch callee k n) else .ok (),
      { s with unit := consulted registry s.unit callee }) := by
  have harity : exec (arity? registry callee) s = (.ok (known registry s.unit callee),
      { s with unit := consulted registry s.unit callee }) := by
    rw [arity?, exec_get_bind]
    unfold known consulted IR.Module.arity?
    cases hf : s.unit.find? callee with
    | some f => rfl
    | none =>
      cases hp : registry.find? callee with
      | none => rfl
      | some proto => rfl
  rw [checkArity, exec_bind, harity]
  cases known registry s.unit callee with
  | none => rfl
  | some k =>
    by_cases hk : k = n <;> simp only [hk, ne_eq, not_true_eq_false, not_false_eq_true, if_true,
      if_false] <;> rfl

theorem declares_consulted {unit : IR.Module} (h : unit.Declares) (name : String) :
    (consulted registry unit name).Declares := by
  unfold consulted
  split
  · exact h.redeclare _ _
  · exact h

/-- Looking a function up does not change what is known. -/
theorem known_consulted (hreg : registry.Keyed) (unit : IR.Module) (callee name : String) :
    known registry (consulted registry unit callee) name = known registry unit name := by
  unfold consulted
  split
  · next proto hf hp =>
    unfold known
    rw [hreg hp, IR.Module.arity?_redeclare (by simp [hf])]
    split
    · next hx => simp [hx, hp, IR.Module.arity?, hf, Prototype.arity]
    · rfl
  · rfl

/-! ### Generators -/

/-- States that generation cannot tell apart, for a function with this header. -/
structure State.Agrees (registry : Registry) (header : String × List String) (s s' : State) :
    Prop where
  builder : s'.builder = s.builder
  scope : s'.scope = s.scope
  header : s.builder.func.header = header
  declares : s.unit.Declares
  declares' : s'.unit.Declares
  known (name : String) : known registry s'.unit name = known registry s.unit name

/-- The generator does the same in states that cannot be told apart. -/
def Gen.Respects (registry : Registry) (header : String × List String) (g : Gen α) : Prop :=
  ∀ ⦃s s'⦄, s.Agrees registry header s' →
    (exec g s').1 = (exec g s).1 ∧ (exec g s).2.Agrees registry header (exec g s').2

theorem Gen.Respects.bind {g : Gen α} {k : α → Gen β} (hg : g.Respects registry header)
    (hk : ∀ a, (k a).Respects registry header) : (g >>= k).Respects registry header := by
  intro s s' h
  obtain ⟨hresult, hstate⟩ := hg h
  rw [exec_bind, exec_bind]
  rcases hx : exec g s with ⟨x, t⟩
  rcases hx' : exec g s' with ⟨x', t'⟩
  rw [hx, hx'] at hresult hstate
  subst hresult
  cases x' with
  | error e => exact ⟨rfl, hstate⟩
  | ok a => exact hk a hstate

theorem respects_build (step : Builder → α × Builder)
    (hstep : ∀ b, (step b).2.func.header = b.func.header) :
    (build step).Respects registry header := by
  intro s s' h
  rw [exec_build, exec_build, h.builder]
  exact ⟨rfl, { h with builder := rfl, header := (hstep _).trans h.header }⟩

theorem respects_withBinding {name : String} {slot : SlotId} {body : Gen α}
    (hbody : body.Respects registry header) :
    (withBinding name slot body).Respects registry header := by
  intro s s' h
  have hbind : (s.bind name slot).Agrees registry header (s'.bind name slot) :=
    { h with scope := congrArg (Table.insert · name slot) h.scope }
  obtain ⟨hresult, hstate⟩ := hbody hbind
  rw [exec_withBinding, exec_withBinding]
  refine ⟨hresult, { hstate with scope := ?_ }⟩
  change Table.restore _ name (s'.scope.find? name) = Table.restore _ name (s.scope.find? name)
  rw [hstate.scope, h.scope]

theorem respects_checkArity (hreg : registry.Keyed) (callee : String) (n : Nat) :
    (checkArity registry callee n).Respects registry header := by
  intro s s' h
  rw [exec_checkArity, exec_checkArity, h.known]
  refine ⟨rfl, { h with declares := ?_, declares' := ?_, known := fun name => ?_ }⟩
  · exact declares_consulted h.declares callee
  · exact declares_consulted h.declares' callee
  · change known registry (consulted registry s'.unit callee) name =
      known registry (consulted registry s.unit callee) name
    rw [known_consulted hreg, known_consulted hreg, h.known]

theorem respects_compositional (hreg : registry.Keyed) :
    Compositional registry fun _ g => g.Respects registry header where
  pure _ _ _ h := ⟨rfl, h⟩
  throw _ _ _ _ h := ⟨rfl, h⟩
  bind := .bind
  build := respects_build
  lookup name s s' h := by
    rw [exec_lookup, exec_lookup, h.scope]
    exact ⟨rfl, h⟩
  withBinding := respects_withBinding
  checkArity := respects_checkArity hreg

/-! ### Functions -/

theorem genParams_respects (hreg : registry.Keyed) (params : List String) (index : Nat) :
    (genParams params index).Respects registry header := by
  have hc : Compositional registry fun _ g => g.Respects registry header :=
    respects_compositional hreg
  induction params generalizing index with
  | nil => exact hc.pure ()
  | cons param rest ih =>
    rw [genParams]
    refine hc.bind (hc.build _ fun _ => rfl) fun slot => hc.bind (hc.store slot _) fun _ => ?_
    refine Gen.Respects.bind ?_ fun _ => ih (index + 1)
    intro s s' h
    exact ⟨rfl, { h with scope := congrArg (Table.insert · param slot) h.scope }⟩

/-- Generating a function does the same in states that cannot be told apart. -/
theorem genBody_respects (hreg : registry.Keyed) (proto : Prototype) (body : Expr) :
    (genBody registry proto body).Respects registry header :=
  (genParams_respects hreg proto.params 0).bind fun _ =>
    ((respects_compositional hreg).expr body).bind fun _ =>
      (respects_compositional hreg).terminate _

/-- The function for a body, before it is optimised. -/
def generated (registry : Registry) (unit : IR.Module) (proto : Prototype) (body : Expr) :
    Except CodegenError Func :=
  match exec (genBody registry proto body) (startState unit proto) with
  | (.error e, _) => .error e
  | (.ok _, s) =>
    match s.builder.func.verify with
    | .error e => .error (.verify e)
    | .ok _ => .ok s.builder.func

/-- Units that declare alike cannot be told apart. -/
theorem agrees_startState {unit unit' : IR.Module} (h : unit.Declares) (h' : unit'.Declares)
    (hknown : ∀ name, known registry unit' name = known registry unit name) (proto : Prototype) :
    (startState unit proto).Agrees registry (proto.name, proto.params) (startState unit' proto) where
  builder := rfl
  scope := rfl
  header := rfl
  declares := h.redeclare _ _
  declares' := h'.redeclare _ _
  known name := by
    change known registry (unit'.redeclare _ _) name = known registry (unit.redeclare _ _) name
    have hname := hknown name
    unfold known at hname ⊢
    rw [h.arity?_redeclare, h'.arity?_redeclare]
    split
    · rfl
    · exact hname

theorem generated_congr (hreg : registry.Keyed) {unit unit' : IR.Module} (h : unit.Declares)
    (h' : unit'.Declares) (hknown : ∀ name, known registry unit' name = known registry unit name)
    (proto : Prototype) (body : Expr) :
    generated registry unit' proto body = generated registry unit proto body := by
  obtain ⟨hresult, hstate⟩ := genBody_respects hreg proto body (agrees_startState h h' hknown proto)
  unfold generated
  rcases hx : exec (genBody registry proto body) (startState unit proto) with ⟨x, s⟩
  rcases hx' : exec (genBody registry proto body) (startState unit' proto) with ⟨x', s'⟩
  rw [hx, hx'] at hresult hstate
  obtain rfl : x' = x := hresult
  have hbuilder : s'.builder = s.builder := hstate.builder
  cases x' with
  | error e => rfl
  | ok _ => simp only [hbuilder]

theorem layout_genBody (hreg : registry.Keyed) {unit : IR.Module} {proto : Prototype}
    {body : Expr} (h : (genBody registry proto body).Yields (startState unit proto) () s) :
    s.builder.func.layout ≠ [] := by
  obtain ⟨s₁, v, s₂, hp, hb, rfl⟩ := yields_body h
  have hparams := continues_params hp (sound_startState unit proto)
    (by rw [Nat.zero_add]; exact Nat.le_refl _)
  obtain ⟨A, hbody⟩ := genExpr_certifies hreg body hb hparams.sound
  exact List.ne_nil_of_mem hbody.sound.current_mem

/-- The function can be called as its prototype says. -/
structure Compiled (proto : Prototype) (f : Func) : Prop extends f.Callable where
  header : f.header = (proto.name, proto.params)

theorem Compiled.name {proto : Prototype} {f : Func} (h : Compiled proto f) : f.name = proto.name :=
  Func.name_of_header h.header

theorem Compiled.arity {proto : Prototype} {f : Func} (h : Compiled proto f) :
    f.arity = proto.arity := Func.arity_of_header h.header

theorem Compiled.run {proto : Prototype} {f : Func} (h : Compiled proto f) (passes : IR.Pipeline) :
    Compiled proto (passes.run f).1 :=
  ⟨h.toCallable.run passes, (passes.header_run f).trans h.header⟩

theorem generated_eq_ok (hreg : registry.Keyed) {unit : IR.Module} (hunit : unit.Declares)
    {proto : Prototype} {body : Expr} {f : Func} (h : generated registry unit proto body = .ok f) :
    Compiled proto f := by
  have hagrees := agrees_startState hunit hunit (fun _ => rfl : ∀ name, known registry unit name = _)
    proto
  have hheader := (genBody_respects hreg proto body hagrees).2.header
  unfold generated at h
  split at h
  · cases h
  · next s hs =>
    split at h
    · cases h
    · cases h
      rw [hs] at hheader
      obtain ⟨hwf, huniform⟩ := wellFormed_genBody hreg hs
      exact ⟨⟨hwf, huniform, layout_genBody hreg hs⟩, hheader⟩

/-- The function is optimised and added to what the unit declares by then. -/
theorem function_eq (passes : IR.Pipeline) (unit : IR.Module) (proto : Prototype) (body : Expr) :
    function registry passes unit proto body =
      match generated registry unit proto body,
        (exec (genBody registry proto body) (startState unit proto)).2.unit with
      | .error e, unit => (.error e, unit)
      | .ok f, unit => (.ok (passes.run f).1, unit.define (passes.run f).1) := by
  rw [function_eq_exec]
  unfold generated
  rcases exec (genBody registry proto body) (startState unit proto) with ⟨e | _, s⟩
  · rfl
  · cases hv : s.builder.func.verify <;> simp only [hv]

/-- A unit of declarations gets one function with code. -/
theorem function_of_ok (hreg : registry.Keyed) (passes : IR.Pipeline) {unit : IR.Module}
    (hunit : unit.Declares) {proto : Prototype} {body : Expr} {f : Func}
    (h : generated registry unit proto body = .ok f) :
    ∃ unit', function registry passes unit proto body = (.ok (passes.run f).1, unit') ∧
      unit'.definitions = [(passes.run f).1] := by
  have hagrees := agrees_startState hunit hunit (fun _ => rfl : ∀ name, known registry unit name = _)
    proto
  have hdeclares := (genBody_respects hreg proto body hagrees).2.declares
  have hcallable := (generated_eq_ok hreg hunit h).toCallable.run passes
  exact ⟨_, by rw [function_eq, h], hdeclares.definitions_define hcallable.isDeclaration⟩

end Codegen

end ScalarLang
