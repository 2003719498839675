import ScalarLang.Proofs.Codegen.Units

/-! What generating an expression leaves as it was. However it ends, the names in scope stand for
the slots that they stood for before, the unit has the definitions that it had, and as much is known
of all functions. Scopes are one flat table, so each binding has to be undone in its turn. -/

namespace ScalarLang

open IR (Func SlotId)

/-! ### Bindings -/

namespace Scope

/-- Binds names one after the other. -/
def bindAll (s : Scope) : List (String × SlotId) → List Shadowed × Scope
  | [] => ([], s)
  | (name, slot) :: rest =>
    let (shadowed, s) := s.bind name slot
    let (more, s) := bindAll s rest
    (shadowed :: more, s)

/-- Closing bindings undoes them, whatever names are bound and how often. -/
theorem closeAll_bindAll (s : Scope) (bindings : List (String × SlotId)) :
    (s.bindAll bindings).2.closeAll (s.bindAll bindings).1 = s := by
  induction bindings generalizing s with
  | nil => rfl
  | cons binding rest ih =>
    obtain ⟨name, slot⟩ := binding
    rw [bindAll, closeAll_cons]
    show Table.restore (closeAll _ _) name (s.find? name) = s
    rw [ih]
    exact Table.restore_insert s name slot

end Scope

/-! ### Definitions -/

namespace IR.Module

variable {m : Module}

/-- A declaration takes the place of declarations only. -/
theorem definitions_define {f : Func} (hf : f.isDeclaration = true)
    (h : ∀ g ∈ m.definitions, g.name ≠ f.name) : (m.define f).definitions = m.definitions := by
  unfold define
  split
  · have hreplace (gs : List Func) (hgs : ∀ g ∈ gs, g.isDeclaration = false → g.name ≠ f.name) :
        (gs.map fun g => if g.name == f.name then f else g).filter (!·.isDeclaration) =
          gs.filter (!·.isDeclaration) := by
      induction gs with
      | nil => rfl
      | cons g gs ih =>
        obtain ⟨hg, hgs⟩ := List.forall_mem_cons.1 hgs
        rw [List.map_cons, List.filter_cons, List.filter_cons, ih hgs]
        by_cases hd : g.isDeclaration
        · by_cases hname : g.name = f.name <;> simp [hd, hname, hf]
        · simp [hd, hg (by simpa using hd)]
    apply hreplace
    intro g hg hd
    exact h g (List.mem_filter.2 ⟨hg, by simpa using hd⟩)
  · simp [definitions, hf]

theorem definitions_redeclare {name : String} (h : ∀ f ∈ m.definitions, f.name ≠ name)
    (params : List String) : (m.redeclare name params).definitions = m.definitions := by
  rcases m.redeclare_eq name params with he | he <;> rw [he]
  exact definitions_define rfl h

end IR.Module

namespace Codegen

variable {α β : Type} {registry : Registry} {s s₁ s₂ : State}

theorem definitions_consulted (hreg : registry.Keyed) (unit : IR.Module) (callee : String) :
    (consulted registry unit callee).definitions = unit.definitions := by
  unfold consulted
  split
  · next proto hf hp =>
    apply IR.Module.definitions_redeclare
    intro f hmem hname
    have hf := List.find?_eq_none.1 hf f (List.mem_of_mem_filter hmem)
    rw [hname, hreg hp] at hf
    simp at hf
  · rfl

/-! ### Generators -/

/-- What generation keeps of a state. The unit is read by the names under which functions are
recorded, which must be their own. -/
structure State.Kept (registry : Registry) (s s' : State) : Prop where
  scope : s'.scope = s.scope
  definitions (hreg : registry.Keyed) : s'.unit.definitions = s.unit.definitions
  known (hreg : registry.Keyed) (name : String) :
    known registry s'.unit name = known registry s.unit name

theorem State.Kept.build (s : State) (builder : IR.Builder) :
    s.Kept registry { s with builder } where
  scope := rfl
  definitions _ := rfl
  known _ _ := rfl

theorem State.Kept.trans (h₁ : s.Kept registry s₁) (h₂ : s₁.Kept registry s₂) :
    s.Kept registry s₂ where
  scope := h₂.scope.trans h₁.scope
  definitions hreg := (h₂.definitions hreg).trans (h₁.definitions hreg)
  known hreg name := (h₂.known hreg name).trans (h₁.known hreg name)

/-- The generator keeps these, also if it ends with an error. -/
def Gen.Keeps (registry : Registry) (g : Gen α) : Prop :=
  ∀ s : State, s.Kept registry (exec g s).2

theorem Gen.Keeps.bind {g : Gen α} {k : α → Gen β} (hg : g.Keeps registry)
    (hk : ∀ a, (k a).Keeps registry) : (g >>= k).Keeps registry := by
  intro s
  have hs := hg s
  rw [exec_bind]
  rcases hx : exec g s with ⟨e | a, s₁⟩
  all_goals rw [hx] at hs
  · exact hs
  · exact hs.trans (hk a s₁)

/-- A binding is closed, also if its body ends with an error. -/
theorem keeps_withBinding {name : String} {slot : SlotId} {body : Gen α}
    (hbody : body.Keeps registry) : (withBinding name slot body).Keeps registry := by
  intro s
  have hs := hbody (s.bind name slot)
  rw [exec_withBinding]
  refine ⟨?_, hs.definitions, hs.known⟩
  show Table.restore _ name (s.scope.find? name) = s.scope
  rw [hs.scope]
  exact Table.restore_insert s.scope name slot

theorem keeps_compositional (registry : Registry) :
    Compositional registry fun _ g => g.Keeps registry where
  pure _ s := .build s s.builder
  throw _ _ s := .build s s.builder
  bind := .bind
  build _ _ s := .build s _
  lookup name s := by
    rw [exec_lookup]
    exact .build s s.builder
  withBinding := keeps_withBinding
  checkArity callee n s := by
    rw [exec_checkArity]
    exact ⟨rfl, fun hreg => definitions_consulted hreg s.unit callee,
      fun hreg => known_consulted hreg s.unit callee⟩

theorem keeps_initVar (registry : Registry) (name : String) (init : Option Expr) :
    (initVar registry name init).Keeps registry := by
  have h := keeps_compositional registry
  have hinit : (genInit registry init).Keeps registry := by
    cases init with
    | none => exact h.pure _
    | some e => exact h.expr e
  refine h.bind (h.build _ fun _ => rfl) fun slot => h.bind hinit fun v => ?_
  exact h.bind (h.store slot v) fun _ => h.pure slot

/-- The variables of a declaration are bound one after the other, and what they shadow is noted. Only
after an error some are left unbound. -/
theorem exists_bindAll (registry : Registry) (vars : List (String × Option Expr)) (s : State) :
    ∃ bindings unbound, s.scope.bindAll bindings =
        (((bindVars registry vars).run s).1.1, ((bindVars registry vars).run s).2.scope) ∧
      vars.map (·.1) = bindings.map (·.1) ++ unbound ∧
      (unbound = [] ∨ ∃ e, ((bindVars registry vars).run s).1.2 = .error e) := by
  induction vars generalizing s with
  | nil =>
    rw [bindVars]
    exact ⟨[], [], rfl, rfl, .inl rfl⟩
  | cons var rest ih =>
    obtain ⟨name, init⟩ := var
    have hscope := (keeps_initVar registry name init s).scope
    rw [run_bindVars_cons]
    rcases hx : exec (initVar registry name init) s with ⟨e | slot, s₁⟩
    all_goals rw [hx] at hscope
    · exact ⟨[], _, congrArg ([], ·) hscope.symm, rfl, .inr ⟨e, rfl⟩⟩
    · obtain ⟨bindings, unbound, hbind, hnames, hunbound⟩ := ih (s₁.bind name slot)
      refine ⟨(name, slot) :: bindings, unbound, ?_, congrArg (name :: ·) hnames, hunbound⟩
      rw [← hscope]
      exact congrArg (fun x => (⟨name, s₁.scope.find? name⟩ :: x.1, x.2)) hbind

/-- After an expression is generated, or is given up at an error anywhere in it, every name stands
for the slot that it stood for before. So it does when bindings are closed that were made one after
the other, also of one name several times; and this is how the variables of a declaration are
bound. -/
theorem scope_genExpr (registry : Registry) (e : Expr) (s : State) :
    (∀ name, (exec (genExpr registry e) s).2.scope.find? name = s.scope.find? name) ∧
    (∀ bindings name, Table.find? ((s.scope.bindAll bindings).2.closeAll
      (s.scope.bindAll bindings).1) name = s.scope.find? name) ∧
    ∀ vars, ∃ bindings unbound, s.scope.bindAll bindings =
        (((bindVars registry vars).run s).1.1, ((bindVars registry vars).run s).2.scope) ∧
      vars.map (·.1) = bindings.map (·.1) ++ unbound ∧
      (unbound = [] ∨ ∃ e, ((bindVars registry vars).run s).1.2 = .error e) := by
  refine ⟨fun name => ?_, fun bindings name => ?_, fun vars => exists_bindAll registry vars s⟩
  · rw [((keeps_compositional registry).expr e s).scope]
  · rw [s.scope.closeAll_bindAll]

end Codegen

end ScalarLang
