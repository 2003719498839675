import ScalarLang.Proofs.Codegen.Units
import ScalarLang.Proofs.Image.Loading
import ScalarLang.Session

/-! What evaluating an item does to a session. How far an item comes can be told before it is run, and
the session after it does not depend on the run. Whatever is evaluated, the open unit only declares
functions, as the registry knows them, and the image is consistent. -/

namespace ScalarLang

open IR (Func)

/-- The item defines a function that stays loaded. -/
def Item.isDefinition : Item → Bool
  | .function proto _ => !proto.isAnonymous
  | .foreign _ => false

namespace Session

variable {s : Session} {item : Item} {proto : Prototype} {body : Expr} {f : Func} {fn : LinkedFn}

@[simp] theorem image_retire (s : Session) : s.retire.image = s.image := rfl

@[simp] theorem registry_retire (s : Session) : s.retire.registry = s.registry := rfl

@[simp] theorem options_retire (s : Session) : s.retire.options = s.options := rfl

/-! ### Stages -/

/-- How far an item comes before anything is run. -/
inductive Stage where
  | declared
  | invalid (e : CodegenError)
  | unlinked (e : LinkError)
  | defined (fn : LinkedFn)
  /-- A top-level expression is ready to run. -/
  | ready (fn : LinkedFn)

/-- The function after the passes that the options ask for. -/
def optimised (s : Session) (f : Func) : Func := ((passesFor s.options.optimize).run f).1

def stage (s : Session) : Item → Stage
  | .foreign _ => .declared
  | .function proto body =>
    match Codegen.generated s.registry s.openUnit proto body with
    | .error e => .invalid e
    | .ok f =>
      match s.image.prepare (s.optimised f) with
      | .error e => .unlinked e
      | .ok fn => if proto.isAnonymous then .ready fn else .defined fn

theorem stage_of_error {e : CodegenError}
    (h : Codegen.generated s.registry s.openUnit proto body = .error e) :
    s.stage (.function proto body) = .invalid e := by
  simp only [stage, h]

theorem stage_of_unlinked {e : LinkError}
    (h : Codegen.generated s.registry s.openUnit proto body = .ok f)
    (hprepare : s.image.prepare (s.optimised f) = .error e) :
    s.stage (.function proto body) = .unlinked e := by
  simp only [stage, h, hprepare]

theorem stage_of_linked (h : Codegen.generated s.registry s.openUnit proto body = .ok f)
    (hprepare : s.image.prepare (s.optimised f) = .ok fn) :
    s.stage (.function proto body) = if proto.isAnonymous then .ready fn else .defined fn := by
  simp only [stage, h, hprepare]

/-- The result of an item whose run gave this. -/
def answer : Except RuntimeError Float → Except SessionError (Option Float)
  | .ok v => .ok (some v)
  | .error e => .error (.runtime e)

/-- The result of an item; none if it does not end within the fuel. -/
def result? (s : Session) (fuel : Nat) (item : Item) : Option (Except SessionError (Option Float)) :=
  match s.stage item with
  | .declared | .defined _ => some (.ok none)
  | .invalid e => some (.error (.codegen e))
  | .unlinked e => some (.error (.link e))
  | .ready fn =>
    ((s.image.install fn).call s.options.maxDepth fuel (.compiled s.image.code.size) []).map
      fun stop => answer stop.result

/-- The session after an item. -/
def after (s : Session) (item : Item) : Session :=
  match s.stage item with
  | .declared => s.evalForeign item.proto
  | .invalid _ | .unlinked _ => s.retire
  | .defined fn =>
    { s.retire with image := s.image.install fn, registry := s.registry.record item.proto }
  | .ready fn => { s.retire with image := s.image.uninstalled fn }

theorem options_after (s : Session) (item : Item) : (s.after item).options = s.options := by
  unfold after
  split <;> rfl

/-! ### The invariant -/

/-- The parts of a session fit together. -/
structure Consistent (s : Session) : Prop where
  keyed : s.registry.Keyed
  declares : s.openUnit.Declares
  agrees {name : String} {n : Nat} : s.openUnit.arity? name = some n →
    (s.registry.find? name).map (·.arity) = some n
  image : s.image.Consistent
  named {fn : LinkedFn} : s.image.Loaded fn → fn.name ≠ Prototype.anonymousName

theorem Consistent.known (hs : s.Consistent) (name : String) :
    Codegen.known s.registry s.openUnit name = (s.registry.find? name).map (·.arity) := by
  unfold Codegen.known
  cases harity : s.openUnit.arity? name with
  | none => rfl
  | some n => rw [hs.agrees harity, Option.some_or]

theorem Consistent.compiled (hs : s.Consistent)
    (h : Codegen.generated s.registry s.openUnit proto body = .ok f) :
    Codegen.Compiled proto (s.optimised f) :=
  (Codegen.generated_eq_ok hs.keyed hs.declares h).run _

/-- What is loaded for a function has its name. -/
theorem Consistent.links (hs : s.Consistent)
    (h : Codegen.generated s.registry s.openUnit proto body = .ok f)
    (hprepare : s.image.prepare (s.optimised f) = .ok fn) :
    s.image.Links [s.optimised f] (s.optimised f) fn ∧ fn.name = proto.name := by
  have hlinks := Image.prepare_eq_ok.1 hprepare
  exact ⟨hlinks, hlinks.name.trans (hs.compiled h).name⟩

theorem Consistent.name_of_anonymous (hs : s.Consistent) (hproto : proto.isAnonymous = true)
    (h : Codegen.generated s.registry s.openUnit proto body = .ok f)
    (hprepare : s.image.prepare (s.optimised f) = .ok fn) :
    fn.name = Prototype.anonymousName :=
  (hs.links h hprepare).2.trans (by simpa [Prototype.isAnonymous] using hproto)

/-! ### Evaluation -/

theorem generate_of_error {e : CodegenError}
    (h : Codegen.generated s.registry s.openUnit proto body = .error e) :
    s.generate proto body = (.error e, s.retire) := by
  rw [generate, Codegen.function_eq, h]

theorem Consistent.generate_of_ok (hs : s.Consistent)
    (h : Codegen.generated s.registry s.openUnit proto body = .ok f) :
    ∃ unit, s.generate proto body = (.ok unit, s.retire) ∧ unit.definitions = [s.optimised f] := by
  obtain ⟨unit, hfunction, hunit⟩ :=
    Codegen.function_of_ok hs.keyed (passesFor s.options.optimize) hs.declares h
  exact ⟨unit, by rw [generate, hfunction], hunit⟩

theorem Consistent.evalDefinition_eq (hs : s.Consistent) (hproto : proto.isAnonymous = false)
    (fuel : Nat) :
    (some (s.evalDefinition proto body)).map (fun e => (e.result, e.session)) =
      (s.result? fuel (.function proto body)).map fun r => (r, s.after (.function proto body)) := by
  unfold evalDefinition
  cases h : Codegen.generated s.registry s.openUnit proto body with
  | error e =>
    simp only [generate_of_error h, result?, after, stage_of_error h]
    rfl
  | ok f =>
    obtain ⟨unit, hgenerate, hunit⟩ := hs.generate_of_ok h
    simp only [hgenerate, image_retire, Image.link_eq hunit]
    cases hprepare : s.image.prepare (s.optimised f) with
    | error e =>
      simp only [result?, after, stage_of_unlinked h hprepare, Registry.rollback_record]
      rfl
    | ok fn =>
      simp only [result?, after, stage_of_linked h hprepare, hproto]
      rfl

theorem Consistent.evalExpression_eq (hs : s.Consistent) (hproto : proto.isAnonymous = true)
    (fuel : Nat) :
    (s.evalExpression fuel proto body).map (fun e => (e.result, e.session)) =
      (s.result? fuel (.function proto body)).map fun r => (r, s.after (.function proto body)) := by
  unfold evalExpression
  cases h : Codegen.generated s.registry s.openUnit proto body with
  | error e =>
    simp only [generate_of_error h, result?, after, stage_of_error h]
    rfl
  | ok f =>
    obtain ⟨unit, hgenerate, hunit⟩ := hs.generate_of_ok h
    simp only [hgenerate, image_retire, options_retire, Image.link_eq hunit]
    cases hprepare : s.image.prepare (s.optimised f) with
    | error e =>
      simp only [result?, after, stage_of_unlinked h hprepare]
      rfl
    | ok fn =>
      have hname := hs.name_of_anonymous hproto h hprepare
      simp only [result?, after, stage_of_linked h hprepare, hproto, if_true, Except.map, ← hname,
        Image.find?_install, Image.remove_install, Option.getD_some]
      change Option.map _ ((s.image.install fn).call _ fuel _ [] >>= _) = _
      cases (s.image.install fn).call s.options.maxDepth fuel (.compiled s.image.code.size) [] with
      | none => rfl
      | some stop => rcases stop with ⟨e | v, effects⟩ <;> rfl

/-- An item ends as its stage says, and leaves the session that its stage says. -/
theorem Consistent.evalItem_eq (hs : s.Consistent) (fuel : Nat) (item : Item) :
    (s.evalItem fuel item).map (fun e => (e.result, e.session)) =
      (s.result? fuel item).map fun r => (r, s.after item) := by
  cases item with
  | foreign proto => rfl
  | function proto body =>
    cases hproto : proto.isAnonymous with
    | true =>
      rw [evalItem, if_pos hproto]
      exact hs.evalExpression_eq hproto fuel
    | false =>
      rw [evalItem, if_neg (Bool.eq_false_iff.1 hproto)]
      exact hs.evalDefinition_eq hproto fuel

theorem Consistent.result?_of_evalItem (hs : s.Consistent) {fuel : Nat} {e : Evaluated}
    (h : s.evalItem fuel item = some e) :
    s.result? fuel item = some e.result ∧ e.session = s.after item := by
  have heq := hs.evalItem_eq fuel item
  rw [h, Option.map_some] at heq
  obtain ⟨r, hr, hpair⟩ := Option.map_eq_some_iff.1 heq.symm
  obtain ⟨rfl, hsession⟩ := Prod.mk.inj hpair
  exact ⟨hr, hsession.symm⟩

theorem Consistent.evalItem_of_result? (hs : s.Consistent) {fuel : Nat}
    {r : Except SessionError (Option Float)} (h : s.result? fuel item = some r) :
    ∃ e, s.evalItem fuel item = some e ∧ e.result = r := by
  have heq := hs.evalItem_eq fuel item
  rw [h, Option.map_some] at heq
  obtain ⟨e, he, hpair⟩ := Option.map_eq_some_iff.1 heq
  exact ⟨e, he, (Prod.mk.inj hpair).1⟩

/-! ### Sessions stay consistent -/

/-- Why an item comes as far as it does. -/
inductive Staged (s : Session) : Item → Stage → Prop where
  | declared (proto : Prototype) : Staged s (.foreign proto) .declared
  | invalid {proto : Prototype} {body : Expr} {e : CodegenError}
      (h : Codegen.generated s.registry s.openUnit proto body = .error e) :
      Staged s (.function proto body) (.invalid e)
  | unlinked {proto : Prototype} {body : Expr} {f : Func} {e : LinkError}
      (h : Codegen.generated s.registry s.openUnit proto body = .ok f)
      (hprepare : s.image.prepare (s.optimised f) = .error e) :
      Staged s (.function proto body) (.unlinked e)
  | defined {proto : Prototype} {body : Expr} {f : Func} {fn : LinkedFn}
      (hproto : proto.isAnonymous = false)
      (h : Codegen.generated s.registry s.openUnit proto body = .ok f)
      (hprepare : s.image.prepare (s.optimised f) = .ok fn) :
      Staged s (.function proto body) (.defined fn)
  | ready {proto : Prototype} {body : Expr} {f : Func} {fn : LinkedFn}
      (hproto : proto.isAnonymous = true)
      (h : Codegen.generated s.registry s.openUnit proto body = .ok f)
      (hprepare : s.image.prepare (s.optimised f) = .ok fn) :
      Staged s (.function proto body) (.ready fn)

theorem staged (s : Session) (item : Item) : s.Staged item (s.stage item) := by
  cases item with
  | foreign proto => exact .declared proto
  | function proto body =>
    cases h : Codegen.generated s.registry s.openUnit proto body with
    | error e =>
      rw [stage_of_error h]
      exact .invalid h
    | ok f =>
      cases hprepare : s.image.prepare (s.optimised f) with
      | error e =>
        rw [stage_of_unlinked h hprepare]
        exact .unlinked h hprepare
      | ok fn =>
        rw [stage_of_linked h hprepare]
        cases hproto : proto.isAnonymous with
        | true => exact .ready hproto h hprepare
        | false => exact .defined hproto h hprepare

theorem Consistent.retire (hs : s.Consistent) : s.retire.Consistent :=
  ⟨hs.keyed, IR.Module.declares_empty _, nofun, hs.image, hs.named⟩

theorem Consistent.evalForeign (hs : s.Consistent) (proto : Prototype) :
    (s.evalForeign proto).Consistent where
  keyed := Registry.Keyed.record hs.keyed proto
  declares := hs.declares.redeclare _ _
  agrees {name n} h := by
    change (s.openUnit.redeclare proto.name proto.params).arity? name = some n at h
    change ((s.registry.insert proto.name proto).find? name).map (·.arity) = some n
    rw [hs.declares.arity?_redeclare] at h
    rw [Table.find?_insert]
    split at h
    · next hname => rwa [if_pos hname]
    · next hname =>
      rw [if_neg hname]
      exact hs.agrees h
  image := hs.image
  named := hs.named

/-- Whatever is evaluated, the session stays consistent. -/
theorem Consistent.after (hs : s.Consistent) (item : Item) : (s.after item).Consistent := by
  have hstaged := s.staged item
  unfold Session.after
  generalize s.stage item = stage at hstaged
  cases hstaged with
  | declared proto => exact hs.evalForeign proto
  | invalid h => exact hs.retire
  | unlinked h hprepare => exact hs.retire
  | @defined proto body f fn hproto h hprepare =>
    obtain ⟨hlinks, hname⟩ := hs.links h hprepare
    refine ⟨Registry.Keyed.record hs.keyed proto, IR.Module.declares_empty _, nofun,
      hs.image.install (hs.compiled h).toCallable hlinks, fun {old} hold => ?_⟩
    rcases Image.loaded_install hold with rfl | hold
    · rw [hname]
      simpa [Prototype.isAnonymous] using hproto
    · exact hs.named hold
  | @ready proto body f fn hproto h hprepare =>
    refine ⟨hs.keyed, IR.Module.declares_empty _, nofun, hs.image.uninstalled fn, fun hold => ?_⟩
    exact hs.named ((hs.image.toTidy.same_uninstalled fn).loaded.1 hold)

/-- Items do not change the functions of the host. -/
theorem Consistent.hosts_after (hs : s.Consistent) (item : Item) :
    (s.after item).image.hosts = s.image.hosts := by
  unfold Session.after
  split
  · rfl
  · rfl
  · rfl
  · rfl
  · exact (hs.image.toTidy.same_uninstalled _).hosts

/-- Only definitions that succeed are loaded for good. -/
theorem Consistent.moduleCount_after (hs : s.Consistent) {fuel : Nat}
    {r : Except SessionError (Option Float)} (h : s.result? fuel item = some r) :
    (s.after item).image.moduleCount =
      s.image.moduleCount + if item.isDefinition && r.isOk then 1 else 0 := by
  have hstaged := s.staged item
  unfold result? at h
  unfold Session.after
  generalize s.stage item = stage at hstaged h
  cases hstaged with
  | declared proto => rfl
  | invalid =>
    cases h
    simp [Except.isOk, Except.toBool]
  | unlinked =>
    cases h
    simp [Except.isOk, Except.toBool]
  | @defined proto body f fn hproto =>
    cases h
    simp only [Item.isDefinition, hproto]
    exact hs.image.toTidy.moduleCount_install fn
  | @ready proto body f fn hproto =>
    simp only [Item.isDefinition, hproto]
    exact hs.image.toTidy.moduleCount_uninstalled fn

end Session

/-! ### Fuel -/

/-- More fuel keeps the end of a call. -/
theorem Image.call_mono {image : Image} {maxDepth fuel fuel' : Nat} {a : Address}
    {args : List Float} {stop : Stop} (hle : fuel ≤ fuel')
    (h : image.call maxDepth fuel a args = some stop) :
    image.call maxDepth fuel' a args = some stop := by
  cases a with
  | host k => exact h
  | compiled k =>
    simp only [Image.call] at h ⊢
    split at h
    · exact h
    · next fn _ =>
      by_cases harity : fn.arity = args.length
      · rw [if_pos harity] at h ⊢
        exact Machine.run_mono hle h
      · rwa [if_neg harity] at h ⊢

namespace Session

variable {s t : Session} {item : Item} {items : List Item} {fuel fuel' : Nat} {e : Evaluated}
  {es : List Evaluated}

theorem evalItem_mono (hle : fuel ≤ fuel') (h : s.evalItem fuel item = some e) :
    s.evalItem fuel' item = some e := by
  cases item with
  | foreign proto => exact h
  | function proto body =>
    rw [evalItem] at h ⊢
    split at h
    · next hproto =>
      rw [if_pos hproto]
      unfold evalExpression at h ⊢
      split at h
      · exact h
      · split at h
        · exact h
        · split at h
          · exact h
          · obtain ⟨stop, hstop, h⟩ := Option.bind_eq_some_iff.1 h
            exact Option.bind_eq_some_iff.2 ⟨stop, Image.call_mono hle hstop, h⟩
    · next hproto => rwa [if_neg hproto]

theorem evalItems_mono (hle : fuel ≤ fuel') (h : s.evalItems fuel items = some (es, t)) :
    s.evalItems fuel' items = some (es, t) := by
  induction items generalizing s es with
  | nil => exact h
  | cons item rest ih =>
    obtain ⟨e, he, h⟩ := Option.bind_eq_some_iff.1 h
    obtain ⟨⟨es₁, t₁⟩, hes, h⟩ := Option.bind_eq_some_iff.1 h
    cases h
    rw [evalItems, evalItem_mono hle he, Option.bind_eq_bind, Option.bind_some, ih hes]
    rfl

/-- Items that end with different fuel end together with the larger one. -/
theorem evalItems_cons (he : s.evalItem fuel item = some e)
    (h : e.session.evalItems fuel' items = some (es, t)) :
    s.evalItems (max fuel fuel') (item :: items) = some (e :: es, t) := by
  rw [evalItems, evalItem_mono (Nat.le_max_left ..) he, Option.bind_eq_bind, Option.bind_some,
    evalItems_mono (Nat.le_max_right ..) h]
  rfl

end Session

end ScalarLang
