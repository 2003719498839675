import ScalarLang.Proofs.Session.Invariant

/-! Listings of items. Evaluation and assembly generate into different units: one goes on declaring
in the open unit what was declared before, the other starts each item with an empty one. They find
the same functions with the same numbers of arguments, so they generate the same code. -/

namespace ScalarLang

open IR (Func)

namespace Session

variable {s s' t : Session} {item : Item} {items : List Item} {proto : Prototype} {body : Expr}
  {f : Func} {fuel : Nat} {e : Evaluated} {es : List Evaluated}

/-- The text of an item that has this result: for a declaration its line, for an item that could
not be generated a remark, and for all others the one function of the unit that was generated. -/
inductive Renders (s : Session) : Item → Except SessionError (Option Float) → String → Prop where
  | declared (proto : Prototype) : Renders s (.foreign proto) (.ok none)
      (Func.declaration proto.name proto.params).text
  | invalid {proto : Prototype} {body : Expr} {e : CodegenError}
      (hgenerate : (s.generate proto body).1 = .error e) :
      Renders s (.function proto body) (.error (.codegen e)) "Error during compilation\n"
  | generated {proto : Prototype} {body : Expr} {r : Except SessionError (Option Float)}
      {unit : IR.Module} {f : Func} (hgenerate : (s.generate proto body).1 = .ok unit)
      (hunit : unit.definitions = [f]) (hr : ∀ e, r ≠ .error (.codegen e)) :
      Renders s (.function proto body) r f.text

/-- The texts of items that were evaluated one after the other. -/
inductive Listed : Session → List Item → List Evaluated → List String → Prop where
  | nil (s : Session) : Listed s [] [] []
  | cons {s : Session} {item : Item} {items : List Item} {e : Evaluated} {es : List Evaluated}
      {text : String} {texts : List String} (hitem : s.Renders item e.result text)
      (hrest : Listed e.session items es texts) :
      Listed s (item :: items) (e :: es) (text :: texts)

/-! ### One item -/

/-- Nothing depends on what the open unit declares. -/
theorem Consistent.generated_empty (hs : s.Consistent) (name : String) (proto : Prototype)
    (body : Expr) : Codegen.generated s.registry { name } proto body =
      Codegen.generated s.registry s.openUnit proto body := by
  refine Codegen.generated_congr hs.keyed hs.declares (IR.Module.declares_empty name)
    (fun callee => ?_) proto body
  rw [hs.known]
  rfl

theorem assembleItem_of_error {e : CodegenError} (passes : IR.Pipeline)
    (h : Codegen.generated s.registry s.freshUnit proto body = .error e) :
    (s.assembleItem passes (.function proto body)).1 = "Error during compilation\n" ∧
      (s.assembleItem passes (.function proto body)).2.registry = s.registry := by
  simp only [assembleItem, Codegen.function_eq, h, and_self]

theorem assembleItem_of_ok (passes : IR.Pipeline)
    (h : Codegen.generated s.registry s.freshUnit proto body = .ok f) :
    (s.assembleItem passes (.function proto body)).1 = (passes.run f).1.text ∧
      (s.assembleItem passes (.function proto body)).2.registry =
        if proto.isAnonymous then s.registry else s.registry.record proto := by
  simp only [assembleItem, Codegen.function_eq, h, true_and]
  split <;> rfl

/-- An item is rendered as it is evaluated, and afterwards the same prototypes are known. -/
theorem Consistent.renders (hs : s.Consistent) (hregistry : s'.registry = s.registry)
    (he : s.evalItem fuel item = some e) (hlink : ∀ err, e.result ≠ .error (.link err)) :
    s.Renders item e.result (s'.assembleItem (passesFor s.options.optimize) item).1 ∧
      (s'.assembleItem (passesFor s.options.optimize) item).2.registry = e.session.registry := by
  obtain ⟨hresult, hsession⟩ := hs.result?_of_evalItem he
  have hfresh (proto : Prototype) (body : Expr) :
      Codegen.generated s'.registry s'.freshUnit proto body =
        Codegen.generated s.registry s.openUnit proto body := by
    rw [hregistry]
    exact hs.generated_empty _ proto body
  have hstaged := s.staged item
  rw [hsession]
  unfold result? at hresult
  unfold Session.after
  generalize s.stage item = stage at hstaged hresult
  generalize e.result = r at hresult hlink
  cases hstaged with
  | declared proto =>
    cases hresult
    refine ⟨.declared proto, ?_⟩
    change s'.registry.record proto = s.registry.record proto
    rw [hregistry]
  | @invalid proto body err h =>
    cases hresult
    obtain ⟨htext, hrest⟩ := assembleItem_of_error (passesFor s.options.optimize)
      ((hfresh proto body).trans h)
    rw [htext, hrest, hregistry]
    exact ⟨.invalid (by rw [generate_of_error h]), rfl⟩
  | unlinked =>
    cases hresult
    exact absurd rfl (hlink _)
  | @defined proto body f fn hproto h =>
    cases hresult
    obtain ⟨unit, hgenerate, hunit⟩ := hs.generate_of_ok h
    obtain ⟨htext, hrest⟩ := assembleItem_of_ok (passesFor s.options.optimize)
      ((hfresh proto body).trans h)
    rw [htext, hrest, hregistry, hproto]
    exact ⟨.generated (by rw [hgenerate]) hunit (by simp), rfl⟩
  | @ready proto body f fn hproto h =>
    obtain ⟨unit, hgenerate, hunit⟩ := hs.generate_of_ok h
    obtain ⟨htext, hrest⟩ := assembleItem_of_ok (passesFor s.options.optimize)
      ((hfresh proto body).trans h)
    obtain ⟨stop, -, rfl⟩ := Option.map_eq_some_iff.1 hresult
    rw [htext, hrest, hregistry, if_pos hproto]
    refine ⟨.generated (by rw [hgenerate]) hunit fun err => ?_, rfl⟩
    cases stop.result <;> simp [answer]

/-! ### All items -/

theorem Consistent.listed (hs : s.Consistent) (hregistry : s'.registry = s.registry)
    (heval : s.evalItems fuel items = some (es, t))
    (hlinks : ∀ e ∈ es, ∀ err, e.result ≠ .error (.link err)) :
    ∃ texts, Listed s items es texts ∧
      (s'.assembleItems (passesFor s.options.optimize) items).1 = String.join texts := by
  induction items generalizing s s' es with
  | nil =>
    cases heval
    exact ⟨[], .nil _, rfl⟩
  | cons item rest ih =>
    obtain ⟨e, he, heval⟩ := Option.bind_eq_some_iff.1 heval
    obtain ⟨⟨es₁, t₁⟩, hes, heval⟩ := Option.bind_eq_some_iff.1 heval
    cases heval
    obtain ⟨hlink, hlinks⟩ := List.forall_mem_cons.1 hlinks
    obtain ⟨hitem, hknown⟩ := hs.renders hregistry he hlink
    have hsession := (hs.result?_of_evalItem he).2
    have hoptions : e.session.options = s.options := by rw [hsession, options_after]
    obtain ⟨texts, hrest, htexts⟩ := ih (hsession ▸ hs.after item) hknown hes hlinks
    refine ⟨_, .cons hitem hrest, ?_⟩
    rw [String.join_cons, ← htexts, hoptions]
    rfl

/-- Assembly shows the code that evaluation runs. If the items come to an end in a new session and
all of them can be linked, their texts in another new session are those of the functions that were
generated for them, in order, with a line for every declaration and a remark for just the items that
could not be generated. -/
theorem assembly_shows_evaluated (options : SessionOptions) (hosts hosts' : List HostFn)
    (heval : (start options hosts).evalItems fuel items = some (es, t))
    (hlinks : ∀ e ∈ es, ∀ err, e.result ≠ .error (.link err)) :
    ∃ texts, Listed (start options hosts) items es texts ∧
      ((start options hosts').assembly items false).1 = String.join texts := by
  have hblank := blank_start options hosts
  have hregistry : (start options hosts').registry = (start options hosts).registry :=
    (blank_start options hosts').registry.trans hblank.registry.symm
  have hlisted := hblank.consistent.listed hregistry heval hlinks
  rw [assembly, Bool.not_false, Bool.and_true, options_start]
  rwa [options_start] at hlisted

/-- A declaration, a function that uses a variable it does not have, the same one put right, and a
call of it. -/
def mended : List Item :=
  [.foreign ⟨"later", ["x"], .plain⟩,
    .function ⟨"relay", ["x"], .plain⟩ (.call "later" [.var "y"]),
    .function ⟨"relay", ["x"], .plain⟩ (.call "later" [.var "x"]),
    .ofExpr (.call "relay" [.number 1.0])]

theorem assembly_shows_evaluated_mended :
    ∃ es t, (start {} [.ofFunction "later" 1 List.sum]).evalItems 50 mended = some (es, t) ∧
      es.map (fun e => e.result.map fun _ => ()) =
        [.ok (), .error (.codegen (.unknownVariable "y")), .ok (), .ok ()] ∧
      (∀ e ∈ es, ∀ err, e.result ≠ .error (.link err)) ∧
      ∃ texts, Listed (start {} [.ofFunction "later" 1 List.sum]) mended es texts ∧
        ((start {} []).assembly mended false).1 = String.join texts := by
  have hshape : ((start {} [.ofFunction "later" 1 List.sum]).evalItems 50 mended).map
      (·.1.map fun e => e.result.map fun _ => ()) =
      some [.ok (), .error (.codegen (.unknownVariable "y")), .ok (), .ok ()] := by decide +kernel
  obtain ⟨⟨es, t⟩, heval, hes⟩ := Option.map_eq_some_iff.1 hshape
  have hlinks : ∀ e ∈ es, ∀ err, e.result ≠ .error (.link err) := by
    intro e he err hr
    have hmem : e.result.map (fun _ => ()) ∈ es.map fun e => e.result.map fun _ => () :=
      List.mem_map_of_mem he
    rw [hes, hr] at hmem
    simp [Except.map] at hmem
  exact ⟨es, t, heval, hes, hlinks, assembly_shows_evaluated {} _ [] heval hlinks⟩

end Session

end ScalarLang
