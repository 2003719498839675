import ScalarLang.Proofs.Session.Invariant
import ScalarLang.Proofs.Session.Parallel

/-! Items that leave no trace. A top-level expression is removed once it has run, and an item that
fails is forgotten, so without it the other items have the same results and the session knows the
same functions. -/

namespace ScalarLang

open IR (Func)

/-- The item is an expression to be evaluated. -/
def Item.isExpression : Item → Bool
  | .function proto _ => proto.isAnonymous
  | .foreign _ => false

theorem Image.Same.refl (image : Image) : image.Same image := ⟨fun _ => rfl, rfl, fun _ => rfl⟩

namespace Session

variable {s s' t : Session} {item : Item} {items : List Item} {fuel fuel' : Nat} {e : Evaluated}
  {es : List Evaluated}

/-! ### Items that are left out -/

/-- A session without an item that leaves nothing behind. -/
theorem Parallel.drop (h : s.Parallel s') {r : Except SessionError (Option Float)}
    (hresult : s.result? fuel item = some r) (hitem : (item.isExpression || !r.isOk) = true) :
    (s.after item).Parallel s' := by
  have hafter := h.consistent.after item
  have hstaged := s.staged item
  obtain ⟨R, hR⟩ := h.image
  unfold result? at hresult
  unfold Session.after at hafter ⊢
  generalize s.stage item = stage at hstaged hafter hresult
  cases hstaged with
  | declared proto =>
    cases hresult
    cases hitem
  | invalid => exact ⟨hafter, h.consistent', h.registry, h.depth, R, hR⟩
  | unlinked => exact ⟨hafter, h.consistent', h.registry, h.depth, R, hR⟩
  | defined hproto =>
    cases hresult
    simp [Item.isExpression, hproto, Except.isOk, Except.toBool] at hitem
  | @ready proto body f fn =>
    have hsame := h.consistent.image.toTidy.same_uninstalled fn
    exact ⟨hafter, h.consistent', h.registry, h.depth, R,
      hR.corresponds.of_same hsame (.refl s'.image),
      fun hoptions => (hR.code hoptions).of_same hsame (.refl s'.image)⟩

/-- The items that stay, each with its evaluation, when some of those are left out that leave nothing
behind. -/
inductive Pruned : List (Item × Evaluated) → List (Item × Evaluated) → Prop where
  | nil : Pruned [] []
  | keep {ps qs : List (Item × Evaluated)} (p : Item × Evaluated) (h : Pruned ps qs) :
      Pruned (p :: ps) (p :: qs)
  | drop {ps qs : List (Item × Evaluated)} {p : Item × Evaluated}
      (hp : (p.1.isExpression || !p.2.result.isOk) = true) (h : Pruned ps qs) :
      Pruned (p :: ps) qs

theorem Parallel.evalItems (h : s.Parallel s') (hoptions : s.SameOptions s')
    (heval : s.evalItems fuel items = some (es, t)) {kept : List (Item × Evaluated)}
    (hkept : Pruned (items.zip es) kept) :
    ∃ fuel' es' t', s'.evalItems fuel' (kept.map Prod.fst) = some (es', t') ∧
      es'.map (·.result) = kept.map (·.2.result) ∧ t.Parallel t' ∧ t.SameOptions t' := by
  induction items generalizing s s' es kept with
  | nil =>
    cases heval
    cases hkept
    exact ⟨0, [], s', rfl, rfl, h, hoptions⟩
  | cons item rest ih =>
    obtain ⟨e, he, heval⟩ := Option.bind_eq_some_iff.1 heval
    obtain ⟨⟨es₁, t₁⟩, hrest, heval⟩ := Option.bind_eq_some_iff.1 heval
    cases heval
    obtain ⟨hresult, hsession⟩ := h.consistent.result?_of_evalItem he
    have hoptions' {t' : Session} (ht' : t'.options = s'.options) : e.session.SameOptions t' := by
      rw [SameOptions, ht', hsession, options_after]
      exact hoptions
    cases hkept with
    | drop hp hkept =>
      exact ih (hsession ▸ h.drop hresult hp) (hoptions' rfl) hrest hkept
    | keep _ hkept =>
      have hmatched := h.matched item (.inl hoptions)
      obtain ⟨fuel₁, e', he', hresult', -, hparallel⟩ := h.evalItem hmatched he
      have hsession' := (h.consistent'.result?_of_evalItem he').2
      obtain ⟨fuel₂, es', t', hrest', hresults, ht⟩ :=
        ih hparallel (hoptions' (by rw [hsession', options_after])) hrest hkept
      refine ⟨_, e' :: es', t', evalItems_cons he' hrest', ?_, ht⟩
      rw [List.map_cons, List.map_cons, hresult', hresults]

end Session

/-- What a name stands for in two images: nothing, the same function of the host, or functions with
the same code whose calls do the same. -/
inductive Image.SameFunction (image image' : Image) : Option Address → Option Address → Prop where
  | none : SameFunction image image' none none
  | host {k : Nat} (h : image'.host? k = image.host? k) :
      SameFunction image image' (some (.host k)) (some (.host k))
  | compiled {k k' : Nat} {fn fn' : LinkedFn} (hfn : image.compiled? k = some fn)
      (hfn' : image'.compiled? k' = some fn') (hname : fn'.name = fn.name)
      (harity : fn'.arity = fn.arity) (hchunk : fn'.chunk = fn.chunk)
      (hconduct : ∀ maxDepth args, image'.conduct maxDepth (.compiled k') args =
        image.conduct maxDepth (.compiled k) args) :
      SameFunction image image' (some (.compiled k)) (some (.compiled k'))

namespace Session

variable {s s' t : Session} {n fuel : Nat} {items : List Item} {es : List Evaluated}

theorem Parallel.sameFunction (h : s.Parallel s') (hoptions : s.SameOptions s') (name : String) :
    Image.SameFunction s.image s'.image (s.image.find? name) (s'.image.find? name) := by
  obtain ⟨R, hR⟩ := h.image
  rcases optionRel_cases (hR.corresponds.find name) with ⟨hf, hf'⟩ | ⟨a, a', hf, hf', ha⟩
  · rw [hf, hf']
    exact .none
  · rw [hf, hf']
    cases ha with
    | host k => exact .host (by rw [Image.host?, Image.host?, hR.corresponds.hosts])
    | compiled hk =>
      obtain ⟨fn, fn', hfn, hfn', halike⟩ := hR.corresponds.loaded hk
      exact .compiled hfn hfn' halike.name halike.arity (hR.code hoptions _ _ _ _ hk hfn hfn')
        fun maxDepth args => hR.corresponds.conduct_eq maxDepth (.compiled hk) args

/-- Top-level expressions, and items that fail, leave no trace: if some of them are left out, the
other items have the same results, the same prototypes are known in the end, and every name stands
for the same function. -/
theorem Reached.forgets (h : Reached s n) (heval : s.evalItems fuel items = some (es, t))
    {kept : List (Item × Evaluated)} (hkept : Pruned (items.zip es) kept) :
    ∃ fuel' es' t', s.evalItems fuel' (kept.map Prod.fst) = some (es', t') ∧
      es'.map (·.result) = kept.map (·.2.result) ∧ t'.registry = t.registry ∧
      ∀ name, Image.SameFunction t.image t'.image (t.image.find? name) (t'.image.find? name) := by
  obtain ⟨fuel', es', t', heval', hresults, ht, hoptions⟩ :=
    h.consistent.parallel.evalItems rfl heval hkept
  exact ⟨fuel', es', t', heval', hresults, ht.registry, ht.sameFunction hoptions⟩

/-- A call that comes too early, and a function that uses a variable it does not have; then the
function that was called is defined. -/
def mistaken : List Item :=
  [.ofExpr (.call "relay" [.call "zero" []]),
    .function ⟨"double", ["x"], .plain⟩ (.binary '+' (.var "x") (.var "y")),
    .function ⟨"later", ["x"], .plain⟩ (.var "x"),
    .ofExpr (.call "relay" [.call "zero" []])]

theorem forgets_mistaken : ∃ es t kept, relaying.evalItems 50 mistaken = some (es, t) ∧
    Pruned (mistaken.zip es) kept ∧ kept.map Prod.fst = mistaken.drop 2 ∧
    ∃ fuel' es' t', relaying.evalItems fuel' (kept.map Prod.fst) = some (es', t') ∧
      es'.map (·.result) = kept.map (·.2.result) ∧ t'.registry = t.registry ∧
      ∀ name, Image.SameFunction t.image t'.image (t.image.find? name) (t'.image.find? name) := by
  have hshape : (relaying.evalItems 50 mistaken).map (·.1.map (·.result.isOk)) =
      some [false, false, true, true] := by decide +kernel
  obtain ⟨⟨es, t⟩, heval, hes⟩ := Option.map_eq_some_iff.1 hshape
  simp only [List.map_eq_cons_iff, List.map_eq_nil_iff] at hes
  obtain ⟨e₁, _, rfl, -, e₂, _, rfl, hfailed, e₃, _, rfl, -, e₄, _, rfl, -, rfl⟩ := hes
  have hpruned : Pruned (mistaken.zip [e₁, e₂, e₃, e₄])
      ((mistaken.zip [e₁, e₂, e₃, e₄]).drop 2) :=
    .drop rfl (.drop (by simp [hfailed]) (.keep _ (.keep _ .nil)))
  exact ⟨_, t, _, heval, hpruned, rfl, reached_relaying.forgets heval hpruned⟩

end Session

end ScalarLang
