import ScalarLang.Proofs.Image.Parallel
import ScalarLang.Proofs.Session.Conduct

/-! Sessions that evaluate items side by side. They know the same functions, and those that they have
loaded do the same, though the code may differ and lie at different places. An item that comes as far
in both shows the same in both, and they stay so. -/

namespace ScalarLang

open IR (Func)

namespace Session

variable {s s' : Session} {item : Item} {proto : Prototype} {body : Expr} {f : Func}
  {fn fn' : LinkedFn} {R : Nat → Nat → Prop}

/-- The images correspond, and have the same code if they should. -/
structure Follows (same : Prop) (R : Nat → Nat → Prop) (image image' : Image) : Prop where
  corresponds : image.Corresponds R image'
  code : same → Image.SameCode R image image'

/-- The sessions optimise code alike. -/
def SameOptions (s s' : Session) : Prop := s'.options.optimize = s.options.optimize

/-- The sessions cannot be told apart by evaluating items. -/
structure Parallel (s s' : Session) : Prop where
  consistent : s.Consistent
  consistent' : s'.Consistent
  registry : s'.registry = s.registry
  depth : s'.options.maxDepth = s.options.maxDepth
  image : ∃ R, Follows (s.SameOptions s') R s.image s'.image

theorem Consistent.parallel (hs : s.Consistent) : s.Parallel s :=
  ⟨hs, hs, rfl, rfl, _, hs.image.corresponds, fun _ => Image.sameCode_self s.image⟩

/-- How far an item comes in both sessions. -/
inductive Matched (s s' : Session) : Item → Stage → Stage → Prop where
  | declared (proto : Prototype) : Matched s s' (.foreign proto) .declared .declared
  | invalid (item : Item) (e : CodegenError) : Matched s s' item (.invalid e) (.invalid e)
  | unlinked (item : Item) (e : LinkError) : Matched s s' item (.unlinked e) (.unlinked e)
  | defined {proto : Prototype} {body : Expr} {fn fn' : LinkedFn} {R : Nat → Nat → Prop}
      (h : Follows (s.SameOptions s') R (s.image.install fn) (s'.image.install fn')) :
      Matched s s' (.function proto body) (.defined fn) (.defined fn')
  | ready {proto : Prototype} {body : Expr} {fn fn' : LinkedFn} {R : Nat → Nat → Prop}
      (h : Follows (s.SameOptions s') R (s.image.install fn) (s'.image.install fn'))
      (hlast : R s.image.code.size s'.image.code.size) :
      Matched s s' (.function proto body) (.ready fn) (.ready fn')

namespace Parallel

variable (h : s.Parallel s')
include h

theorem generated (proto : Prototype) (body : Expr) :
    Codegen.generated s'.registry s'.openUnit proto body =
      Codegen.generated s.registry s.openUnit proto body := by
  have hknown (name : String) : Codegen.known s.registry s'.openUnit name =
      Codegen.known s.registry s.openUnit name := by
    rw [h.consistent.known, ← h.registry, h.consistent'.known]
  rw [h.registry]
  exact Codegen.generated_congr h.consistent.keyed h.consistent.declares h.consistent'.declares
    hknown proto body

/-- A function that is generated behaves alike in both sessions. -/
theorem install (hf : Codegen.generated s.registry s.openUnit proto body = .ok f)
    (hfn : s.image.prepare (s.optimised f) = .ok fn)
    (hfn' : s'.image.prepare (s'.optimised f) = .ok fn')
    (hR : Follows (s.SameOptions s') R s.image s'.image) :
    Follows (s.SameOptions s') (s.image.Next s'.image R) (s.image.install fn)
      (s'.image.install fn') := by
  have hf' := (h.generated proto body).trans hf
  have hwf := (Codegen.generated_eq_ok h.consistent.keyed h.consistent.declares hf).wellFormed
  have hcompiled := h.consistent.compiled hf
  have hcompiled' := h.consistent'.compiled hf'
  have hlinks := (h.consistent.links hf hfn).1
  have hlinks' := (h.consistent'.links hf' hfn').1
  constructor
  · refine hR.corresponds.install (hcompiled'.header.trans hcompiled.header.symm) ?_
      hcompiled.toCallable hcompiled'.toCallable hlinks hlinks'
    intro args o
    rw [optimised, (IR.Pipeline.run_refines _ hwf).behaviour, optimised,
      (IR.Pipeline.run_refines _ hwf).behaviour]
  · intro hsame
    refine hR.corresponds.sameCode_install (hR.code hsame) ?_
    have hcode := hlinks'.code
    rw [optimised, show s'.options.optimize = _ from hsame] at hcode
    exact Except.ok.inj (hcode.symm.trans hlinks.code)

/-- With the same options an item comes as far in both sessions; else it does so if it is linked. -/
theorem matched (item : Item) (hlink : s.SameOptions s' ∨
      (∀ e, s.stage item ≠ .unlinked e) ∧ ∀ e, s'.stage item ≠ .unlinked e) :
    Matched s s' item (s.stage item) (s'.stage item) := by
  cases item with
  | foreign proto => exact .declared proto
  | function proto body =>
    have hgenerated := h.generated proto body
    obtain ⟨R, hR⟩ := h.image
    cases hf : Codegen.generated s.registry s.openUnit proto body with
    | error e =>
      rw [stage_of_error hf, stage_of_error (hgenerated.trans hf)]
      exact .invalid _ e
    | ok f =>
      have hf' := hgenerated.trans hf
      have hchunk (hsame : s.SameOptions s') :
          (s'.image.prepare (s'.optimised f)).map LinkedFn.chunk =
            (s.image.prepare (s.optimised f)).map LinkedFn.chunk := by
        rw [optimised, show s'.options.optimize = _ from hsame]
        exact hR.corresponds.prepare _
      cases hfn : s.image.prepare (s.optimised f) with
      | error e =>
        have hstage := stage_of_unlinked hf hfn
        have hfn' := hchunk (hlink.resolve_right fun hlink => hlink.1 e hstage)
        rw [hfn] at hfn'
        cases hprepare : s'.image.prepare (s'.optimised f) with
        | ok fn' => simp [hprepare, Except.map] at hfn'
        | error e' =>
          rw [hprepare] at hfn'
          cases hfn'
          rw [hstage, stage_of_unlinked hf' hprepare]
          exact .unlinked _ e
      | ok fn =>
        cases hfn' : s'.image.prepare (s'.optimised f) with
        | error e =>
          have hchunk := hchunk (hlink.resolve_right fun hlink =>
            hlink.2 e (stage_of_unlinked hf' hfn'))
          simp [hfn, hfn', Except.map] at hchunk
        | ok fn' =>
          have hinstall := h.install hf hfn hfn' hR
          rw [stage_of_linked hf hfn, stage_of_linked hf' hfn']
          split
          · exact .ready hinstall (.inr ⟨rfl, rfl⟩)
          · exact .defined hinstall

/-- An item that comes as far in both sessions shows the same in both. -/
theorem conduct_eq (hitem : Matched s s' item (s.stage item) (s'.stage item)) :
    s'.conduct item = s.conduct item := by
  rw [h.consistent.conduct_eq, h.consistent'.conduct_eq]
  generalize s.stage item = stage at hitem
  generalize s'.stage item = stage' at hitem
  cases hitem with
  | declared proto => rfl
  | invalid e => rfl
  | unlinked e => rfl
  | defined hinstall => rfl
  | ready hinstall hlast =>
    simp only [h.depth]
    rw [hinstall.corresponds.conduct_eq _ (.compiled hlast)]

/-- After such an item the sessions still cannot be told apart. -/
theorem after (hitem : Matched s s' item (s.stage item) (s'.stage item)) :
    (s.after item).Parallel (s'.after item) := by
  have hafter := h.consistent.after item
  have hafter' := h.consistent'.after item
  unfold Session.after at hafter hafter' ⊢
  obtain ⟨R, hR⟩ := h.image
  generalize s.stage item = stage at hitem hafter
  generalize s'.stage item = stage' at hitem hafter'
  cases hitem with
  | declared proto =>
    exact ⟨hafter, hafter', congrArg (Registry.record · proto) h.registry, h.depth, R, hR⟩
  | invalid e => exact ⟨hafter, hafter', h.registry, h.depth, R, hR⟩
  | unlinked e => exact ⟨hafter, hafter', h.registry, h.depth, R, hR⟩
  | @defined proto body fn fn' R' hinstall =>
    exact ⟨hafter, hafter', congrArg (Registry.record · proto) h.registry, h.depth, R', hinstall⟩
  | @ready proto body fn fn' R' hinstall hlast =>
    have hsame := h.consistent.image.toTidy.same_uninstalled fn
    have hsame' := h.consistent'.image.toTidy.same_uninstalled fn'
    exact ⟨hafter, hafter', h.registry, h.depth, R, hR.corresponds.of_same hsame hsame',
      fun hoptions => (hR.code hoptions).of_same hsame hsame'⟩

/-- An item that comes as far in both sessions, and ends in one, ends in the other with the same
result after the same calls of host functions. -/
theorem evalItem (hitem : Matched s s' item (s.stage item) (s'.stage item)) {fuel : Nat}
    {e : Evaluated} (he : s.evalItem fuel item = some e) :
    ∃ fuel' e', s'.evalItem fuel' item = some e' ∧ e'.result = e.result ∧
      s'.hostCalls fuel' item = s.hostCalls fuel item ∧ e.session.Parallel e'.session := by
  have hends : (s'.conduct item).ends (s.hostCalls fuel item) e.result := by
    rw [h.conduct_eq hitem]
    exact ⟨fuel, e, he, rfl, rfl⟩
  obtain ⟨fuel', e', he', hresult, hcalls⟩ := hends
  refine ⟨fuel', e', he', hresult, hcalls, ?_⟩
  rw [(h.consistent.result?_of_evalItem he).2, (h.consistent'.result?_of_evalItem he').2]
  exact h.after hitem

end Parallel

end Session

end ScalarLang
