import ScalarLang.Proofs.Image.Effects
import ScalarLang.Proofs.Session.Evaluation

/-! What a session shows when it evaluates an item: the calls of host functions on the way, and the
result if there is one. Most items come to an end at once; a top-level expression shows what the run
of its function shows. -/

namespace ScalarLang

namespace Session

variable {s : Session} {item : Item} {proto : Prototype} {body : Expr}

/-- The calls of host functions that an item makes within the fuel. -/
def hostCalls (s : Session) (fuel : Nat) : Item → List Call
  | .foreign _ => []
  | .function proto body =>
    if proto.isAnonymous then
      match s.generate proto body with
      | (.error _, _) => []
      | (.ok unit, s) =>
        match s.image.link unit with
        | .error _ => []
        | .ok linked =>
          match linked.image.find? Prototype.anonymousName with
          | none => []
          | some address => linked.image.hostCalls s.options.maxDepth fuel address []
    else []

theorem generate_snd (s : Session) (proto : Prototype) (body : Expr) :
    (s.generate proto body).2 = s.retire := by
  unfold generate
  split <;> rfl

theorem effects_evalDefinition (hlist : s.options.listCode = false) (proto : Prototype)
    (body : Expr) : (s.evalDefinition proto body).effects = [] := by
  have hsession := s.generate_snd proto body
  unfold evalDefinition
  split
  · rfl
  · next unit s₁ hgenerate =>
    rw [hgenerate] at hsession
    obtain rfl : s₁ = s.retire := hsession
    dsimp only
    split
    · rfl
    · simp only [shown, options_retire, hlist]
      rfl

/-- Without listings, an item does nothing besides but what its calls of host functions do. -/
theorem effects_evalItem {fuel : Nat} {e : Evaluated} (hlist : s.options.listCode = false)
    (h : s.evalItem fuel item = some e) : s.image.Effects (s.hostCalls fuel item) e.effects := by
  cases item with
  | foreign proto =>
    cases h
    exact .nil
  | function proto body =>
    by_cases hproto : proto.isAnonymous = true
    · have hsession := s.generate_snd proto body
      rcases hgenerate : s.generate proto body with ⟨err | unit, s₁⟩ <;> rw [hgenerate] at hsession
      · simp only [evalItem, hproto, if_true, evalExpression, hgenerate] at h
        simp only [hostCalls, hproto, if_true, hgenerate]
        cases h
        exact .nil
      · obtain rfl : s₁ = s.retire := hsession
        simp only [evalItem, hproto, if_true, evalExpression, hgenerate] at h
        simp only [hostCalls, hproto, if_true, hgenerate]
        cases hlink : s.retire.image.link unit with
        | error err =>
          simp only [hlink] at h ⊢
          cases h
          exact .nil
        | ok linked =>
          have hhosts := (Image.link_eq_ok hlink).2.hosts
          cases hfind : linked.image.find? Prototype.anonymousName with
          | none =>
            simp only [hlink, hfind] at h ⊢
            cases h
            exact .nil
          | some a =>
            simp only [hlink, hfind] at h ⊢
            obtain ⟨stop, hstop, h⟩ := Option.bind_eq_some_iff.1 h
            cases h
            have hshown : s.retire.shown linked = [] := by simp [shown, hlist]
            rw [hshown, List.nil_append]
            exact (Image.effects_call hstop).of_hosts hhosts
    · rw [evalItem, if_neg hproto] at h
      rw [hostCalls, if_neg hproto]
      cases h
      rw [effects_evalDefinition hlist]
      exact .nil

/-- What evaluating an item shows. -/
def conduct (s : Session) (item : Item) : Conduct (Except SessionError (Option Float)) where
  ends l r := ∃ fuel e, s.evalItem fuel item = some e ∧ e.result = r ∧ s.hostCalls fuel item = l
  shows l := ∃ fuel, l <+: s.hostCalls fuel item

theorem Consistent.hostCalls_eq (hs : s.Consistent) (fuel : Nat) (item : Item) :
    s.hostCalls fuel item = match s.stage item with
      | .ready fn =>
        (s.image.install fn).hostCalls s.options.maxDepth fuel (.compiled s.image.code.size) []
      | _ => [] := by
  have hstaged := s.staged item
  generalize s.stage item = stage at hstaged
  cases hstaged with
  | declared proto => rfl
  | invalid h =>
    rw [hostCalls, generate_of_error h]
    split <;> rfl
  | unlinked h hprepare =>
    obtain ⟨unit, hgenerate, hunit⟩ := hs.generate_of_ok h
    simp only [hostCalls, hgenerate, image_retire, Image.link_eq hunit, hprepare, Except.map]
    split <;> rfl
  | defined hproto h hprepare => simp only [hostCalls, hproto, Bool.false_eq_true, if_false]
  | ready hproto h hprepare =>
    obtain ⟨unit, hgenerate, hunit⟩ := hs.generate_of_ok h
    have hname := hs.name_of_anonymous hproto h hprepare
    simp only [hostCalls, hproto, if_true, hgenerate, image_retire, options_retire,
      Image.link_eq hunit, hprepare, Except.map, ← hname, Image.find?_install]

theorem Consistent.ends_iff (hs : s.Consistent) {l : List Call}
    {r : Except SessionError (Option Float)} : (s.conduct item).ends l r ↔
      ∃ fuel, s.result? fuel item = some r ∧ s.hostCalls fuel item = l := by
  refine exists_congr fun fuel => ?_
  constructor
  · rintro ⟨e, he, rfl, hl⟩
    exact ⟨(hs.result?_of_evalItem he).1, hl⟩
  · rintro ⟨hr, hl⟩
    obtain ⟨e, he, hresult⟩ := hs.evalItem_of_result? hr
    exact ⟨e, he, hresult, hl⟩

/-- An item that ends without a run shows nothing but its result. -/
theorem Consistent.conduct_ended (hs : s.Consistent) {r : Except SessionError (Option Float)}
    (hresult : ∀ fuel, s.result? fuel item = some r) (hcalls : ∀ fuel, s.hostCalls fuel item = []) :
    s.conduct item = .ended r := by
  ext l r'
  · rw [hs.ends_iff]
    simp only [hresult, hcalls, Conduct.ended, Option.some.injEq, exists_const]
    exact ⟨fun ⟨hr, hl⟩ => ⟨hl.symm, hr.symm⟩, fun ⟨hl, hr⟩ => ⟨hr.symm, hl.symm⟩⟩
  · simp only [conduct, hcalls, Conduct.ended, List.prefix_nil, exists_const]

/-- What an item shows, by how far it comes. -/
theorem Consistent.conduct_eq (hs : s.Consistent) (item : Item) :
    s.conduct item = match s.stage item with
      | .declared | .defined _ => .ended (.ok none)
      | .invalid e => .ended (.error (.codegen e))
      | .unlinked e => .ended (.error (.link e))
      | .ready fn => ((s.image.install fn).conduct s.options.maxDepth
        (.compiled s.image.code.size) []).map answer := by
  have hresult (fuel : Nat) : s.result? fuel item = match s.stage item with
    | .declared | .defined _ => some (.ok none)
    | .invalid e => some (.error (.codegen e))
    | .unlinked e => some (.error (.link e))
    | .ready fn => ((s.image.install fn).call s.options.maxDepth fuel
        (.compiled s.image.code.size) []).map fun stop => answer stop.result := rfl
  have hcalls := fun fuel => hs.hostCalls_eq fuel item
  generalize s.stage item = stage at hresult hcalls
  cases stage with
  | declared => exact hs.conduct_ended hresult hcalls
  | invalid e => exact hs.conduct_ended hresult hcalls
  | unlinked e => exact hs.conduct_ended hresult hcalls
  | defined fn => exact hs.conduct_ended hresult hcalls
  | ready fn =>
    ext l r
    · rw [hs.ends_iff]
      simp only [hresult, hcalls, Conduct.map, Image.conduct, Option.map_eq_some_iff]
      constructor
      · rintro ⟨fuel, ⟨stop, hstop, hr⟩, hl⟩
        exact ⟨stop.result, ⟨fuel, stop, hstop, rfl, hl⟩, hr⟩
      · rintro ⟨_, ⟨fuel, stop, hstop, rfl, hl⟩, hr⟩
        exact ⟨fuel, ⟨stop, hstop, hr⟩, hl⟩
    · simp only [conduct, hcalls, Conduct.map, Image.conduct]

end Session

end ScalarLang
