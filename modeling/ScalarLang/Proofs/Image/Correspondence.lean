import ScalarLang.Proofs.Image.Conduct

/-! Images that do the same. Functions of two images may lie at different places and have different
code. If functions that correspond behave alike and their calls lead to functions that correspond,
calls of them end alike, after the same calls of host functions. -/

namespace ScalarLang

open Bytecode (Import)
open IR (Func)

/-! ### The conduct of a call -/

/-- The calls of host functions in the first steps. -/
def Machine.hostCalls (image : Image) (maxDepth : Nat) : (fuel : Nat) → Machine → List Call
  | 0, _ => []
  | fuel + 1, m => m.hostCall image ++
    match m.step image maxDepth with
    | .next m => hostCalls image maxDepth fuel m
    | .stop _ => []

/-- The calls of host functions that a call makes within the fuel. -/
def Image.hostCalls (image : Image) (maxDepth fuel : Nat) (address : Address)
    (args : List Float) : List Call :=
  match address with
  | .host k =>
    match image.host? k with
    | some h => if h.arity = args.length then [⟨h.name, args⟩] else []
    | none => []
  | .compiled k =>
    match image.compiled? k with
    | some fn =>
      if fn.arity = args.length then (Machine.start fn args).hostCalls image maxDepth fuel else []
    | none => []

/-- What a call shows. -/
def Image.conduct (image : Image) (maxDepth : Nat) (address : Address) (args : List Float) :
    Conduct (Except RuntimeError Float) where
  ends l r := ∃ fuel stop, image.call maxDepth fuel address args = some stop ∧ stop.result = r ∧
    image.hostCalls maxDepth fuel address args = l
  shows l := ∃ fuel, l <+: image.hostCalls maxDepth fuel address args

namespace Machine

variable {image : Image} {maxDepth : Nat}

/-- With no frame waiting, the run ends where the machine stops. -/
theorem run_stepAbove (fuel : Nat) (m : Machine) :
    Conduct.run (stepAbove image maxDepth 0) fuel m =
      (m.hostCalls image maxDepth fuel, (m.run image maxDepth fuel).map (·.result)) := by
  induction fuel generalizing m with
  | zero => rfl
  | succ fuel ih =>
    rw [Conduct.run, hostCalls, Machine.run]
    cases hr : m.returned? 0 with
    | some v =>
      obtain ⟨hw, src, hi, hv⟩ := returned?_eq_some.1 hr
      have hleave := m.leave_eq v
      rw [List.eq_nil_of_length_eq_zero hw] at hleave
      simp [stepAbove, hr, step_ret hi hv, hleave, hostCall, hi]
    | none =>
      simp only [stepAbove, hr]
      cases m.step image maxDepth with
      | next m' => simp [Step.outcome, ih]
      | stop s => simp [Step.outcome]

end Machine

namespace Image

variable {image image' : Image} {maxDepth k : Nat} {args : List Float}

theorem conduct_compiled {fn : LinkedFn} (hfn : image.compiled? k = some fn)
    (hargs : fn.arity = args.length) :
    image.conduct maxDepth (.compiled k) args =
      (Machine.fresh 0 fn args).conduct image maxDepth 0 := by
  have hstart : Machine.fresh 0 fn args = Machine.start fn args := rfl
  ext l r
  · simp only [conduct, Machine.conduct, Conduct.of, hstart, Machine.run_stepAbove, Image.call,
      hostCalls, hfn, hargs, if_true, Prod.mk.injEq, Option.map_eq_some_iff]
    refine exists_congr fun fuel => ?_
    constructor
    · rintro ⟨stop, hstop, hr, hl⟩
      exact ⟨hl, stop, hstop, hr⟩
    · rintro ⟨hl, stop, hstop, hr⟩
      exact ⟨stop, hstop, hr, hl⟩
  · simp only [conduct, Machine.conduct, Conduct.of, hstart, Machine.run_stepAbove, hostCalls, hfn,
      hargs, if_true]

end Image

/-! ### Correspondence -/

variable {R : Nat → Nat → Prop}

theorem optionRel_cases {α β : Type} {r : α → β → Prop} {x : Option α} {y : Option β}
    (h : Option.Rel r x y) : x = none ∧ y = none ∨ ∃ a b, x = some a ∧ y = some b ∧ r a b := by
  cases h with
  | none => exact .inl ⟨rfl, rfl⟩
  | some h => exact .inr ⟨_, _, rfl, rfl, h⟩

/-- Addresses of functions that correspond. -/
inductive Address.Rel (R : Nat → Nat → Prop) : Address → Address → Prop where
  | compiled {k k' : Nat} (h : R k k') : Rel R (.compiled k) (.compiled k')
  | host (k : Nat) : Rel R (.host k) (.host k)

/-- Functions that behave alike, and whose imports are bound to functions that correspond. -/
structure LinkedFn.Alike (R : Nat → Nat → Prop) (fn fn' : LinkedFn) : Prop where
  name : fn'.name = fn.name
  arity : fn'.arity = fn.arity
  implement : ∃ f f' bound bound', fn.Implements f bound ∧ fn'.Implements f' bound' ∧
    (∀ args o, args.length = f.arity →
      (f'.process args).behaviour o = (f.process args).behaviour o) ∧
    ∀ name, Option.Rel (Address.Rel R) (bound name) (bound' name)

inductive Callee.Rel (R : Nat → Nat → Prop) : Callee → Callee → Prop where
  | compiled {k k' : Nat} {fn fn' : LinkedFn} (hfn : fn.Alike R fn') :
      Rel R (.compiled k fn) (.compiled k' fn')
  | host (h : HostFn) : Rel R (.host h) (.host h)

theorem Callee.Rel.name {c c' : Callee} (h : c.Rel R c') : c'.name = c.name := by
  cases h with
  | compiled hfn => exact hfn.name
  | host h => rfl

theorem Callee.Rel.arity {c c' : Callee} (h : c.Rel R c') : c'.arity = c.arity := by
  cases h with
  | compiled hfn => exact hfn.arity
  | host h => rfl

/-- Functions of the images that `R` relates do the same. -/
structure Image.Corresponds (R : Nat → Nat → Prop) (image image' : Image) : Prop where
  hosts : image'.hosts = image.hosts
  find (name : String) : Option.Rel (Address.Rel R) (image.find? name) (image'.find? name)
  loaded {k k' : Nat} : R k k' → ∃ fn fn', image.compiled? k = some fn ∧
    image'.compiled? k' = some fn' ∧ fn.Alike R fn'
  implemented : image.Implemented
  implemented' : image'.Implemented

namespace Image.Corresponds

variable {image image' : Image} (h : image.Corresponds R image')
include h

theorem callee {a a' : Address} (ha : a.Rel R a') :
    Option.Rel (Callee.Rel R) (image.callee? a) (image'.callee? a') := by
  cases ha with
  | compiled hk =>
    obtain ⟨fn, fn', hfn, hfn', halike⟩ := h.loaded hk
    simp only [callee?, hfn, hfn', Option.map_some]
    exact .some (.compiled halike)
  | host k =>
    simp only [callee?, host?, h.hosts]
    cases image.hosts[k]? with
    | none => exact .none
    | some host => exact .some (.host host)

theorem target (i : Import) {bound bound' : Option Address}
    (hbound : Option.Rel (Address.Rel R) bound bound') :
    (∃ e, Machine.callTarget image i bound = .error e ∧
      Machine.callTarget image' i bound' = .error e) ∨
    ∃ a a', Machine.callTarget image i bound = .ok a ∧
      Machine.callTarget image' i bound' = .ok a' ∧ a.Rel R a' := by
  cases hbound with
  | some ha => exact .inr ⟨_, _, rfl, rfl, ha⟩
  | none =>
    simp only [Machine.callTarget, arity?_eq]
    rcases optionRel_cases (h.find i.name) with ⟨hf, hf'⟩ | ⟨a, a', hf, hf', ha⟩
    · rw [hf, hf']
      exact .inl ⟨_, rfl, rfl⟩
    · rw [hf, hf']
      rcases optionRel_cases (h.callee ha) with ⟨hc, hc'⟩ | ⟨c, c', hc, hc', hrel⟩
      · simp only [hc, hc', Option.map_none]
        exact .inl ⟨_, rfl, rfl⟩
      · simp only [hc, hc', Option.map_some, hrel.arity]
        split
        · exact .inr ⟨a, a', rfl, rfl, ha⟩
        · exact .inl ⟨_, rfl, rfl⟩

/-- Calls of imports that are bound alike reach functions that correspond, or fail alike. -/
theorem reach (i : Import) {bound bound' : Option Address}
    (hbound : Option.Rel (Address.Rel R) bound bound') :
    (∃ e, image.reach i bound = .error e ∧ image'.reach i bound' = .error e) ∨
      ∃ c c', image.reach i bound = .ok c ∧ image'.reach i bound' = .ok c' ∧ c.Rel R c' := by
  simp only [Image.reach]
  rcases h.target i hbound with ⟨e, he, he'⟩ | ⟨a, a', ha, ha', hrel⟩
  · exact .inl ⟨.link e, by rw [he], by rw [he']⟩
  · rw [ha, ha']
    rcases optionRel_cases (h.callee hrel) with ⟨hc, hc'⟩ | ⟨c, c', hc, hc', hrel⟩
    · simp only [hc, hc']
      exact .inl ⟨_, rfl, rfl⟩
    · simp only [hc, hc', hrel.name, hrel.arity]
      split
      · exact .inr ⟨c, c', rfl, rfl, hrel⟩
      · exact .inl ⟨_, rfl, rfl⟩

/-- Frames of functions that correspond show the same. -/
theorem conduct_fresh (maxDepth w : Nat) {fn fn' : LinkedFn} (hfn : fn.Alike R fn')
    {args : List Float} (hargs : args.length = fn.arity) :
    (Machine.fresh w fn' args).conduct image' maxDepth w =
      (Machine.fresh w fn args).conduct image maxDepth w := by
  -- calls are one frame deeper
  induction hd : maxDepth - w using Nat.strongRecOn generalizing w fn fn' args with
  | ind d ih =>
    obtain ⟨f, f', bound, bound', hf, hf', hbehaviour, hbound⟩ := hfn.implement
    have hcalls : Machine.callConduct image' maxDepth w bound' =
        Machine.callConduct image maxDepth w bound := by
      funext c
      unfold Machine.callConduct
      rcases h.reach ⟨c.callee, c.args.length⟩ (hbound c.callee) with
        ⟨e, he, he'⟩ | ⟨callee, callee', hc, hc', hrel⟩
      · rw [he, he']
      · have harity := (reach_eq_ok hc).choose_spec.2
        rw [hc, hc']
        cases hrel with
        | host host => rfl
        | compiled halike =>
          show (if maxDepth < w + 2 then _ else _) = if maxDepth < w + 2 then _ else _
          split
          · rfl
          · exact ih _ (by omega) (w + 1) halike harity.symm rfl
    rw [Machine.conduct_fresh h.implemented hf maxDepth w hargs,
      Machine.conduct_fresh h.implemented' hf' maxDepth w (hargs.trans hfn.arity.symm), hcalls,
      hbehaviour args _ (hargs.trans hf.arity)]

/-- Calls of functions that correspond cannot be told apart. -/
theorem conduct_eq (maxDepth : Nat) {a a' : Address} (ha : a.Rel R a') (args : List Float) :
    image'.conduct maxDepth a' args = image.conduct maxDepth a args := by
  cases ha with
  | host k => simp only [conduct, Image.call, hostCalls, host?, h.hosts]
  | @compiled k k' hk =>
    obtain ⟨fn, fn', hfn, hfn', halike⟩ := h.loaded hk
    by_cases hargs : fn.arity = args.length
    · rw [conduct_compiled hfn hargs, conduct_compiled hfn' (halike.arity.trans hargs)]
      exact h.conduct_fresh maxDepth 0 halike hargs.symm
    · simp only [conduct, Image.call, hostCalls, hfn, hfn', hargs, if_false, halike.name,
        halike.arity]

end Image.Corresponds

end ScalarLang
