import ScalarLang.Proofs.Conduct
import ScalarLang.Proofs.Machine.Safety

/-! What the run of a frame shows. While a frame is there, the machine follows the function whose
code it runs, and its calls are runs of frames above it. So the conduct of a frame is that of its
function, put together from the conducts of the calls, whatever waits below. -/

namespace ScalarLang

open Bytecode (Chunk Import Line Lowers Tracks fetch)
open IR (Func)

/-- How a run goes on after a step. -/
def Step.outcome : Step → Machine ⊕ Except RuntimeError Float
  | .next m => .inl m
  | .stop s => .inr s.result

namespace Machine

/-! ### Runs above waiting frames -/

/-- The value that the current frame returns, if it does so now and there are `w` waiting ones. -/
def returned? (w : Nat) (m : Machine) : Option Float :=
  match fetch m.frame.fn.chunk.code m.frame.ip with
  | .instr (.ret src) => if m.waiting.length = w then m.register? src else none
  | _ => none

/-- The call of a host function that the next step makes. -/
def hostCall (image : Image) (m : Machine) : List Call :=
  match fetch m.frame.fn.chunk.code m.frame.ip with
  | .instr (.call _ index first) =>
    match m.frame.fn.chunk.imports[index.toNat]?, m.frame.fn.imports[index.toNat]? with
    | some i, some bound =>
      if m.registers.size < m.frame.base + first.toNat + i.arity then []
      else match image.reach i bound with
        | .ok (.host h) => [⟨h.name, m.callArgs first i.arity⟩]
        | _ => []
    | _, _ => []
  | _ => []

/-- One step of the run that ends where the frame above `w` waiting ones returns. -/
def stepAbove (image : Image) (maxDepth w : Nat) (m : Machine) :
    List Call × (Machine ⊕ Except RuntimeError Float) :=
  match m.returned? w with
  | some v => ([], .inr (.ok v))
  | none => (m.hostCall image, (m.step image maxDepth).outcome)

/-- What the run of the frame above `w` waiting ones shows. -/
def conduct (image : Image) (maxDepth w : Nat) (m : Machine) : Conduct (Except RuntimeError Float) :=
  .of (stepAbove image maxDepth w) m

abbrev GoesAbove (image : Image) (maxDepth w : Nat) :
    Nat → Machine → List Call → Machine → Prop := Conduct.Goes (stepAbove image maxDepth w)

variable {image : Image} {maxDepth w n k : Nat} {m m' m₁ m₂ : Machine} {l : List Call}

theorem returned?_eq_some {v : Float} :
    m.returned? w = some v ↔ m.waiting.length = w ∧
      ∃ src, fetch m.frame.fn.chunk.code m.frame.ip = .instr (.ret src) ∧
        m.register? src = some v := by
  unfold returned?
  split
  · next src hi =>
    split
    · next hw => simp [hw, hi]
    · next hw => simp [hw]
  · next hi =>
    simp only [reduceCtorEq, false_iff, not_and, not_exists]
    exact fun _ src h _ => hi src h

theorem returned?_of_ne {w : Nat} (h : m.waiting.length ≠ w) : m.returned? w = none := by
  cases hr : m.returned? w with
  | none => rfl
  | some v => exact absurd (returned?_eq_some.1 hr).1 h

/-- A step within the frame shows nothing. -/
theorem stepAbove_of_act (h : m.act image maxDepth = .next (.next m')) :
    stepAbove image maxDepth w m = ([], .inl m') := by
  have hstep := (advances_of_act h).1
  have hcall {dst index first : UInt16}
      (hi : fetch m.frame.fn.chunk.code m.frame.ip = .instr (.call dst index first)) : False := by
    simp only [act, hi] at h
    split at h
    · split at h <;> cases h
    · cases h
  have hreturned : m.returned? w = none := by
    cases hr : m.returned? w with
    | none => rfl
    | some v =>
      obtain ⟨-, src, hi, hv⟩ := returned?_eq_some.1 hr
      simp only [act, hi, hv] at h
      cases h
  have hhost : m.hostCall image = [] := by
    unfold hostCall
    split
    · next hi => exact (hcall hi).elim
    · rfl
  simp only [stepAbove, hreturned, hhost, hstep, Step.outcome]

/-- A call shows the host function that it calls. -/
theorem stepAbove_call {dst index first : UInt16} {i : Import} {bound : Option Address}
    (hi : fetch m.frame.fn.chunk.code m.frame.ip = .instr (.call dst index first))
    (himport : m.frame.fn.chunk.imports[index.toNat]? = some i)
    (hbound : m.frame.fn.imports[index.toNat]? = some bound)
    (hsize : m.frame.base + first.toNat + i.arity ≤ m.registers.size) :
    stepAbove image maxDepth w m =
      match image.reach i bound with
      | .error e => ([], .inr (.error e))
      | .ok (.host h) => ([⟨h.name, m.callArgs first i.arity⟩],
          (m.callHost h (m.callArgs first i.arity) dst (m.frame.ip + 7)).outcome)
      | .ok (.compiled _ fn) =>
        ([], (m.enter maxDepth fn (m.callArgs first i.arity) dst (m.frame.ip + 7)).outcome) := by
  have hreturned : m.returned? w = none := by simp only [returned?, hi]
  simp only [stepAbove, hreturned, step_call hi himport hbound hsize, hostCall, hi, himport,
    hbound, Nat.not_lt.2 hsize, if_false]
  cases image.reach i bound with
  | error e => rfl
  | ok callee => cases callee <;> rfl

theorem stepAbove_ret {src : UInt16} {v : Float}
    (hi : fetch m.frame.fn.chunk.code m.frame.ip = .instr (.ret src))
    (hv : m.register? src = some v) (hw : m.waiting.length ≠ w) :
    stepAbove image maxDepth w m = ([], (m.leave v).outcome) := by
  simp only [stepAbove, returned?_of_ne hw, hostCall, hi, step_ret hi hv]

/-! ### Silent steps -/

/-- Steps that make no call are steps of the machine within the frame. -/
theorem goes_of_silentPlus {q : Step} (h : (m₁.process image maxDepth).SilentPlus (.next m) q) :
    (∃ s, q = .stop s) ∨ ∃ m' k, q = .next m' ∧ 0 < k ∧ GoesAbove image maxDepth w k m [] m' ∧
      m.Advances m' ∧ ∀ f, m.Sits f → m'.Sits f := by
  have single {m m' : Machine} (hact : m.act image maxDepth = .next (.next m')) :
      GoesAbove image maxDepth w 1 m [] m' ∧ m.Advances m' ∧ ∀ f, m.Sits f → m'.Sits f := by
    refine ⟨.single (stepAbove_of_act hact), (advances_of_act hact).2.1, fun f hf => ?_⟩
    have hdoing : Doing f image maxDepth m := hf.doing
    cases hdoing with
    | act hact' hsits =>
      cases hact.symm.trans hact'
      exact hsits
    | call hi himport =>
      simp only [act, hi, himport] at hact
      split at hact <;> cases hact
    | ret hi hv =>
      simp only [act, hi, hv] at hact
      cases hact
  induction h with
  | @single q hq =>
    cases q with
    | stop s => exact .inl ⟨s, rfl⟩
    | next m' =>
      obtain ⟨hgoes, hadv, hsits⟩ := single hq
      exact .inr ⟨m', 1, rfl, Nat.one_pos, hgoes, hadv, hsits⟩
  | @tail q q' _ hq ih =>
    rcases ih with ⟨s, rfl⟩ | ⟨m', k, rfl, hk, hgoes, hadv, hsits⟩
    · cases hq
    · cases q' with
      | stop s => exact .inl ⟨s, rfl⟩
      | next m'' =>
        obtain ⟨hgoes', hadv', hsits'⟩ := single hq
        exact .inr ⟨m'', k + 1, rfl, Nat.succ_pos k, hgoes.trans hgoes', hadv.trans hadv',
          fun f hf => hsits' f (hsits f hf)⟩

theorem goes_of_silent {q : Step} (h : (m₁.process image maxDepth).Silent (.next m) q) :
    (∃ s, q = .stop s) ∨ ∃ m' k, q = .next m' ∧ GoesAbove image maxDepth w k m [] m' ∧
      m.Advances m' ∧ ∀ f, m.Sits f → m'.Sits f := by
  rcases Relation.reflTransGen_iff_eq_or_transGen.1 h with rfl | h
  · exact .inr ⟨m, 0, rfl, .zero m, .refl m, fun _ h => h⟩
  · rcases goes_of_silentPlus h with hstop | ⟨m', k, rfl, -, hgoes⟩
    · exact .inl hstop
    · exact .inr ⟨m', k, rfl, hgoes⟩

/-! ### Frames above frames -/

/-- A step keeps the waiting frames, adds one, or returns to the innermost. -/
theorem waiting_of_step (h : m.step image maxDepth = .next m') :
    m'.waiting = m.waiting ∨ (∃ fr, m'.waiting = fr :: m.waiting) ∨
      (∃ fr, m.waiting = fr :: m'.waiting) ∧ ∃ v, m.returned? m.waiting.length = some v := by
  have quiet (hact : m.act image maxDepth = .next (m.step image maxDepth)) :
      m'.waiting = m.waiting := by
    rw [h] at hact
    exact (advances_of_act hact).2.1.waiting
  cases hi : fetch m.frame.fn.chunk.code m.frame.ip with
  | instr i =>
    cases i with
    | call dst index first =>
      simp only [Machine.step, hi, exec, call] at h
      split at h
      · split at h
        · cases h
        · split at h
          · cases h
          · split at h
            · split at h
              · cases h
              · split at h
                · exact .inl (advances_assign h).1.waiting
                · cases h
            · split at h
              · cases h
              · split at h
                · unfold enter at h
                  split at h
                  · cases h
                  · cases h
                    exact .inr (.inl ⟨_, by simp [waiting]; rfl⟩)
                · cases h
      · cases h
    | ret src =>
      simp only [Machine.step, hi, exec] at h
      split at h
      · cases h
      · next v hv =>
        have hleave := m.leave_eq v
        split at hleave
        · cases hleave.symm.trans h
        · next fr frs hw =>
          obtain ⟨callers, hcallers, hleave⟩ := hleave
          have hadv := (advances_assign (hleave.symm.trans h)).1
          refine .inr (.inr ⟨⟨fr, ?_⟩, v, returned?_eq_some.2 ⟨rfl, src, hi, hv⟩⟩)
          rw [hw, hadv.waiting, waiting, hcallers]
    | _ => exact .inl (quiet (by simp only [act, hi]))
  | _ => exact .inl (quiet (by simp only [act, hi]))

/-- As long as the upper frame does not return, it makes no difference which one the run is to end
with. -/
theorem stepAbove_of_succ {x : Machine ⊕ Except RuntimeError Float} (hw : w < m.waiting.length)
    (h : stepAbove image maxDepth (w + 1) m = (l, x)) (hx : ∀ v, x ≠ .inr (.ok v)) :
    stepAbove image maxDepth w m = (l, x) ∧ ∀ m', x = .inl m' → w < m'.waiting.length := by
  have hreturned : m.returned? (w + 1) = none := by
    cases hr : m.returned? (w + 1) with
    | none => rfl
    | some v =>
      simp only [stepAbove, hr, Prod.mk.injEq] at h
      exact absurd h.2.symm (hx v)
  have hsame : stepAbove image maxDepth w m = stepAbove image maxDepth (w + 1) m := by
    simp only [stepAbove, hreturned, returned?_of_ne hw.ne']
  refine ⟨hsame.trans h, ?_⟩
  rintro m' rfl
  have hstep : m.step image maxDepth = .next m' := by
    simp only [stepAbove, hreturned, Prod.mk.injEq] at h
    cases hs : m.step image maxDepth with
    | next m₁ =>
      simp only [hs, Step.outcome, Sum.inl.injEq] at h
      rw [h.2]
    | stop s => simp [hs, Step.outcome] at h
  rcases waiting_of_step hstep with hsame | ⟨fr, hpush⟩ | ⟨⟨fr, hpop⟩, v, hv⟩
  · rwa [hsame]
  · rw [hpush, List.length_cons]
    omega
  · rw [hpop, List.length_cons] at hw
    by_contra hle
    have hlength : m.waiting.length = w + 1 := by
      rw [hpop, List.length_cons]
      omega
    rw [hlength, hreturned] at hv
    cases hv

theorem goes_of_succ (h : GoesAbove image maxDepth (w + 1) n m l m') (hw : w < m.waiting.length) :
    GoesAbove image maxDepth w n m l m' ∧ w < m'.waiting.length := by
  induction h with
  | zero m => exact ⟨.zero m, hw⟩
  | succ hs _ ih =>
    obtain ⟨hs', hw'⟩ := stepAbove_of_succ hw hs nofun
    obtain ⟨hgoes, hlast⟩ := ih (hw' _ rfl)
    exact ⟨.succ hs' hgoes, hlast⟩

theorem ends_of_succ {e : RuntimeError}
    (h : (m.conduct image maxDepth (w + 1)).ends l (.error e)) (hw : w < m.waiting.length) :
    (m.conduct image maxDepth w).ends l (.error e) := by
  obtain ⟨k, l₁, l₂, m', hgoes, hlast, rfl⟩ := Conduct.exists_last h
  obtain ⟨hgoes, hw'⟩ := goes_of_succ hgoes hw
  exact hgoes.ends (Conduct.ends_of_step (stepAbove_of_succ hw' hlast nofun).1)

/-! ### Calls -/

/-- The machine makes a call of which `c` is the conduct. After a value, the frame goes on. -/
structure Serves (image : Image) (maxDepth w : Nat) (m : Machine)
    (c : Conduct (Except RuntimeError Float)) (resumes : Float → Machine → Prop) : Prop where
  ok {l : List Call} {v : Float} : c.ends l (.ok v) →
    ∃ k m', 0 < k ∧ GoesAbove image maxDepth w k m l m' ∧ m.Advances m' ∧ resumes v m'
  error {l : List Call} {e : RuntimeError} : c.ends l (.error e) →
    (m.conduct image maxDepth w).ends l (.error e)
  shows {l : List Call} : c.shows l → (m.conduct image maxDepth w).shows l
  total : (∃ l r, c.ends l r ∧ ∀ l', l' <+: l → c.shows l') ∨
    ∀ n, ∃ k l m', n ≤ k ∧ GoesAbove image maxDepth w k m l m' ∧ ∀ l', l' <+: l → c.shows l'
  unique {l l' : List Call} {r r' : Except RuntimeError Float} : c.ends l r → c.ends l' r' →
    l = l' ∧ r = r'

variable {resumes : Float → Machine → Prop}

theorem serves_ended {e : RuntimeError}
    (h : stepAbove image maxDepth w m = ([], .inr (.error e))) :
    Serves image maxDepth w m (.ended (.error e)) resumes where
  ok h := nomatch h.2
  error := by
    rintro l e' ⟨rfl, he⟩
    cases he
    exact Conduct.ends_of_step h
  shows := by
    rintro l rfl
    exact ⟨0, List.nil_prefix⟩
  total := .inl ⟨[], _, ⟨rfl, rfl⟩, fun l' hl => List.prefix_nil.1 hl⟩
  unique h h' := ⟨h.1.trans h'.1.symm, h.2.trans h'.2.symm⟩

theorem serves_single {c : Call} {v : Float}
    (h : stepAbove image maxDepth w m = ([c], .inl m')) (hadv : m.Advances m')
    (hm' : resumes v m') : Serves image maxDepth w m (.single c (.ok v)) resumes where
  ok := by
    rintro l v' ⟨rfl, hv⟩
    cases hv
    exact ⟨1, m', Nat.one_pos, .single h, hadv, hm'⟩
  error h := nomatch h.2
  shows hl := (Conduct.Goes.single h).shows_within hl
  total := .inl ⟨[c], _, ⟨rfl, rfl⟩, fun l' hl => hl⟩
  unique h h' := ⟨h.1.trans h'.1.symm, h.2.trans h'.2.symm⟩

theorem serves_frame (h : stepAbove image maxDepth w m = ([], .inl m₁))
    (hw : w < m₁.waiting.length)
    (hok : ∀ {l v}, (m₁.conduct image maxDepth (w + 1)).ends l (.ok v) →
      ∃ k m₂ m', GoesAbove image maxDepth (w + 1) k m₁ l m₂ ∧
        stepAbove image maxDepth w m₂ = ([], .inl m') ∧ m.Advances m' ∧ resumes v m') :
    Serves image maxDepth w m (m₁.conduct image maxDepth (w + 1)) resumes where
  ok {l v} hv := by
    obtain ⟨k, m₂, m', hgoes, hlast, hadv, hm'⟩ := hok hv
    have hpath := ((Conduct.Goes.single h).trans (goes_of_succ hgoes hw).1).trans (.single hlast)
    simp only [List.nil_append, List.append_nil] at hpath
    exact ⟨_, m', by omega, hpath, hadv, hm'⟩
  error he := (Conduct.Goes.single h).ends (ends_of_succ he hw)
  shows {l} hl := by
    apply (Conduct.Goes.single h).shows
    rcases Conduct.ends_or_goes (stepAbove image maxDepth (w + 1)) m₁ with ⟨l', r, hr⟩ | hgoes
    · have hl' := (Conduct.shows_iff_of_ends hr).1 hl
      cases r with
      | ok v =>
        obtain ⟨k, m₂, m', hgoes, -⟩ := hok hr
        exact (goes_of_succ hgoes hw).1.shows_within hl'
      | error e => exact (Conduct.shows_iff_of_ends (ends_of_succ hr hw)).2 hl'
    · obtain ⟨n, hn⟩ := hl
      obtain ⟨l', m', hgoes⟩ := hgoes n
      refine (goes_of_succ hgoes hw).1.shows_within (hn.trans ?_)
      rw [show n = n + 0 from rfl, hgoes.run 0]
      simp [Conduct.run]
  total := by
    rcases Conduct.ends_or_goes (stepAbove image maxDepth (w + 1)) m₁ with ⟨l, r, hr⟩ | hgoes
    · exact .inl ⟨l, r, hr, fun l' hl => (Conduct.shows_iff_of_ends hr).2 hl⟩
    · refine .inr fun n => ?_
      obtain ⟨l, m', hm'⟩ := hgoes n
      have hpath := (Conduct.Goes.single h).trans (goes_of_succ hm' hw).1
      exact ⟨_, _, m', by omega, hpath, fun l' hl => hm'.shows_within hl⟩
  unique h h' := Conduct.ends_unique h h'

/-! ### Following a process -/

/-- The machine follows the process: related states make the same steps, calls are made as `call`
says, and the frame returns the value that the process ends with. -/
structure Follows (image : Image) (maxDepth w : Nat) (p : Process)
    (call : Call → Conduct (Except RuntimeError Float)) (rel : p.State → Machine → Prop) :
    Prop where
  next {s s₁ : p.State} {m : Machine} : rel s m → p.step s = .next s₁ →
    ∃ k m', 0 < k ∧ GoesAbove image maxDepth w k m [] m' ∧ m.Advances m' ∧ rel s₁ m'
  ask {s : p.State} {m : Machine} {c : Call} {resume : Float → p.State} : rel s m →
    p.step s = .ask c resume → ∃ k m₁, GoesAbove image maxDepth w k m [] m₁ ∧ m.Advances m₁ ∧
      Serves image maxDepth w m₁ (call c) fun v m₂ => rel (resume v) m₂
  done {s : p.State} {m : Machine} {v : Float} : rel s m → p.step s = .done v →
    m.returned? w = some v
  not_stuck {s : p.State} {m : Machine} : rel s m → p.step s ≠ .stuck

namespace Follows

variable {p : Process} {call : Call → Conduct (Except RuntimeError Float)}
  {rel : p.State → Machine → Prop} {o : Oracle} {s : p.State} {t : Trace}
  (h : Follows image maxDepth w p call rel) (hm : rel p.start m)
include h hm

/-- While all calls are answered as the oracle says, the machine goes with the process. -/
theorem goes (hrun : p.run o n (p.start, []) = some (s, t)) (ha : Answered call t l) :
    ∃ k m', n ≤ k ∧ GoesAbove image maxDepth w k m l m' ∧ m.Advances m' ∧ rel s m' := by
  induction n generalizing s t l with
  | zero =>
    cases hrun
    generalize hu : ([] : Trace) = u at ha
    cases ha with
    | nil => exact ⟨0, m, Nat.le_refl 0, .zero m, .refl m, hm⟩
    | snoc => simp at hu
  | succ n ih =>
    obtain ⟨⟨s₁, t₁⟩, hrun₁, hlast⟩ := Process.run_split hrun
    rw [Process.run_one] at hlast
    cases hs : p.step s₁ with
    | next s₂ =>
      rw [Process.Moves.advance hs] at hlast
      cases hlast
      obtain ⟨k, m', hk, hgoes, hadv, hrel⟩ := ih hrun₁ ha
      obtain ⟨j, m₂, hj, hgoes', hadv', hrel'⟩ := h.next hrel hs
      have hpath := hgoes.trans hgoes'
      rw [List.append_nil] at hpath
      exact ⟨k + j, m₂, by omega, hpath, hadv.trans hadv', hrel'⟩
    | ask c resume =>
      rw [Process.advance_ask hs] at hlast
      cases hlast
      obtain ⟨l₁, l₂, rfl, ha, hc⟩ := ha.of_snoc
      obtain ⟨k, m', hk, hgoes, hadv, hrel⟩ := ih hrun₁ ha
      obtain ⟨j, m₁, hgoes₁, hadv₁, hserves⟩ := h.ask hrel hs
      obtain ⟨i, m₂, hi, hgoes₂, hadv₂, hrel₂⟩ := hserves.ok hc
      have hpath := (hgoes.trans hgoes₁).trans hgoes₂
      rw [List.append_nil] at hpath
      exact ⟨k + j + i, m₂, by omega, hpath, (hadv.trans hadv₁).trans hadv₂, hrel₂⟩
    | done v => simp [Process.advance, hs] at hlast
    | stuck => simp [Process.advance, hs] at hlast

theorem goes_of_returns {v : Float} (hb : (p.behaviour o).returns t v) (ha : Answered call t l) :
    ∃ k m', GoesAbove image maxDepth w k m l m' ∧ m.Advances m' ∧ m'.returned? w = some v := by
  obtain ⟨n, s, hrun, hs⟩ := hb
  obtain ⟨k, m', -, hgoes, hadv, hrel⟩ := h.goes hm hrun ha
  exact ⟨k, m', hgoes, hadv, h.done hrel hs⟩

/-- Where the process asks for a call, the machine makes it. -/
theorem serves {c : Call} {v : Float} (hb : (p.behaviour o).calls (t ++ [(c, v)]))
    (ha : Answered call t l) :
    ∃ k m' resumes, GoesAbove image maxDepth w k m l m' ∧
      Serves image maxDepth w m' (call c) resumes := by
  obtain ⟨n, s, hrun⟩ := hb
  obtain ⟨j, s₁, resume, hrun, hs⟩ := Process.exists_ask hrun List.nil_prefix
  obtain ⟨k, m', -, hgoes, -, hrel⟩ := h.goes hm hrun ha
  obtain ⟨i, m₁, hgoes₁, -, hserves⟩ := h.ask hrel hs
  have hpath := hgoes.trans hgoes₁
  rw [List.append_nil] at hpath
  exact ⟨k + i, m₁, _, hpath, hserves⟩

theorem ends {r : Except RuntimeError Float}
    (he : ((p.behaviour o).conduct call).ends l r) : (m.conduct image maxDepth w).ends l r := by
  cases r with
  | ok v =>
    obtain ⟨t, hb, ha⟩ := he
    obtain ⟨k, m', hgoes, -, hv⟩ := h.goes_of_returns hm hb ha
    have hlast : stepAbove image maxDepth w m' = ([], .inr (.ok v)) := by
      simp only [stepAbove, hv]
    have hends := hgoes.ends (Conduct.ends_of_step hlast)
    rwa [List.append_nil] at hends
  | error e =>
    obtain ⟨t, c, v, l₁, l₂, hb, ha, hc, rfl⟩ := he
    obtain ⟨k, m', resumes, hgoes, hserves⟩ := h.serves hm hb ha
    exact hgoes.ends (hserves.error hc)

theorem shows (hl : ((p.behaviour o).conduct call).shows l) :
    (m.conduct image maxDepth w).shows l := by
  obtain ⟨t, l₁, ⟨n, s, hrun⟩, ha, hl | ⟨c, v, l₂, hb, hc, hl⟩⟩ := hl
  · obtain ⟨k, m', -, hgoes, -⟩ := h.goes hm hrun ha
    exact hgoes.shows_within hl
  · obtain ⟨k, m', resumes, hgoes, hserves⟩ := h.serves hm hb ha
    exact Conduct.shows_of_prefix (hgoes.shows (hserves.shows hc)) hl

/-- If every call that is asked for ends with a value, all calls of the process are answered. -/
theorem answered (hcalls : ∀ n s t l c resume,
      p.run (callOracle call) n (p.start, []) = some (s, t) → Answered call t l →
      p.step s = .ask c resume → ∃ l' v, (call c).ends l' (.ok v))
    (hrun : p.run (callOracle call) n (p.start, []) = some (s, t)) : ∃ l, Answered call t l := by
  induction n generalizing s t with
  | zero =>
    cases hrun
    exact ⟨[], .nil⟩
  | succ n ih =>
    obtain ⟨⟨s₁, t₁⟩, hrun₁, hlast⟩ := Process.run_split hrun
    rw [Process.run_one] at hlast
    obtain ⟨l, ha⟩ := ih hrun₁
    cases hs : p.step s₁ with
    | next s₂ =>
      rw [Process.Moves.advance hs] at hlast
      cases hlast
      exact ⟨l, ha⟩
    | ask c resume =>
      rw [Process.advance_ask hs] at hlast
      cases hlast
      obtain ⟨l', v, hc⟩ := hcalls n s₁ t₁ l c resume hrun₁ ha hs
      obtain ⟨k, m', -, -, -, hrel⟩ := h.goes hm hrun₁ ha
      obtain ⟨j, m₁, -, -, hserves⟩ := h.ask hrel hs
      rw [callOracle_eq t₁ hserves.unique hc]
      exact ⟨l ++ l', .snoc ha hc⟩
    | done v => simp [Process.advance, hs] at hlast
    | stuck => simp [Process.advance, hs] at hlast

theorem total : (∃ l r, ((p.behaviour (callOracle call)).conduct call).ends l r ∧
      ∀ l', l' <+: l → ((p.behaviour (callOracle call)).conduct call).shows l') ∨
    ∀ n, ∃ k l m', n ≤ k ∧ GoesAbove image maxDepth w k m l m' ∧
      ∀ l', l' <+: l → ((p.behaviour (callOracle call)).conduct call).shows l' := by
  by_cases hcalls : ∀ n s t l c resume,
      p.run (callOracle call) n (p.start, []) = some (s, t) → Answered call t l →
      p.step s = .ask c resume → ∃ l' v, (call c).ends l' (.ok v)
  · rcases p.returns_fails_or_diverges (callOracle call) with ⟨t, v, hb⟩ | ⟨t, n, s, hrun, hs⟩ | hd
    · obtain ⟨n, s, hrun, -⟩ := id hb
      obtain ⟨l, ha⟩ := h.answered hm hcalls hrun
      exact .inl ⟨l, .ok v, ⟨t, hb, ha⟩, fun l' hl => ⟨t, l, ⟨n, s, hrun⟩, ha, .inl hl⟩⟩
    · obtain ⟨l, ha⟩ := h.answered hm hcalls hrun
      obtain ⟨k, m', -, -, -, hrel⟩ := h.goes hm hrun ha
      exact absurd hs (h.not_stuck hrel)
    · refine .inr fun n => ?_
      obtain ⟨⟨s, t⟩, hrun⟩ := Option.isSome_iff_exists.1 (hd n)
      obtain ⟨l, ha⟩ := h.answered hm hcalls hrun
      obtain ⟨k, m', hk, hgoes, -⟩ := h.goes hm hrun ha
      exact ⟨k, l, m', hk, hgoes, fun l' hl => ⟨t, l, ⟨n, s, hrun⟩, ha, .inl hl⟩⟩
  · -- the first call that ends with no value is the last thing that is seen
    push Not at hcalls
    obtain ⟨n, s, t, l, c, resume, hrun, ha, hs, hnone⟩ := hcalls
    have hcalled : (p.behaviour (callOracle call)).calls (t ++ [(c, callOracle call t c)]) :=
      ⟨n + 1, _, Process.run_trans hrun (by rw [Process.run_one, Process.advance_ask hs])⟩
    have hshown {l₂ l' : List Call} (hc : (call c).shows l₂) (hl : l' <+: l ++ l₂) :
        ((p.behaviour (callOracle call)).conduct call).shows l' :=
      ⟨t, l, ⟨n, s, hrun⟩, ha, .inr ⟨c, _, l₂, hcalled, hc, hl⟩⟩
    obtain ⟨k, m', resumes, hgoes, hserves⟩ := h.serves hm hcalled ha
    rcases hserves.total with ⟨l₂, r, hc, hc'⟩ | hc
    · cases r with
      | ok v => exact absurd hc (hnone l₂ v)
      | error e =>
        exact .inl ⟨l ++ l₂, .error e, ⟨t, c, _, l, l₂, hcalled, ha, hc, rfl⟩,
          fun l' hl => hshown (hc' l₂ List.prefix_rfl) hl⟩
    · refine .inr fun n => ?_
      obtain ⟨j, l₂, m₂, hj, hgoes₂, hc'⟩ := hc n
      exact ⟨k + j, l ++ l₂, m₂, by omega, hgoes.trans hgoes₂,
        fun l' hl => hshown (hc' l₂ List.prefix_rfl) hl⟩

/-- The frame shows what the process shows whose calls are made like this. -/
theorem conduct_eq : m.conduct image maxDepth w =
    (p.behaviour (callOracle call)).conduct call :=
  (Conduct.Describes.eq ⟨h.ends hm, h.shows hm, h.total hm⟩).symm

theorem goes_of_ends {v : Float} (he : (m.conduct image maxDepth w).ends l (.ok v)) :
    ∃ k m', GoesAbove image maxDepth w k m l m' ∧ m.Advances m' ∧ m'.returned? w = some v := by
  rw [h.conduct_eq hm] at he
  obtain ⟨t, hb, ha⟩ := he
  exact h.goes_of_returns hm hb ha

end Follows

end Machine

end ScalarLang
