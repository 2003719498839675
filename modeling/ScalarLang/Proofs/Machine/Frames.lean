import ScalarLang.Proofs.Bytecode.Frame

/-! The frames of the machine. A call reaches a function or fails, one way for all images; code that
makes no call stays in its frame; and what lies below a frame on the stack is not touched while the
frame is there. So the machine makes the steps of a frame's run, and answers its calls by functions
of the host and by frames of their own. -/

namespace ScalarLang

open Bytecode (Import Instr fetch)

/-! ### Functions that are called -/

/-- A function that can be called. -/
inductive Callee where
  | host (h : HostFn)
  | compiled (index : Nat) (fn : LinkedFn)

def Callee.name : Callee → String
  | host h => h.name
  | compiled _ fn => fn.name

def Callee.arity : Callee → Nat
  | host h => h.arity
  | compiled _ fn => fn.arity

namespace Image

/-- The function at an address. -/
def callee? (image : Image) : Address → Option Callee
  | .host k => (image.host? k).map .host
  | .compiled k => (image.compiled? k).map (.compiled k)

theorem arity?_eq (image : Image) (address : Address) :
    image.arity? address = (image.callee? address).map Callee.arity := by
  cases address with
  | compiled k => cases h : image.compiled? k <;> simp [arity?, callee?, h, Callee.arity]
  | host k => cases h : image.host? k <;> simp [arity?, callee?, h, Callee.arity]

/-- The function that a call of an import runs, or why it runs none. -/
def reach (image : Image) (i : Import) (bound : Option Address) : Except RuntimeError Callee :=
  match Machine.callTarget image i bound with
  | .error e => .error (.link e)
  | .ok address =>
    match image.callee? address with
    | none => .error (.unloaded i.name)
    | some callee =>
      if callee.arity = i.arity then .ok callee
      else .error (.arityMismatch callee.name callee.arity i.arity)

theorem reach_eq_ok {image : Image} {i : Import} {bound : Option Address} {callee : Callee}
    (h : image.reach i bound = .ok callee) :
    ∃ address, image.callee? address = some callee ∧ callee.arity = i.arity := by
  unfold reach at h
  split at h
  · cases h
  · next address _ =>
    split at h
    · cases h
    · next callee' hc =>
      split at h
      · next harity =>
        cases h
        exact ⟨address, hc, harity⟩
      · cases h

end Image

/-- The step with more effects. -/
def Step.report (effects : List Effect) : Step → Step
  | .next m => .next { m with effects := m.effects ++ effects.toArray }
  | .stop s => .stop { s with effects := s.effects ++ effects.toArray }

namespace Machine

variable {image : Image} {maxDepth : Nat} {m m' m₀ : Machine}

/-- Runs a function that was called; `offset` is where the caller goes on. -/
def invoke (m : Machine) (maxDepth : Nat) (callee : Callee) (args : List Float) (dst : UInt16)
    (offset : Nat) : Step :=
  match callee with
  | .host h => m.callHost h args dst offset
  | .compiled _ fn => m.enter maxDepth fn args dst offset

theorem step_call {dst index first : UInt16} {i : Import} {bound : Option Address}
    (hi : fetch m.frame.fn.chunk.code m.frame.ip = .instr (.call dst index first))
    (himport : m.frame.fn.chunk.imports[index.toNat]? = some i)
    (hbound : m.frame.fn.imports[index.toNat]? = some bound)
    (hsize : m.frame.base + first.toNat + i.arity ≤ m.registers.size) :
    m.step image maxDepth =
      match image.reach i bound with
      | .error e => m.fail e
      | .ok callee =>
        m.invoke maxDepth callee (m.callArgs first i.arity) dst (m.frame.ip + 7) := by
  simp only [Machine.step, hi, exec, call, himport, hbound, Image.reach]
  cases callTarget image i bound with
  | error e => rfl
  | ok address =>
    cases address with
    | host k =>
      cases hk : image.host? k with
      | none => simp [Image.callee?, hk, Nat.not_lt.2 hsize]
      | some h =>
        by_cases harity : h.arity = i.arity <;>
          simp [Image.callee?, hk, Nat.not_lt.2 hsize, Callee.arity, Callee.name, harity, invoke,
            callArgs]
    | compiled k =>
      cases hk : image.compiled? k with
      | none => simp [Image.callee?, hk, Nat.not_lt.2 hsize]
      | some fn =>
        by_cases harity : fn.arity = i.arity <;>
          simp [Image.callee?, hk, Nat.not_lt.2 hsize, Callee.arity, Callee.name, harity, invoke,
            callArgs]

theorem length_callArgs {first : UInt16} {n : Nat}
    (hsize : m.frame.base + first.toNat + n ≤ m.registers.size) :
    (m.callArgs first n).length = n := by
  rw [callArgs, Array.length_toList, Array.size_extract]
  omega

theorem step_ret {src : UInt16} {v : Float}
    (hi : fetch m.frame.fn.chunk.code m.frame.ip = .instr (.ret src))
    (hv : m.register? src = some v) : m.step image maxDepth = m.leave v := by
  simp only [Machine.step, hi, exec, hv]

/-! ### Steps within a frame -/

/-- The frames of `m'` are those of `m`, but the current one has gone on, and no register below it
has changed. -/
structure Advances (m m' : Machine) : Prop where
  fn : m'.frame.fn = m.frame.fn
  base : m'.frame.base = m.frame.base
  dst : m'.frame.dst = m.frame.dst
  callers : m'.callers = m.callers
  below {k : Nat} : k < m.frame.base → m'.registers[k]? = m.registers[k]?

theorem Advances.refl (m : Machine) : m.Advances m := ⟨rfl, rfl, rfl, rfl, fun _ => rfl⟩

theorem Advances.trans {m₁ m₂ : Machine} (h : m.Advances m₁) (h' : m₁.Advances m₂) :
    m.Advances m₂ :=
  ⟨h'.fn.trans h.fn, h'.base.trans h.base, h'.dst.trans h.dst, h'.callers.trans h.callers,
    fun hk => (h'.below (h.base.symm ▸ hk)).trans (h.below hk)⟩

theorem advances_assign {r : UInt16} {v : Float} {offset : Nat}
    (h : m.assign r v offset = .next m') :
    m.Advances m' ∧ m'.frame.ip = offset ∧ m'.effects = m.effects ∧
      m'.registers.size = m.registers.size := by
  simp only [assign] at h
  split at h
  · cases h
    refine ⟨⟨rfl, rfl, rfl, rfl, fun {k} hk => ?_⟩, rfl, rfl, Array.size_setIfInBounds⟩
    exact Array.getElem?_setIfInBounds_ne (by omega)
  · cases h

theorem callHost_eq (h : HostFn) (args : List Float) (dst : UInt16) (offset : Nat) :
    m.callHost h args dst offset =
      { m with effects := m.effects ++ (h.call args).2.toArray }.assign dst (h.call args).1
        offset := rfl

theorem advances_combine {f : Float → Float → Float} {dst left right : UInt16}
    (h : m.combine f dst left right = .next m') :
    m.Advances m' ∧ m'.effects = m.effects ∧ m'.registers.size = m.registers.size := by
  unfold combine at h
  split at h
  · cases h
  · split at h
    · cases h
    · exact ⟨(advances_assign h).1, (advances_assign h).2.2⟩

/-- Code that neither calls nor returns stays in its frame. -/
theorem advances_of_act (h : m.act image maxDepth = .next (.next m')) :
    m.step image maxDepth = .next m' ∧ m.Advances m' ∧ m'.effects = m.effects ∧
      m'.registers.size = m.registers.size := by
  have jumps (offset : Nat) : m.jump offset = .next m' →
      m.Advances m' ∧ m'.effects = m.effects ∧ m'.registers.size = m.registers.size := by
    intro h
    cases h
    exact ⟨⟨rfl, rfl, rfl, rfl, fun _ => rfl⟩, rfl, rfl⟩
  unfold act at h
  split at h
  · split at h
    · split at h <;> cases h
    · cases h
  · split at h <;> cases h
  · next hcall hret =>
    have hstep : m.step image maxDepth = .next m' := by simpa using h
    refine ⟨hstep, ?_⟩
    unfold Machine.step at hstep
    split at hstep
    · next i hi =>
      cases i with
      | ldc dst k =>
        simp only [exec] at hstep
        split at hstep
        · cases hstep
        · exact ⟨(advances_assign hstep).1, (advances_assign hstep).2.2⟩
      | mov dst src =>
        simp only [exec] at hstep
        split at hstep
        · cases hstep
        · exact ⟨(advances_assign hstep).1, (advances_assign hstep).2.2⟩
      | binary op dst left right => exact advances_combine hstep
      | compare test dst left right => exact advances_combine hstep
      | jmp target => exact jumps _ hstep
      | jmpIfFalse cond target =>
        simp only [exec] at hstep
        split at hstep
        · cases hstep
        · exact jumps _ hstep
      | call dst index first => exact absurd hi (hcall dst index first)
      | ret src => exact absurd hi (hret src)
    · cases hstep
    · cases hstep
    · cases hstep

/-! ### Waiting frames -/

/-- The frames that wait for a result, the innermost first. -/
def waiting (m : Machine) : List Frame := m.callers.toList.reverse

theorem Advances.waiting (h : m.Advances m') : m'.waiting = m.waiting := by
  rw [Machine.waiting, h.callers, Machine.waiting]

/-- Frames that lie one below the other on the stack, down to its bottom. The first lies right below
`base` and waits for a result in `dst`. -/
inductive Frames (P : Frame → UInt16 → Prop) : Nat → UInt16 → List Frame → Prop where
  | nil (dst : UInt16) : Frames P 0 dst []
  | cons {fr : Frame} {dst : UInt16} {frs : List Frame} (h : P fr dst)
      (hrest : Frames P fr.base fr.dst frs) :
      Frames P (fr.base + fr.fn.chunk.registers) dst (fr :: frs)

theorem Frames.imp {P Q : Frame → UInt16 → Prop} (himp : ∀ fr dst, P fr dst → Q fr dst)
    {base : Nat} {dst : UInt16} {frs : List Frame} (h : Frames P base dst frs) :
    Frames Q base dst frs := by
  induction h with
  | nil dst => exact .nil dst
  | cons h _ ih => exact .cons (himp _ _ h) ih

theorem Frames.forall_mem {P : Frame → UInt16 → Prop} {base : Nat} {dst : UInt16}
    {frs : List Frame} (h : Frames P base dst frs) :
    ∀ fr ∈ frs, ∃ dst, P fr dst := by
  induction h with
  | nil => nofun
  | cons h _ ih => exact List.forall_mem_cons.2 ⟨⟨_, h⟩, ih⟩

/-- Machine `m'` has a new frame on top of those of `m`. -/
structure Enters (m : Machine) (callee : LinkedFn) (args : List Float) (dst : UInt16)
    (offset : Nat) (m' : Machine) : Prop where
  frame : m'.frame = ⟨callee, 0, m.frame.base + m.frame.fn.chunk.registers, dst⟩
  waiting : m'.waiting = { m.frame with ip := offset } :: m.waiting
  begins : m'.Begins args
  below {k : Nat} : k < m.frame.base + m.frame.fn.chunk.registers →
    m'.registers[k]? = m.registers[k]?
  effects : m'.effects = m.effects

theorem toList_pushWindow (registers : Array Float) (base size : Nat) (args : List Float) :
    (pushWindow registers base size args).toList =
      registers.toList.take base ++ (args ++ List.replicate (size - args.length) 0.0) := by
  simp [pushWindow]

theorem getElem?_pushWindow {registers : Array Float} {base size k : Nat} {args : List Float}
    (hbase : base ≤ registers.size) (hk : k < base) :
    (pushWindow registers base size args)[k]? = registers[k]? := by
  rw [← Array.getElem?_toList, toList_pushWindow, List.getElem?_append_left (by simp; omega),
    List.getElem?_take_of_lt hk, Array.getElem?_toList]

/-- A compiled function is entered unless the frames would be too many. -/
theorem enter_eq (m : Machine) (maxDepth : Nat) (callee : LinkedFn) (args : List Float)
    (dst : UInt16) (offset : Nat)
    (hsize : m.frame.base + m.frame.fn.chunk.registers ≤ m.registers.size) :
    if maxDepth < m.waiting.length + 2 then
      m.enter maxDepth callee args dst offset = m.fail (.stackOverflow maxDepth)
    else ∃ m', m.enter maxDepth callee args dst offset = .next m' ∧
      m.Enters callee args dst offset m' := by
  have hlength : m.waiting.length = m.callers.size := by simp [waiting]
  rw [hlength]
  unfold enter
  split
  · rfl
  · refine ⟨_, rfl, rfl, ?_, ⟨rfl, m.registers, hsize, rfl⟩, fun hk => ?_, rfl⟩
    · simp [waiting]
    · exact getElem?_pushWindow hsize hk

/-- A return ends the run, or the innermost frame that waits gets the value. -/
theorem leave_eq (m : Machine) (v : Float) :
    match m.waiting with
    | [] => m.leave v = .stop ⟨.ok v, m.effects⟩
    | fr :: frs => ∃ callers, callers.toList.reverse = frs ∧
      m.leave v = { m with frame := fr, callers }.assign m.frame.dst v fr.ip := by
  cases hw : m.waiting with
  | nil =>
    have hempty : m.callers = #[] := by simpa [waiting] using hw
    simp [leave, hempty]
  | cons fr frs =>
    have hlist : m.callers.toList = frs.reverse ++ [fr] := by
      rw [← List.reverse_cons, ← hw, waiting, List.reverse_reverse]
    have hcallers : m.callers = frs.reverse.toArray.push fr := by
      apply Array.toList_inj.1
      simp [hlist]
    refine ⟨frs.reverse.toArray, by simp, ?_⟩
    simp [leave, hcallers]

/-! ### The run of a frame as the machine makes it -/

/-- The function imports `i` and has it bound to `bound`. -/
def Binds (fn : LinkedFn) (i : Import) (bound : Option Address) : Prop :=
  ∃ index : Nat, fn.chunk.imports[index]? = some i ∧ fn.imports[index]? = some bound

/-- How the machine makes the step that the code of its current frame comes to. Calls are answered
by functions of the host or run in frames of their own, and the frame returns to the one that
waits. -/
inductive CarriesOut (image : Image) (maxDepth : Nat) (m : Machine) : Action Step → Step → Prop where
  | next {s : Step} : CarriesOut image maxDepth m (.next s) s
  | done {v : Float} : CarriesOut image maxDepth m (.done v) (m.leave v)
  | stuck {e : RuntimeError} : CarriesOut image maxDepth m .stuck (m.fail e)
  /-- The code was not linked. -/
  | unlinked {c : Call} {resume : Float → Step} {index : Nat}
      (hbound : m.frame.fn.imports[index]? = none) :
      CarriesOut image maxDepth m (.ask c resume) (m.invalid (m.frame.ip + 7))
  | refused {i : Import} {bound : Option Address} {args : List Float} {resume : Float → Step}
      {e : RuntimeError} (hi : Binds m.frame.fn i bound) (hreach : image.reach i bound = .error e) :
      CarriesOut image maxDepth m (.ask ⟨i.name, args⟩ resume) (m.fail e)
  /-- The frame goes on with the value that the host gives. -/
  | answered {i : Import} {bound : Option Address} {args : List Float} {resume : Float → Step}
      {h : HostFn} (hi : Binds m.frame.fn i bound) (hreach : image.reach i bound = .ok (.host h)) :
      CarriesOut image maxDepth m (.ask ⟨i.name, args⟩ resume)
        ((resume (h.call args).1).report (h.call args).2)
  /-- A new frame begins, and this one waits where it goes on with an answer. -/
  | entered {i : Import} {bound : Option Address} {args : List Float} {dst : UInt16} {index : Nat}
      {fn : LinkedFn} {m' : Machine} (hi : Binds m.frame.fn i bound)
      (hreach : image.reach i bound = .ok (.compiled index fn))
      (hm' : m.Enters fn args dst (m.frame.ip + 7) m') :
      CarriesOut image maxDepth m
        (.ask ⟨i.name, args⟩ fun v => m.assign dst v (m.frame.ip + 7)) (.next m')
  | tooDeep {i : Import} {bound : Option Address} {args : List Float} {resume : Float → Step}
      {index : Nat} {fn : LinkedFn} (hi : Binds m.frame.fn i bound)
      (hreach : image.reach i bound = .ok (.compiled index fn))
      (hdepth : maxDepth < m.waiting.length + 2) :
      CarriesOut image maxDepth m (.ask ⟨i.name, args⟩ resume) (m.fail (.stackOverflow maxDepth))

theorem callHost_eq_report (h : HostFn) (args : List Float) (dst : UInt16) (offset : Nat) :
    m.callHost h args dst offset =
      (m.assign dst (h.call args).1 offset).report (h.call args).2 := by
  simp only [callHost, assign]
  split <;> rfl

/-- A call whose arguments are not all there fails. -/
theorem step_call_of_lt {dst index first : UInt16} {i : Import}
    (hi : fetch m.frame.fn.chunk.code m.frame.ip = .instr (.call dst index first))
    (himport : m.frame.fn.chunk.imports[index.toNat]? = some i)
    (hsize : m.registers.size < m.frame.base + first.toNat + i.arity) :
    ∃ e, m.step image maxDepth = m.fail e := by
  simp only [Machine.step, hi, exec, call, himport]
  cases m.frame.fn.imports[index.toNat]? with
  | none => exact ⟨_, rfl⟩
  | some bound =>
    simp only
    cases callTarget image i bound with
    | error e => exact ⟨_, rfl⟩
    | ok address => exact ⟨_, if_pos hsize⟩

/-- A call whose arguments are there is answered, or begins to run a function, or fails. -/
theorem carriesOut_call {dst index first : UInt16} {i : Import}
    (hi : fetch m.frame.fn.chunk.code m.frame.ip = .instr (.call dst index first))
    (himport : m.frame.fn.chunk.imports[index.toNat]? = some i)
    (hsize : m.frame.base + first.toNat + i.arity ≤ m.registers.size)
    (hwindow : m.frame.base + m.frame.fn.chunk.registers ≤ m.registers.size) :
    m.CarriesOut image maxDepth (.ask ⟨i.name, m.callArgs first i.arity⟩ fun v =>
      m.assign dst v (m.frame.ip + 7)) (m.step image maxDepth) := by
  cases hbound : m.frame.fn.imports[index.toNat]? with
  | none =>
    simp only [Machine.step, hi, exec, call, himport, hbound]
    exact .unlinked hbound
  | some bound =>
    have hbinds : Binds m.frame.fn i bound := ⟨index.toNat, himport, hbound⟩
    rw [step_call hi himport hbound hsize]
    cases hreach : image.reach i bound with
    | error e => exact .refused hbinds hreach
    | ok callee =>
      cases callee with
      | host h =>
        show m.CarriesOut image maxDepth _ (m.callHost h _ dst _)
        rw [callHost_eq_report]
        exact .answered hbinds hreach
      | compiled k fn =>
        show m.CarriesOut image maxDepth _ (m.enter maxDepth fn _ dst _)
        have henter := m.enter_eq maxDepth fn (m.callArgs first i.arity) dst (m.frame.ip + 7) hwindow
        split at henter
        · next hdepth =>
          rw [henter]
          exact .tooDeep hbinds hreach hdepth
        · obtain ⟨m', hm', henters⟩ := henter
          rw [hm']
          exact .entered hbinds hreach henters

/-- The machine makes the step that the code of its frame comes to. -/
theorem carriesOut_act (hwindow : m.frame.base + m.frame.fn.chunk.registers ≤ m.registers.size) :
    m.CarriesOut image maxDepth (m.act image maxDepth) (m.step image maxDepth) := by
  unfold act
  split
  · next dst index first hi =>
    split
    · next i himport =>
      split
      · next hsize =>
        obtain ⟨e, he⟩ : ∃ e, m.step image maxDepth = m.fail e := step_call_of_lt hi himport hsize
        rw [he]
        exact .stuck
      · next hsize => exact carriesOut_call hi himport (Nat.not_lt.1 hsize) hwindow
    · next himport =>
      simp only [Machine.step, hi, exec, call, himport]
      exact .stuck
  · next src hi =>
    split
    · next v hv =>
      rw [step_ret hi hv]
      exact .done
    · next hv =>
      simp only [Machine.step, hi, exec, hv]
      exact .stuck
  · exact .next

theorem resume_of_act {c : Call} {resume : Float → Step} (h : m.act image maxDepth = .ask c resume) :
    ∃ dst offset, ∀ v, resume v = m.assign dst v offset := by
  unfold act at h
  split at h
  · split at h
    · split at h
      · cases h
      · cases h
        exact ⟨_, _, fun _ => rfl⟩
    · cases h
  · split at h <;> cases h
  · cases h

theorem Begins.window {args : List Float} (h : m.Begins args) :
    m.frame.base + m.frame.fn.chunk.registers ≤ m.registers.size := by
  obtain ⟨below, hbase, hregisters⟩ := h.registers
  have hlength := congrArg List.length
    (toList_pushWindow below m.frame.base m.frame.fn.chunk.registers args)
  rw [← hregisters] at hlength
  simp at hlength
  omega

/-- The run of a frame keeps its registers on the stack. -/
theorem window_of_reachable {s : Step} (h : (m₀.process image maxDepth).Reachable s)
    (hm₀ : m₀.frame.base + m₀.frame.fn.chunk.registers ≤ m₀.registers.size) :
    ∀ m, s = .next m → m.frame.base + m.frame.fn.chunk.registers ≤ m.registers.size := by
  have keeps {m m' : Machine} (hadv : m.Advances m') (hsize : m'.registers.size = m.registers.size)
      (hm : m.frame.base + m.frame.fn.chunk.registers ≤ m.registers.size) :
      m'.frame.base + m'.frame.fn.chunk.registers ≤ m'.registers.size := by
    rwa [hadv.fn, hadv.base, hsize]
  refine h.invariant (P := fun s : Step => ∀ m : Machine, s = .next m →
    m.frame.base + m.frame.fn.chunk.registers ≤ m.registers.size) ?_ fun s _ hs => ?_
  · intro m hm
    cases hm
    exact hm₀
  · cases s with
    | stop => trivial
    | next m =>
      show (m.act image maxDepth).Keeps _
      cases hact : m.act image maxDepth with
      | next s' =>
        intro m' hm'
        subst hm'
        obtain ⟨-, hadv, -, hsize⟩ := advances_of_act hact
        exact keeps hadv hsize (hs m rfl)
      | ask c resume =>
        intro v m' hm'
        obtain ⟨dst, offset, hresume⟩ := resume_of_act hact
        obtain ⟨hadv, -, -, hsize⟩ := advances_assign ((hresume v).symm.trans hm')
        exact keeps hadv hsize (hs m rfl)
      | done => trivial
      | stuck => trivial

/-- Where a frame begins to run, the machine makes every step of its run. -/
theorem Begins.carriesOut {args : List Float} (hm : m.Begins args)
    (h : (m.process image maxDepth).Reachable (Step.next m')) :
    m'.CarriesOut image maxDepth (m'.act image maxDepth) (m'.step image maxDepth) :=
  carriesOut_act (window_of_reachable h hm.window m' rfl)

/-! ### Runs -/

/-- Machine `m'` is reached from `m` in some steps, perhaps none. -/
abbrev Leads (image : Image) (maxDepth : Nat) : Machine → Machine → Prop :=
  Relation.ReflTransGen fun m m' => m.step image maxDepth = .next m'

/-- A run that ends does so in a machine that is reached. -/
theorem exists_leads_of_run {fuel : Nat} {s : Stop} (h : m.run image maxDepth fuel = some s) :
    ∃ m', m.Leads image maxDepth m' ∧ m'.step image maxDepth = .stop s := by
  induction fuel generalizing m with
  | zero => simp [Machine.run] at h
  | succ fuel ih =>
    rw [Machine.run] at h
    split at h
    · next m₁ hm₁ =>
      obtain ⟨m', hleads, hstop⟩ := ih h
      exact ⟨m', .head hm₁ hleads, hstop⟩
    · next s' hs =>
      cases h
      exact ⟨m, .refl, hs⟩

end Machine

end ScalarLang
