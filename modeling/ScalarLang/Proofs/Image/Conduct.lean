import ScalarLang.Proofs.Machine.Conduct

/-! What a call of linked code shows. The frame of a linked function follows the function, so its
conduct depends only on the function's behaviour and on what its calls reach. Two images in which
calls reach functions that behave alike cannot be told apart by running them. -/

namespace ScalarLang

open Bytecode (Chunk Import Line Lowers Tracks fetch functionLines)
open IR (Func)

/-- The function is the code of `f`, and its imports are bound like this. -/
structure LinkedFn.Implements (fn : LinkedFn) (f : Func) (bound : String → Option Address) :
    Prop extends fn.CodeOf f where
  uniform : f.UniformCalls
  bound {index : Nat} {i : Import} : fn.chunk.imports[index]? = some i →
    fn.imports[index]? = some (bound i.name)

/-- All loaded functions are the code of functions that are well formed and call each name with one
number of arguments. -/
def Image.Implemented (image : Image) : Prop :=
  ∀ fn, image.Loaded fn → ∃ f bound, fn.Implements f bound

namespace Machine

variable {image : Image} {maxDepth w : Nat} {m m' m₁ m₂ : Machine} {f : Func} {chunk : Chunk}
  {blocks : List (List Line)}

/-! ### Calls of a frame -/

/-- A machine with a frame for a function above `w` others. -/
def fresh (w : Nat) (fn : LinkedFn) (args : List Float) : Machine :=
  { start fn args with callers := Array.replicate w ⟨fn, 0, 0, 0⟩ }

/-- What a call shows that is made from above `w` waiting frames. -/
def callConduct (image : Image) (maxDepth w : Nat) (bound : String → Option Address) (c : Call) :
    Conduct (Except RuntimeError Float) :=
  match image.reach ⟨c.callee, c.args.length⟩ (bound c.callee) with
  | .error e => .ended (.error e)
  | .ok (.host h) => .single ⟨h.name, c.args⟩ (.ok (h.call c.args).1)
  | .ok (.compiled _ fn) =>
    if maxDepth < w + 2 then .ended (.error (.stackOverflow maxDepth))
    else (fresh (w + 1) fn c.args).conduct image maxDepth (w + 1)

theorem act_eq_ask {c : Call} {resume : Float → Step} (h : m.act image maxDepth = .ask c resume) :
    ∃ dst index first i,
      fetch m.frame.fn.chunk.code m.frame.ip = .instr (.call dst index first) ∧
      m.frame.fn.chunk.imports[index.toNat]? = some i ∧
      m.frame.base + first.toNat + i.arity ≤ m.registers.size ∧
      c = ⟨i.name, m.callArgs first i.arity⟩ ∧
      resume = fun v => m.assign dst v (m.frame.ip + 7) := by
  unfold act at h
  split at h
  · next dst index first hi =>
    split at h
    · next i himport =>
      split at h
      · cases h
      · next hsize =>
        cases h
        exact ⟨dst, index, first, i, hi, himport, Nat.not_lt.1 hsize, rfl, rfl⟩
    · cases h
  · split at h <;> cases h
  · cases h

theorem returned?_of_act {v : Float} (h : m.act image maxDepth = .done v) :
    m.returned? m.waiting.length = some v := by
  unfold act at h
  split at h
  · split at h
    · split at h <;> cases h
    · cases h
  · next src hi =>
    split at h
    · next v' hv =>
      cases h
      exact returned?_eq_some.2 ⟨rfl, src, hi, hv⟩
    · cases h
  · cases h

theorem At.transfer {ip ip' : Nat} {regs regs' : Nat → Float} (h : m.At chunk ip regs)
    (h₁ : m.At chunk ip' regs') (h₂ : m'.At chunk ip' regs') : m'.At chunk ip regs :=
  ⟨h₂.fn, h₂.ip.trans (h₁.ip.symm.trans h.ip), h₂.size, fun hk =>
    (h₂.register hk).trans ((h₁.register hk).symm.trans (h.register hk))⟩

/-- Only the registers of the frame count. -/
theorem tracks_transfer {s : IR.State} {ip : Nat} {regs : Nat → Float}
    (h : Tracks f chunk blocks s (.next m)) (h₁ : m.At chunk ip regs) (h₂ : m'.At chunk ip regs) :
    Tracks f chunk blocks s (.next m') := by
  cases h with
  | intro hb hleft hinsts ht hlast hm hh =>
    obtain ⟨before, hlines, hat⟩ := hm
    exact .intro hb hleft hinsts ht hlast ⟨before, hlines, hat.transfer h₁ h₂⟩ hh

theorem not_tracks_stop {s : IR.State} {stop : Stop} : ¬Tracks f chunk blocks s (.stop stop) :=
  nofun

theorem tracks_sits {s : IR.State} (hl : Lowers f chunk blocks) (hf : m.frame.fn.CodeOf f)
    (hchunk : m.frame.fn.chunk = chunk) (h : Tracks f chunk blocks s (.next m)) : m.Sits f := by
  cases h with
  | intro hb hleft hinsts ht hlast hm hh =>
    obtain ⟨before, hlines, hat⟩ := hm
    obtain ⟨init, last, rfl, -⟩ := Bytecode.lowerTerminator_end hlast
    refine ⟨hf, ?_, hchunk ▸ hat.size⟩
    rw [hchunk, hat.ip]
    exact ⟨blocks, before, _, hl, hlines, by simp, rfl⟩

/-- A frame that returns gives its value to the frame below, which has stayed as it was. -/
theorem leave_of_enters {callee : LinkedFn} {args : List Float} {dst : UInt16} {offset ip : Nat}
    {regs : Nat → Float} (henters : m.Enters callee args dst offset m₁) (hadv : m₁.Advances m₂)
    (hat : m.At m.frame.fn.chunk ip regs) (hdst : dst.toNat < m.frame.fn.chunk.registers)
    (v : Float) :
    ∃ m', m₂.leave v = .next m' ∧ m.Advances m' ∧
      m'.At m.frame.fn.chunk offset (Function.update regs dst.toNat v) := by
  have hbase : m₁.frame.base = m.frame.base + m.frame.fn.chunk.registers := by
    rw [henters.frame]
  have hbelow {k : Nat} (hk : k < m.frame.base + m.frame.fn.chunk.registers) :
      m₂.registers[k]? = m.registers[k]? :=
    (hadv.below (hbase.symm ▸ hk)).trans (henters.below hk)
  have hsize : m.frame.base + m.frame.fn.chunk.registers ≤ m₂.registers.size := by
    have hlast := hbelow (k := m.frame.base + (m.frame.fn.chunk.registers - 1)) (by omega)
    rw [hat.register (by omega)] at hlast
    have := (Array.getElem?_eq_some_iff.1 hlast).1
    omega
  have hleave := m₂.leave_eq v
  rw [hadv.waiting, henters.waiting, hadv.dst, henters.frame] at hleave
  obtain ⟨callers, hcallers, hleave⟩ := hleave
  have hat₂ : At { m₂ with frame := { m.frame with ip := offset }, callers } m.frame.fn.chunk offset
      regs :=
    ⟨rfl, rfl, hsize, fun {k} hk =>
      (hbelow (Nat.add_lt_add_left hk _)).trans (hat.register hk)⟩
  obtain ⟨m', hm', hat'⟩ := hat₂.assign hdst v offset
  obtain ⟨hadv', -, -⟩ := advances_assign hm'
  refine ⟨m', hleave.trans hm', ⟨hadv'.fn, hadv'.base, hadv'.dst, ?_, fun {k} hk => ?_⟩, hat'⟩
  · rw [hadv'.callers]
    apply Array.toList_inj.1
    exact List.reverse_inj.1 hcallers
  · exact (hadv'.below hk).trans (hbelow (by omega))

section

variable {fn : LinkedFn} {bound : String → Option Address}

/-- States of a function with machines that run its code above `w` waiting frames. -/
def Runs (w : Nat) (fn : LinkedFn) (f : Func) (blocks : List (List Line)) (s : IR.State)
    (m : Machine) : Prop :=
  m.frame.fn = fn ∧ m.waiting.length = w ∧ Tracks f fn.chunk blocks s (.next m)

theorem Runs.of_advances {s s' : IR.State} (h : Runs w fn f blocks s m) (hadv : m.Advances m')
    (htracks : Tracks f fn.chunk blocks s' (.next m')) : Runs w fn f blocks s' m' :=
  ⟨hadv.fn.trans h.1, by rw [hadv.waiting, h.2.1], htracks⟩

/-- What is known of frames above `w` others: they show what `fresh` ones show, and where they return
they have left everything below as it was. -/
def Determined (image : Image) (maxDepth w : Nat) : Prop :=
  ∀ {m : Machine} {args : List Float}, image.Loaded m.frame.fn → m.Begins args →
    args.length = m.frame.fn.arity → m.waiting.length = w →
    m.conduct image maxDepth w = (fresh w m.frame.fn args).conduct image maxDepth w ∧
    ∀ {l v}, (m.conduct image maxDepth w).ends l (.ok v) →
      ∃ k m', GoesAbove image maxDepth w k m l m' ∧ m.Advances m' ∧ m'.returned? w = some v

variable (hdet : w + 2 ≤ maxDepth → Determined image maxDepth (w + 1))
include hdet

/-- A call goes where its import leads, and the frame goes on with the value. -/
theorem serves_call {dst index first : UInt16} {i : Import} {regs : Nat → Float}
    {resumes : Float → Machine → Prop}
    (hi : fetch m.frame.fn.chunk.code m.frame.ip = .instr (.call dst index first))
    (himport : m.frame.fn.chunk.imports[index.toNat]? = some i)
    (hbound : m.frame.fn.imports[index.toNat]? = some (bound i.name))
    (hargs : m.frame.base + first.toNat + i.arity ≤ m.registers.size)
    (hdst : dst.toNat < m.frame.fn.chunk.registers)
    (hat : m.At m.frame.fn.chunk m.frame.ip regs) (hw : m.waiting.length = w)
    (hresumes : ∀ {m' v}, m.Advances m' →
      m'.At m.frame.fn.chunk (m.frame.ip + 7) (Function.update regs dst.toNat v) → resumes v m') :
    Serves image maxDepth w m
      (callConduct image maxDepth w bound ⟨i.name, m.callArgs first i.arity⟩) resumes := by
  have hstep : stepAbove image maxDepth w m = _ := stepAbove_call hi himport hbound hargs
  rw [callConduct, length_callArgs hargs]
  cases hr : image.reach i (bound i.name) with
  | error e =>
    rw [hr] at hstep
    exact serves_ended hstep
  | ok callee =>
    rw [hr] at hstep
    cases callee with
    | host host =>
      let m₁ : Machine := { m with
        effects := m.effects ++ (host.call (m.callArgs first i.arity)).2.toArray }
      have hat₁ : m₁.At m.frame.fn.chunk m.frame.ip regs :=
        ⟨hat.fn, hat.ip, hat.size, hat.register⟩
      obtain ⟨m', hm', hat'⟩ := hat₁.assign hdst (host.call (m.callArgs first i.arity)).1
        (m.frame.ip + 7)
      have hadv : m.Advances m' := by
        obtain ⟨hadv', -, -⟩ := advances_assign hm'
        exact ⟨hadv'.fn, hadv'.base, hadv'.dst, hadv'.callers, hadv'.below⟩
      have hcall : m.callHost host (m.callArgs first i.arity) dst (m.frame.ip + 7) = .next m' := hm'
      simp only [hcall, Step.outcome] at hstep
      exact serves_single hstep hadv (hresumes hadv hat')
    | compiled j callee =>
      obtain ⟨hloaded, harity⟩ := Image.loaded_of_reach hr
      have henter := m.enter_eq maxDepth callee (m.callArgs first i.arity) dst (m.frame.ip + 7)
        hat.size
      rw [hw] at henter
      by_cases hdepth : maxDepth < w + 2
      · rw [if_pos hdepth] at henter
        simp only [henter, fail, Step.outcome] at hstep
        simp only [if_pos hdepth]
        exact serves_ended hstep
      · rw [if_neg hdepth] at henter
        obtain ⟨m₁, hm₁, henters⟩ := henter
        simp only [hm₁, Step.outcome] at hstep
        have hcallee : m₁.frame.fn = callee := by rw [henters.frame]
        have hwaiting : m₁.waiting.length = w + 1 := by rw [henters.waiting, List.length_cons, hw]
        obtain ⟨hsame, hreturns⟩ := hdet (Nat.not_lt.1 hdepth) (hcallee ▸ hloaded) henters.begins
          (by rw [hcallee, length_callArgs hargs, harity]) hwaiting
        rw [hcallee] at hsame
        simp only [if_neg hdepth, ← hsame]
        refine serves_frame hstep (by omega) fun {l v} hv => ?_
        obtain ⟨n, m₂, hgoes, hadv, hv⟩ := hreturns hv
        obtain ⟨hw₂, src, hi₂, hv₂⟩ := returned?_eq_some.1 hv
        obtain ⟨m', hm', hadv', hat'⟩ := leave_of_enters henters hadv hat hdst v
        refine ⟨n, m₂, m', hgoes, ?_, hadv', hresumes hadv' hat'⟩
        rw [stepAbove_ret hi₂ hv₂ (by omega), hm', Step.outcome]

variable (hfn : fn.Implements f bound) (hl : Lowers f fn.chunk blocks)
include hfn hl

/-- The call that the function asks for is made. -/
theorem Runs.serves {s : IR.State} {c : Call} {resume : Float → IR.State}
    (h : Runs w fn f blocks s m) (hs : f.step s = .ask c resume) :
    ∃ k m₁, GoesAbove image maxDepth w k m [] m₁ ∧ m.Advances m₁ ∧
      Serves image maxDepth w m₁ (callConduct image maxDepth w bound c)
        fun v m₂ => Runs w fn f blocks (resume v) m₂ := by
  obtain ⟨rfl, hw, htracks⟩ := id h
  obtain ⟨q, resume', hsilent, hask, hresume⟩ :
      ∃ q resume', (m.process image maxDepth).Silent (.next m) q ∧
        q.act image maxDepth = .ask c resume' ∧
        ∀ v, Tracks f m.frame.fn.chunk blocks (resume v) (resume' v) :=
    htracks.ask hfn.verified hl hfn.uniform hs
  rcases goes_of_silent hsilent with ⟨s, rfl⟩ | ⟨m₁, k, rfl, hgoes, hadv, hsits⟩
  · cases hask
  obtain ⟨dst, index, first, i, hi, himport, hargs, rfl, rfl⟩ := act_eq_ask hask
  have hsits := hsits f (tracks_sits hl hfn.toCodeOf rfl htracks)
  have hdst : dst.toNat < m₁.frame.fn.chunk.registers := by
    have hdoing : Doing f image maxDepth m₁ := hsits.doing
    cases hdoing with
    | act hact => cases hact.symm.trans hask
    | call hi' _ _ hdst =>
      cases hi.symm.trans hi'
      exact hdst
    | ret hi' => cases hi.symm.trans hi'
  have hbound : m₁.frame.fn.imports[index.toNat]? = some (bound i.name) := by
    rw [hadv.fn] at himport ⊢
    exact hfn.bound himport
  obtain ⟨regs, hat⟩ := exists_at hsits.size
  refine ⟨k, m₁, hgoes, hadv, serves_call hdet hi himport hbound hargs hdst hat
    (by rw [hadv.waiting, hw]) fun {m₂ v} hadv₂ hat₂ => ?_⟩
  -- with the value in its register, the frame is where the function goes on
  obtain ⟨m', hm', hat'⟩ := hat.assign hdst v (m₁.frame.ip + 7)
  have htracks' : Tracks f m.frame.fn.chunk blocks (resume v)
    (m₁.assign dst v (m₁.frame.ip + 7)) := hresume v
  rw [hm'] at htracks'
  rw [hadv.fn] at hat₂ hat'
  exact h.of_advances (hadv.trans hadv₂) (tracks_transfer htracks' hat' hat₂)

/-- The machine follows the function whose code it runs. -/
theorem follows_runs (args : List Float) :
    Follows image maxDepth w (f.process args) (callConduct image maxDepth w bound)
      (Runs w fn f blocks) where
  next {s s₁ m} h hs := by
    obtain ⟨rfl, hw, htracks⟩ := id h
    obtain ⟨q, hplus, htracks'⟩ : ∃ q, (m.process image maxDepth).SilentPlus (.next m) q ∧
        Tracks f m.frame.fn.chunk blocks s₁ q := htracks.next hfn.verified hl hs
    rcases goes_of_silentPlus hplus with ⟨s, rfl⟩ | ⟨m', k, rfl, hk, hgoes, hadv, -⟩
    · exact absurd htracks' not_tracks_stop
    · exact ⟨k, m', hk, hgoes, hadv, h.of_advances hadv htracks'⟩
  ask h hs := h.serves hdet hfn hl hs
  done {s m v} h hs := by
    obtain ⟨rfl, hw, htracks⟩ := h
    have hact : m.act image maxDepth = .done v := htracks.done hfn.verified hl hs
    rw [← hw]
    exact returned?_of_act hact
  not_stuck h := h.2.2.not_stuck

/-- A frame that begins shows what its function shows. -/
theorem conduct_eq_behaviour {args : List Float} (hm : m.Begins args) (hmfn : m.frame.fn = fn)
    (hargs : args.length = fn.arity) (hw : m.waiting.length = w) :
    m.conduct image maxDepth w = ((f.process args).behaviour
      (callOracle (callConduct image maxDepth w bound))).conduct
        (callConduct image maxDepth w bound) ∧
    ∀ {l v}, (m.conduct image maxDepth w).ends l (.ok v) →
      ∃ k m', GoesAbove image maxDepth w k m l m' ∧ m.Advances m' ∧ m'.returned? w = some v := by
  subst hmfn
  have hsits := hm.sits hfn.toCodeOf hargs
  have hat := hm.at (hargs ▸ hfn.toCodeOf.position_zero.2)
  obtain ⟨b, hb⟩ : ∃ b, f.entry? = some b := by
    cases hlayout : f.layout with
    | nil => exact absurd hlayout hfn.layout
    | cons b rest => exact ⟨b, by simp [Func.entry?, hlayout]⟩
  obtain ⟨q, hsilent, htracks⟩ : ∃ q, (m.process image maxDepth).Silent (.next m) q ∧
      Tracks f m.frame.fn.chunk blocks (f.startState args) q :=
    Bytecode.tracks_start hl hb (hargs.trans hfn.arity) hat
  rcases goes_of_silent hsilent with ⟨s, rfl⟩ | ⟨m', k, rfl, hgoes, hadv, -⟩
  · exact absurd htracks not_tracks_stop
  have hruns : Runs w m.frame.fn f blocks (f.process args).start m' :=
    ⟨hadv.fn, by rw [hadv.waiting, hw], htracks⟩
  have hfollows := follows_runs hdet hfn hl args
  have hsame : m.conduct image maxDepth w = m'.conduct image maxDepth w := hgoes.of_eq
  refine ⟨hsame.trans (hfollows.conduct_eq hruns), fun {l v} hv => ?_⟩
  rw [hsame] at hv
  obtain ⟨n, m₂, hgoes₂, hadv₂, hv₂⟩ := hfollows.goes_of_ends hruns hv
  exact ⟨k + n, m₂, hgoes.trans hgoes₂, hadv.trans hadv₂, hv₂⟩

end

theorem begins_fresh (w : Nat) (fn : LinkedFn) (args : List Float) : (fresh w fn args).Begins args :=
  ⟨rfl, #[], Nat.le_refl 0, rfl⟩

theorem length_waiting_fresh (w : Nat) (fn : LinkedFn) (args : List Float) :
    (fresh w fn args).waiting.length = w := by
  simp [fresh, waiting]

/-- Frames show what `fresh` ones show, at every depth. -/
theorem determined (himage : image.Implemented) (maxDepth w : Nat) :
    Determined image maxDepth w := by
  -- the deeper a frame is, the fewer can be above it
  induction hd : maxDepth - w using Nat.strongRecOn generalizing w with
  | ind d ih =>
    have hdet (hdepth : w + 2 ≤ maxDepth) : Determined image maxDepth (w + 1) :=
      ih _ (by omega) (w + 1) rfl
    intro m args hloaded hm hargs hw
    obtain ⟨f, bound, hfn⟩ := himage _ hloaded
    obtain ⟨blocks, hl⟩ := Bytecode.lowers_of_eq_ok hfn.verified hfn.lower
    obtain ⟨hconduct, hreturns⟩ := conduct_eq_behaviour hdet hfn hl hm rfl hargs hw
    obtain ⟨hfresh, -⟩ := conduct_eq_behaviour hdet hfn hl (begins_fresh w m.frame.fn args) rfl
      hargs (length_waiting_fresh w _ args)
    exact ⟨hconduct.trans hfresh.symm, hreturns⟩

/-- What a frame shows is put together from the behaviour of its function and from its calls. -/
theorem conduct_fresh (himage : image.Implemented) {fn : LinkedFn} {f : Func}
    {bound : String → Option Address} (hfn : fn.Implements f bound) (maxDepth w : Nat)
    {args : List Float} (hargs : args.length = fn.arity) :
    (fresh w fn args).conduct image maxDepth w = ((f.process args).behaviour
      (callOracle (callConduct image maxDepth w bound))).conduct
        (callConduct image maxDepth w bound) := by
  obtain ⟨blocks, hl⟩ := Bytecode.lowers_of_eq_ok hfn.verified hfn.lower
  exact (conduct_eq_behaviour (fun _ => determined himage maxDepth (w + 1)) hfn hl
    (begins_fresh w fn args) rfl hargs (length_waiting_fresh w fn args)).1

end Machine

end ScalarLang
