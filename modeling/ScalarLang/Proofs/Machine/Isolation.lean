import Mathlib.Data.List.Chain
import Mathlib.Order.Interval.Set.Defs
import ScalarLang.Proofs.Image.Linking

/-! Calls do not disturb each other. The frames of all active calls lie one behind the other on the
stack, and there are not more of them than allowed. A new frame has its arguments and zeros in its
registers; until it returns, nothing below it changes, and then the register for its result does. -/

namespace ScalarLang

open Bytecode (fetch)

/-- The places on the stack of the frame's registers. -/
def Frame.window (fr : Frame) : Set Nat := Set.Ico fr.base (fr.base + fr.fn.chunk.registers)

/-- The registers of the callee begin where those of the caller end. -/
def Frame.Adjacent (caller callee : Frame) : Prop :=
  callee.base = caller.base + caller.fn.chunk.registers

/-- The frame, where it goes on at another offset. -/
def Frame.goTo (fr : Frame) (ip : Nat) : Frame := { fr with ip }

namespace Machine

variable {image : Image} {maxDepth : Nat} {m m' m₁ m₂ m₃ : Machine}

/-- The frames of all active calls, the outermost first. -/
def active (m : Machine) : List Frame := m.callers.toList ++ [m.frame]

theorem active_eq (m : Machine) : m.active = (m.frame :: m.waiting).reverse := by
  simp [active, waiting]

theorem length_active (m : Machine) : m.active.length = m.waiting.length + 1 := by
  simp [active_eq]

/-! ### The order of frames -/

theorem Frames.bottom {P : Frame → UInt16 → Prop} {base : Nat} {dst : UInt16} {frs : List Frame}
    (h : Frames P base dst frs) {top : Frame} (htop : top.base = base) :
    ∀ fr ∈ (top :: frs).reverse.head?, fr.base = 0 := by
  induction h generalizing top with
  | nil dst =>
    intro fr hfr
    cases hfr
    exact htop
  | @cons fr dst frs _ _ ih =>
    have hhead : (top :: fr :: frs).reverse.head? = (fr :: frs).reverse.head? := by simp
    rw [hhead]
    exact ih rfl

theorem Frames.adjacent {P : Frame → UInt16 → Prop} {base : Nat} {dst : UInt16} {frs : List Frame}
    (h : Frames P base dst frs) {top : Frame} (htop : top.base = base) :
    (top :: frs).reverse.IsChain Frame.Adjacent := by
  rw [List.isChain_reverse]
  induction h generalizing top with
  | nil dst => exact .singleton top
  | cons _ _ ih => exact .cons_cons htop (ih rfl)

/-- Frames that are adjacent in turn lie in that order on the stack. -/
theorem pairwise_of_adjacent {frs : List Frame} (h : frs.IsChain Frame.Adjacent) :
    frs.Pairwise fun fr fr' => fr.base + fr.fn.chunk.registers ≤ fr'.base := by
  have htrans : IsTrans Frame fun fr fr' => fr.base + fr.fn.chunk.registers ≤ fr'.base :=
    ⟨fun a b c hab hbc => by omega⟩
  exact (h.imp fun _ _ hadj => Nat.le_of_eq hadj.symm).pairwise

theorem Safe.pairwise (h : m.Safe image) :
    m.active.Pairwise fun fr fr' => fr.base + fr.fn.chunk.registers ≤ fr'.base := by
  rw [active_eq]
  exact pairwise_of_adjacent (h.waiting.adjacent rfl)

theorem Safe.base_le (h : m.Safe image) {fr : Frame} {ip : Nat} {above below : List Frame}
    (hframes : m.frame :: m.waiting = above ++ fr.goTo ip :: below) : fr.base ≤ m.frame.base := by
  have hfr : fr.goTo ip ∈ m.frame :: m.waiting := by simp [hframes]
  rcases List.mem_cons.1 hfr with htop | hfr
  · rw [← htop]
    exact Nat.le_refl _
  · have hcaller : fr.goTo ip ∈ m.callers.toList := by simpa [Machine.waiting] using hfr
    have hbelow : fr.base + fr.fn.chunk.registers ≤ m.frame.base :=
      (List.pairwise_append.1 h.pairwise).2.2 _ hcaller m.frame (List.mem_singleton_self _)
    omega

/-! ### Steps -/

/-- A value is returned to the innermost frame that waits. -/
structure Returns (m : Machine) (v : Float) (m' : Machine) : Prop where
  waiting : m.waiting = m'.frame :: m'.waiting
  registers : m'.registers = m.registers.setIfInBounds (m'.frame.base + m.frame.dst.toNat) v

/-- What a step does to the frames. -/
inductive Moves (maxDepth : Nat) (m m' : Machine) : Prop where
  | stay (h : m.Advances m')
  | enter {callee : LinkedFn} {args : List Float} {dst : UInt16}
      (hdepth : m.waiting.length + 2 ≤ maxDepth) (h : m.Enters callee args dst (m.frame.ip + 7) m')
  | leave {src : UInt16} {v : Float}
      (hi : fetch m.frame.fn.chunk.code m.frame.ip = .instr (.ret src))
      (hv : m.register? src = some v) (h : m.Returns v m')

theorem returns_of_leave {v : Float} (h : m.leave v = .next m') : m.Returns v m' := by
  have hleave := m.leave_eq v
  split at hleave
  · cases hleave.symm.trans h
  · next fr frs hw =>
    obtain ⟨callers, hcallers, hleave⟩ := hleave
    have hassign := hleave.symm.trans h
    simp only [assign] at hassign
    split at hassign
    · cases hassign
      exact ⟨by rw [hw, waiting, hcallers], rfl⟩
    · cases hassign

theorem Safe.moves (h : m.Safe image) (hs : m.step image maxDepth = .next m') :
    m.Moves maxDepth m' := by
  obtain ⟨f, hf⟩ := h.sits
  have hdoing : Doing f image maxDepth m := hf.doing
  cases hdoing with
  | act hact hsits =>
    obtain ⟨hstep, hadv, -⟩ := advances_of_act hact
    cases hstep.symm.trans hs
    exact .stay hadv
  | @call dst index first i bound hi himport hbound hdst hargs hnext =>
    have hsize : m.frame.base + first.toNat + i.arity ≤ m.registers.size := by
      have := hf.size
      omega
    rw [step_call hi himport hbound hsize] at hs
    cases hr : image.reach i bound with
    | error e => simp [hr, fail] at hs
    | ok callee =>
      rw [hr] at hs
      cases callee with
      | host host =>
        obtain ⟨hfn, hbase, hdst, hcallers, hbelow⟩ := (advances_assign hs).1
        exact .stay ⟨hfn, hbase, hdst, hcallers, hbelow⟩
      | compiled k callee =>
        have henter := m.enter_eq maxDepth callee (m.callArgs first i.arity) dst (m.frame.ip + 7)
          hf.size
        split at henter
        · cases henter.symm.trans hs
        · next hdepth =>
          obtain ⟨m₁, hm₁, hnew⟩ := henter
          cases hm₁.symm.trans hs
          exact .enter (Nat.not_lt.1 hdepth) hnew
  | ret hi hv =>
    rw [step_ret hi hv] at hs
    exact .leave hi hv (returns_of_leave hs)

theorem Moves.length_le (h : m.Moves maxDepth m') (hm : m.active.length ≤ max 1 maxDepth) :
    m'.active.length ≤ max 1 maxDepth := by
  rw [length_active] at hm ⊢
  cases h with
  | stay h => rwa [h.waiting]
  | enter hdepth h =>
    rw [h.waiting, List.length_cons]
    omega
  | leave hi hv h =>
    rw [h.waiting, List.length_cons] at hm
    omega

/-! ### Runs above a frame -/

/-- Machine `m'` is reached from `m` in steps that never return from the frame of `m`. -/
def LeadsAbove (image : Image) (maxDepth : Nat) (m m' : Machine) : Prop :=
  Relation.ReflTransGen (fun m₁ m₂ =>
    m₁.step image maxDepth = .next m₂ ∧ m.active.length ≤ m₂.active.length) m m'

/-- The frame of `m` has gone on, or waits for frames above it, and no register below it has
changed. -/
structure Holds (m m' : Machine) : Prop where
  frames : ∃ above ip, m'.frame :: m'.waiting = above ++ m.frame.goTo ip :: m.waiting
  below {k : Nat} : k < m.frame.base → m'.registers[k]? = m.registers[k]?

theorem Holds.refl (m : Machine) : m.Holds m := ⟨⟨[], m.frame.ip, rfl⟩, fun _ => rfl⟩

theorem Holds.base_le (h : m.Holds m₁) (hsafe : m₁.Safe image) : m.frame.base ≤ m₁.frame.base := by
  obtain ⟨above, ip, hframes⟩ := h.frames
  exact hsafe.base_le hframes

/-- The frame is the current one, or waits. -/
theorem Holds.cases (h : m.Holds m₁) :
    (m₁.frame = m.frame.goTo m₁.frame.ip ∧ m₁.waiting = m.waiting) ∨
      ∃ above ip, m₁.waiting = above ++ m.frame.goTo ip :: m.waiting := by
  obtain ⟨above, ip, hframes⟩ := h.frames
  cases above with
  | nil =>
    obtain ⟨hframe, hwaiting⟩ := List.cons.inj hframes
    exact .inl ⟨by rw [hframe]; rfl, hwaiting⟩
  | cons fr above => exact .inr ⟨above, ip, (List.cons.inj hframes).2⟩

theorem Holds.advance (h : m.Holds m₁) (hsafe : m₁.Safe image) (hadv : m₁.Advances m₂) :
    m.Holds m₂ := by
  have hbase := h.base_le hsafe
  refine ⟨?_, fun hk => (hadv.below (by omega)).trans (h.below hk)⟩
  rw [hadv.waiting]
  rcases h.cases with ⟨hframe, hwaiting⟩ | ⟨above, ip, hwaiting⟩
  · refine ⟨[], m₂.frame.ip, ?_⟩
    have hsame : m₂.frame = m₁.frame.goTo m₂.frame.ip := by
      rw [Frame.goTo, ← hadv.fn, ← hadv.base, ← hadv.dst]
    rw [hsame, hframe, hwaiting]
    rfl
  · exact ⟨m₂.frame :: above, ip, by rw [hwaiting, List.cons_append]⟩

theorem Holds.enter (h : m.Holds m₁) (hsafe : m₁.Safe image) {callee : LinkedFn} {args : List Float}
    {dst : UInt16} {offset : Nat} (henter : m₁.Enters callee args dst offset m₂) : m.Holds m₂ := by
  have hbase := h.base_le hsafe
  refine ⟨?_, fun hk => (henter.below (by omega)).trans (h.below hk)⟩
  rw [henter.waiting]
  rcases h.cases with ⟨hframe, hwaiting⟩ | ⟨above, ip, hwaiting⟩
  · exact ⟨[m₂.frame], offset, by rw [hframe, hwaiting]; rfl⟩
  · exact ⟨m₂.frame :: m₁.frame.goTo offset :: above, ip, by rw [hwaiting]; rfl⟩

/-- A return to the frame or to one above it. -/
theorem Holds.leave (h : m.Holds m₁) (hsafe : m₂.Safe image) {v : Float} (hret : m₁.Returns v m₂)
    (hlength : m.active.length ≤ m₂.active.length) : m.Holds m₂ := by
  have hframes : ∃ above ip, m₂.frame :: m₂.waiting = above ++ m.frame.goTo ip :: m.waiting := by
    rw [← hret.waiting]
    rcases h.cases with ⟨-, hwaiting⟩ | hwaiting
    · rw [length_active, length_active, ← hwaiting, hret.waiting, List.length_cons] at hlength
      omega
    · exact hwaiting
  refine ⟨hframes, fun {k} hk => ?_⟩
  obtain ⟨above, ip, hframes⟩ := hframes
  have hbase : m.frame.base ≤ m₂.frame.base := hsafe.base_le hframes
  rw [hret.registers, Array.getElem?_setIfInBounds_ne (by omega)]
  exact h.below hk

theorem Holds.step (himage : image.Sound) (h : m.Holds m₁) (hsafe : m₁.Safe image)
    (hs : m₁.step image maxDepth = .next m₂) (hlength : m.active.length ≤ m₂.active.length) :
    m.Holds m₂ := by
  cases hsafe.moves hs with
  | stay hadv => exact h.advance hsafe hadv
  | enter hdepth henter => exact h.enter hsafe henter
  | leave hi hv hret =>
    exact h.leave (hsafe.leads himage (.single hs)) hret hlength

/-- The frame holds until it returns. -/
theorem Safe.holds (himage : image.Sound) (h : m.Safe image)
    (hm : LeadsAbove image maxDepth m m₁) : m.Holds m₁ ∧ m₁.Safe image := by
  induction hm with
  | refl => exact ⟨.refl m, h⟩
  | tail _ hs ih =>
    obtain ⟨hholds, hsafe⟩ := ih
    exact ⟨hholds.step himage hsafe hs.1 hs.2, hsafe.leads himage (.single hs.1)⟩

/-- Where there are fewer frames after a step, the frame has returned to the one below it. -/
theorem Holds.returns (h : m.Holds m₁) (hsafe : m₁.Safe image)
    (hs : m₁.step image maxDepth = .next m₂) (hlength : m₂.active.length < m.active.length) :
    ∃ src v, fetch m₁.frame.fn.chunk.code m₁.frame.ip = .instr (.ret src) ∧
      m₁.register? src = some v ∧ m.waiting = m₂.frame :: m₂.waiting ∧
      m₂.registers = m₁.registers.setIfInBounds (m₂.frame.base + m.frame.dst.toNat) v := by
  rw [length_active, length_active] at hlength
  have hle : m.waiting.length ≤ m₁.waiting.length := by
    rcases h.cases with ⟨-, hwaiting⟩ | ⟨above, ip, hwaiting⟩
    · rw [hwaiting]
    · rw [hwaiting, List.length_append, List.length_cons]
      omega
  cases hsafe.moves hs with
  | stay hadv =>
    rw [hadv.waiting] at hlength
    omega
  | enter hdepth henter =>
    rw [henter.waiting, List.length_cons] at hlength
    omega
  | @leave src v hi hv hret =>
    rcases h.cases with ⟨hframe, hwaiting⟩ | ⟨above, ip, hwaiting⟩
    · refine ⟨src, v, hi, hv, by rw [← hwaiting, hret.waiting], ?_⟩
      rw [hret.registers, hframe]
      rfl
    · rw [hret.waiting] at hwaiting
      have hcount := congrArg List.length hwaiting
      rw [List.length_cons, List.length_append, List.length_cons] at hcount
      omega

/-! ### Calls -/

/-- Machine `m₁` has begun to run a function that `m` calls: the arguments and zeros lie on the
stack behind the registers of the caller. -/
structure Opens (m : Machine) (callee : LinkedFn) (args : List Float) (dst : UInt16)
    (m₁ : Machine) : Prop where
  arity : args.length = callee.arity ∧ callee.arity ≤ callee.chunk.registers
  active : m₁.active = m.callers.toList ++ [m.frame.goTo (m.frame.ip + 7),
    ⟨callee, 0, m.frame.base + m.frame.fn.chunk.registers, dst⟩]
  registers : m₁.registers.toList = m.registers.toList.take m₁.frame.base ++
    (args ++ List.replicate (callee.chunk.registers - args.length) 0.0)

/-- Machine `m₃` has in register `dst` what `m₂` returns to the caller in `m`. -/
structure Resumes (m : Machine) (dst : UInt16) (m₂ m₃ : Machine) : Prop where
  active : m₃.active = m.callers.toList ++ [m.frame.goTo (m.frame.ip + 7)]
  registers : ∃ src v, fetch m₂.frame.fn.chunk.code m₂.frame.ip = .instr (.ret src) ∧
    m₂.register? src = some v ∧
    m₃.registers = m₂.registers.setIfInBounds (m.frame.base + dst.toNat) v

/-- What a call of compiled code does, from its first step to the return. -/
def CallsApart (image : Image) (maxDepth : Nat) (m : Machine) (callee : LinkedFn)
    (args : List Float) (dst : UInt16) : Prop :=
  if maxDepth < m.active.length + 1 then
    m.step image maxDepth = .stop ⟨.error (.stackOverflow maxDepth), m.effects⟩
  else ∃ m₁, m.step image maxDepth = .next m₁ ∧ m.Opens callee args dst m₁ ∧
    ∀ m₂, LeadsAbove image maxDepth m₁ m₂ →
      (∀ k < m₁.frame.base, m₂.registers[k]? = m.registers[k]?) ∧
      ∀ m₃, m₂.step image maxDepth = .next m₃ → m₃.active.length < m₁.active.length →
        m.Resumes dst m₂ m₃

/-- The active frames are apart, and so is every call that the machine makes now. -/
structure Isolated (image : Image) (maxDepth : Nat) (m : Machine) : Prop where
  bottom : ∀ fr ∈ m.active.head?, fr.base = 0
  adjacent : m.active.IsChain Frame.Adjacent
  disjoint : m.active.Pairwise fun fr fr' => ∀ k ∈ fr.window, k ∉ fr'.window
  covered : m.frame.base + m.frame.fn.chunk.registers ≤ m.registers.size
  depth : m.active.length ≤ max 1 maxDepth
  calls {dst index first : UInt16} :
    fetch m.frame.fn.chunk.code m.frame.ip = .instr (.call dst index first) →
    ∃ i bound, m.frame.fn.chunk.imports[index.toNat]? = some i ∧
      m.frame.fn.imports[index.toNat]? = some bound ∧
      ∀ k callee, image.reach i bound = .ok (.compiled k callee) →
        CallsApart image maxDepth m callee (m.callArgs first i.arity) dst

theorem registers_enter {callee : LinkedFn} {args : List Float} {dst : UInt16} {offset : Nat}
    (h : m.enter maxDepth callee args dst offset = .next m') :
    m'.registers = pushWindow m.registers m'.frame.base callee.chunk.registers args := by
  unfold enter at h
  split at h
  · cases h
  · cases h
    rfl

/-- The frame that was entered returns to the one that made the call. -/
theorem Enters.resumes {callee : LinkedFn} {args : List Float} {dst : UInt16}
    (h : m.Enters callee args dst (m.frame.ip + 7) m₁) (hholds : m₁.Holds m₂)
    (hsafe : m₂.Safe image) (hs : m₂.step image maxDepth = .next m₃)
    (hlength : m₃.active.length < m₁.active.length) : m.Resumes dst m₂ m₃ := by
  obtain ⟨src, v, hi, hv, hwaiting, hregisters⟩ := hholds.returns hsafe hs hlength
  rw [h.waiting] at hwaiting
  obtain ⟨hframe, hrest⟩ := List.cons.inj hwaiting
  rw [← hframe, h.frame] at hregisters
  refine ⟨?_, src, v, hi, hv, hregisters⟩
  rw [active_eq, ← hframe, ← hrest]
  simp [Machine.waiting, Frame.goTo]

theorem Sits.operands_call {f : IR.Func} (h : m.Sits f) {dst index first : UInt16}
    (hi : fetch m.frame.fn.chunk.code m.frame.ip = .instr (.call dst index first)) :
    ∃ i bound, m.frame.fn.chunk.imports[index.toNat]? = some i ∧
      m.frame.fn.imports[index.toNat]? = some bound ∧
      m.frame.base + first.toNat + i.arity ≤ m.registers.size := by
  obtain ⟨_, -, hfetch, hfits, -⟩ := h.position.exists_instr h.code.verified h.code.layout
  cases hi.symm.trans hfetch
  obtain ⟨-, i, himport, hargs⟩ := hfits
  have hindex : index.toNat < m.frame.fn.imports.size :=
    h.code.imports ▸ (Array.getElem?_eq_some_iff.1 himport).1
  have hsize := h.size
  exact ⟨i, _, himport, Array.getElem?_eq_getElem hindex, by omega⟩

theorem Safe.callsApart (himage : image.Sound) (h : m.Safe image) {dst : UInt16}
    {callee : LinkedFn} {args : List Float} (hargs : args.length = callee.arity)
    (hc : image.Loaded callee)
    (hs : m.step image maxDepth = m.enter maxDepth callee args dst (m.frame.ip + 7)) :
    CallsApart image maxDepth m callee args dst := by
  obtain ⟨f, hf⟩ := h.sits
  obtain ⟨g, hg⟩ := himage callee hc
  have henter := m.enter_eq maxDepth callee args dst (m.frame.ip + 7) hf.size
  unfold CallsApart
  rw [length_active, hs]
  split at henter
  · next hdepth => rw [if_pos hdepth, henter, fail]
  · next hdepth =>
    rw [if_neg hdepth]
    obtain ⟨m₁, hm₁, hnew⟩ := henter
    have hsafe : m₁.Safe image := h.leads himage (.single (hs.trans hm₁))
    refine ⟨m₁, hm₁, ⟨⟨hargs, hg.position_zero.2⟩, ?_, ?_⟩, fun m₂ hm₂ => ?_⟩
    · rw [active_eq, hnew.frame, hnew.waiting]
      simp [Machine.waiting, Frame.goTo]
    · rw [registers_enter hm₁, toList_pushWindow]
    · obtain ⟨hholds, hsafe₂⟩ := hsafe.holds himage hm₂
      refine ⟨fun k hk => ?_, fun m₃ hm₃ hlength => hnew.resumes hholds hsafe₂ hm₃ hlength⟩
      rw [hholds.below hk]
      rw [hnew.frame] at hk
      exact hnew.below hk

theorem Safe.isolated (himage : image.Sound) (h : m.Safe image)
    (hdepth : m.active.length ≤ max 1 maxDepth) : m.Isolated image maxDepth where
  bottom := by
    rw [active_eq]
    exact h.waiting.bottom rfl
  adjacent := by
    rw [active_eq]
    exact h.waiting.adjacent rfl
  disjoint := h.pairwise.imp fun hle k hk hk' => absurd (hk.2.trans_le hle) (Nat.not_lt.2 hk'.1)
  covered := h.sits.elim fun _ hf => hf.size
  depth := hdepth
  calls {dst index first} hi := by
    obtain ⟨f, hf⟩ := h.sits
    obtain ⟨i, bound, himport, hbound, hsize⟩ := hf.operands_call hi
    refine ⟨i, bound, himport, hbound, fun k callee hr => ?_⟩
    obtain ⟨hloaded, harity⟩ := Image.loaded_of_reach hr
    apply h.callsApart himage ((length_callArgs hsize).trans harity.symm) hloaded
    rw [step_call hi himport hbound hsize, hr]
    rfl

theorem isolated_of_leads (himage : image.Sound) {fn : LinkedFn} (hfn : image.Loaded fn)
    {args : List Float} (hargs : args.length = fn.arity)
    (hm : (start fn args).Leads image maxDepth m) : m.Isolated image maxDepth := by
  have hstart := safe_start himage hfn hargs
  refine (hstart.leads himage hm).isolated himage ?_
  induction hm with
  | refl => exact Nat.le_max_left 1 maxDepth
  | tail hleads hs ih => exact ((hstart.leads himage hleads).moves hs).length_le ih

end Machine

namespace Image

variable {image : Image}

/-- However well-formed modules were linked and removed, a call of compiled code runs in frames that
are apart. -/
theorem Built.call_isolated (h : image.Built) (maxDepth : Nat) {index : Nat} {fn : LinkedFn}
    (hfn : image.compiled? index = some fn) {args : List Float} (hargs : fn.arity = args.length) :
    (∀ fuel, image.call maxDepth fuel (.compiled index) args =
      (Machine.start fn args).run image maxDepth fuel) ∧
    (Machine.start fn args).registers.toList =
      args ++ List.replicate (fn.chunk.registers - args.length) 0.0 ∧
    ∀ m, (Machine.start fn args).Leads image maxDepth m → m.Isolated image maxDepth := by
  refine ⟨fun fuel => ?_, ?_, fun m hm => ?_⟩
  · simp only [Image.call, hfn, hargs, if_true]
  · exact Machine.toList_pushWindow #[] 0 fn.chunk.registers args
  · exact Machine.isolated_of_leads h.sound ⟨index, hfn⟩ hargs.symm hm

/-- A function that returns the first of two arguments. -/
def firstOfTwo : IR.Func where
  name := "more"
  params := ["x", "y"]
  insts := #[]
  blocks := #[⟨"entry", [], some (.ret (.arg 0))⟩]
  layout := [0]

theorem call_isolated_alternate :
    ∃ l fn, link {} ⟨"unit", [Bytecode.alternate, firstOfTwo]⟩ = .ok l ∧
      l.image.compiled? 0 = some fn ∧ fn.arity = 1 ∧
      ∀ x m, (Machine.start fn [x]).Leads l.image 2 m → m.Isolated l.image 2 := by
  have hunit : ∀ f ∈ (⟨"unit", [Bytecode.alternate, firstOfTwo]⟩ : IR.Module).definitions,
      f.verify = .ok () := by
    decide +kernel
  have hok : (link {} ⟨"unit", [Bytecode.alternate, firstOfTwo]⟩).isOk = true := by decide +kernel
  have harity : ((link {} ⟨"unit", [Bytecode.alternate, firstOfTwo]⟩).toOption.bind
      (·.image.compiled? 0)).map (·.arity) = some 1 := by decide +kernel
  cases h : link {} ⟨"unit", [Bytecode.alternate, firstOfTwo]⟩ with
  | error e => simp [h, Except.isOk, Except.toBool] at hok
  | ok l =>
    have hbuilt : l.image.Built := .link .empty hunit h
    rw [h] at harity
    obtain ⟨fn, hfn, hfn'⟩ := Option.map_eq_some_iff.1 harity
    refine ⟨l, fn, rfl, hfn, hfn', fun x => ?_⟩
    exact (hbuilt.call_isolated 2 hfn (show fn.arity = [x].length from hfn')).2.2

end Image

end ScalarLang
