import ScalarLang.Proofs.Image.Correspondence

/-! What a run does besides. Only functions of the host have effects, so those of a run are the effects
of the calls that it makes of them, one after the other. -/

namespace ScalarLang

open Bytecode (Import Instr fetch)

/-- These calls of host functions have these effects. -/
inductive Image.Effects (image : Image) : List Call → List Effect → Prop where
  | nil : Effects image [] []
  | cons {h : HostFn} {args : List Float} {l : List Call} {effects : List Effect}
      (hhost : h ∈ image.hosts) (hargs : h.arity = args.length) (hrest : Effects image l effects) :
      Effects image (⟨h.name, args⟩ :: l) ((h.call args).2 ++ effects)

def Step.effects : Step → Array Effect
  | .next m => m.effects
  | .stop s => s.effects

namespace Image

variable {image : Image} {l l' : List Call} {effects effects' : List Effect}

theorem Effects.append (h : image.Effects l effects) (h' : image.Effects l' effects') :
    image.Effects (l ++ l') (effects ++ effects') := by
  induction h with
  | nil => exact h'
  | cons hhost hargs _ ih =>
    rw [List.cons_append, List.append_assoc]
    exact .cons hhost hargs ih

theorem Effects.single {h : HostFn} {args : List Float} (hhost : h ∈ image.hosts)
    (hargs : h.arity = args.length) : image.Effects [⟨h.name, args⟩] (h.call args).2 := by
  rw [← List.append_nil (h.call args).2]
  exact .cons hhost hargs .nil

theorem Effects.of_hosts {image' : Image} (hhosts : image'.hosts = image.hosts)
    (h : image'.Effects l effects) : image.Effects l effects := by
  induction h with
  | nil => exact .nil
  | cons hhost hargs _ ih => exact .cons (hhosts ▸ hhost) hargs ih

/-- Calls have one list of effects, if no two functions of the host share a name. -/
theorem Effects.unique (hnames : (image.hosts.toList.map (·.name)).Nodup)
    (h : image.Effects l effects) (h' : image.Effects l effects') : effects' = effects := by
  induction h generalizing effects' with
  | nil =>
    cases h'
    rfl
  | @cons host args l effects hhost hargs _ ih =>
    generalize hc : (⟨host.name, args⟩ :: l : List Call) = calls at h'
    cases h' with
    | nil => cases hc
    | @cons host' args' l' rest' hhost' hargs' hrest' =>
      obtain ⟨hcall, rfl⟩ := List.cons.inj hc
      obtain ⟨hname, rfl⟩ := Call.mk.inj hcall
      obtain rfl := List.inj_on_of_nodup_map hnames (Array.mem_toList_iff.2 hhost)
        (Array.mem_toList_iff.2 hhost') hname
      rw [ih hrest']

theorem mem_hosts_of_reach {i : Import} {bound : Option Address} {h : HostFn}
    (hreach : image.reach i bound = .ok (.host h)) : h ∈ image.hosts ∧ h.arity = i.arity := by
  obtain ⟨address, hcallee, harity⟩ := reach_eq_ok hreach
  cases address with
  | compiled k => simp [callee?] at hcallee
  | host k =>
    obtain ⟨h', hk, hh⟩ := Option.map_eq_some_iff.1 hcallee
    cases hh
    exact ⟨Array.mem_of_getElem? hk, harity⟩

end Image

namespace Machine

variable {image : Image} {maxDepth : Nat}

/-! ### One step -/

theorem effects_assign (m : Machine) (r : UInt16) (v : Float) (offset : Nat) :
    (m.assign r v offset).effects = m.effects := by
  unfold assign
  dsimp only
  split <;> rfl

theorem effects_combine (m : Machine) (f : Float → Float → Float) (dst left right : UInt16) :
    (m.combine f dst left right).effects = m.effects := by
  unfold combine
  split
  · rfl
  · split
    · rfl
    · exact effects_assign ..

theorem effects_leave (m : Machine) (v : Float) : (m.leave v).effects = m.effects := by
  unfold leave
  split
  · rfl
  · exact effects_assign ..

theorem effects_enter (m : Machine) (maxDepth : Nat) (callee : LinkedFn) (args : List Float)
    (dst : UInt16) (offset : Nat) : (m.enter maxDepth callee args dst offset).effects = m.effects := by
  unfold enter
  split <;> rfl

theorem effects_exec (image : Image) (maxDepth : Nat) (m : Machine) {i : Instr}
    (hi : ∀ dst index first, i ≠ .call dst index first) :
    (m.exec image maxDepth i).effects = m.effects := by
  cases i with
  | ldc dst k =>
    simp only [exec]
    split
    · rfl
    · exact effects_assign ..
  | mov dst src =>
    simp only [exec]
    split
    · rfl
    · exact effects_assign ..
  | binary op dst left right => exact effects_combine ..
  | compare test dst left right => exact effects_combine ..
  | jmp target => rfl
  | jmpIfFalse cond target =>
    simp only [exec]
    split <;> rfl
  | call dst index first => exact absurd rfl (hi dst index first)
  | ret src =>
    simp only [exec]
    split
    · rfl
    · exact effects_leave ..

/-- A call without room for its arguments fails before anything is run. -/
theorem effects_call_of_lt {m : Machine} {dst index first : UInt16} {i : Import} {offset : Nat}
    (hi : m.frame.fn.chunk.imports[index.toNat]? = some i)
    (hsize : m.registers.size < m.frame.base + first.toNat + i.arity) :
    (m.call image maxDepth dst index first offset).effects = m.effects := by
  unfold call
  rw [hi]
  split
  · next i' bound hi' _ =>
    cases hi'
    split
    · rfl
    · simp only [hsize, if_true]
      rfl
  · rfl

/-- The effects of a step are those of the call of a host function that it makes, if it makes one. -/
theorem effects_step (image : Image) (maxDepth : Nat) (m : Machine) :
    ∃ effects, image.Effects (m.hostCall image) effects ∧
      (m.step image maxDepth).effects.toList = m.effects.toList ++ effects := by
  have quiet (hcall : m.hostCall image = [])
      (heffects : (m.step image maxDepth).effects = m.effects) : ∃ effects,
        image.Effects (m.hostCall image) effects ∧
          (m.step image maxDepth).effects.toList = m.effects.toList ++ effects := by
    rw [hcall, heffects]
    exact ⟨[], .nil, (List.append_nil _).symm⟩
  by_cases hcall : ∃ dst index first,
      fetch m.frame.fn.chunk.code m.frame.ip = .instr (.call dst index first)
  · obtain ⟨dst, index, first, hi⟩ := hcall
    cases himport : m.frame.fn.chunk.imports[index.toNat]? with
    | none =>
      apply quiet
      · simp only [hostCall, hi, himport]
      · simp only [Machine.step, hi, exec, call, himport]
        rfl
    | some i =>
      cases hbound : m.frame.fn.imports[index.toNat]? with
      | none =>
        apply quiet
        · simp only [hostCall, hi, himport, hbound]
        · simp only [Machine.step, hi, exec, call, himport, hbound]
          rfl
      | some bound =>
        by_cases hsize : m.registers.size < m.frame.base + first.toNat + i.arity
        · apply quiet
          · simp only [hostCall, hi, himport, hbound, hsize, if_true]
          · simp only [Machine.step, hi, exec]
            exact effects_call_of_lt himport hsize
        · rw [step_call hi himport hbound (Nat.not_lt.1 hsize)]
          simp only [hostCall, hi, himport, hbound, hsize, if_false]
          cases hreach : image.reach i bound with
          | error e => exact ⟨[], .nil, (List.append_nil _).symm⟩
          | ok callee =>
            cases callee with
            | compiled k fn =>
              refine ⟨[], .nil, ?_⟩
              simp only [invoke, effects_enter, List.append_nil]
            | host h =>
              obtain ⟨hhost, harity⟩ := Image.mem_hosts_of_reach hreach
              refine ⟨_, .single hhost (harity.trans (length_callArgs (Nat.not_lt.1 hsize)).symm), ?_⟩
              simp only [invoke, callHost_eq, effects_assign, Array.toList_append]
  · apply quiet
    · unfold hostCall
      split
      · next hi => exact absurd ⟨_, _, _, hi⟩ hcall
      · rfl
    · unfold Machine.step
      split
      · next i hi =>
        exact effects_exec image maxDepth m fun dst index first he => hcall ⟨dst, index, first, he ▸ hi⟩
      · rfl
      · rfl
      · rfl

/-- The effects of a run are those of its calls of host functions. -/
theorem effects_run {fuel : Nat} {m : Machine} {stop : Stop}
    (h : m.run image maxDepth fuel = some stop) :
    ∃ effects, image.Effects (m.hostCalls image maxDepth fuel) effects ∧
      stop.effects.toList = m.effects.toList ++ effects := by
  induction fuel generalizing m with
  | zero => cases h
  | succ fuel ih =>
    obtain ⟨effects, hcall, heffects⟩ := effects_step image maxDepth m
    rw [run] at h
    rw [hostCalls]
    cases hstep : m.step image maxDepth with
    | next m' =>
      rw [hstep] at h heffects
      obtain ⟨effects', hcalls, hstop⟩ := ih h
      refine ⟨effects ++ effects', hcall.append hcalls, ?_⟩
      rw [hstop, show m'.effects.toList = _ from heffects, List.append_assoc]
    | stop s =>
      rw [hstep] at h heffects
      cases h
      refine ⟨effects, ?_, heffects⟩
      rwa [List.append_nil]

end Machine

/-- The effects of a call are those of the calls of host functions that it leads to. -/
theorem Image.effects_call {image : Image} {maxDepth fuel : Nat} {a : Address} {args : List Float}
    {stop : Stop} (h : image.call maxDepth fuel a args = some stop) :
    image.Effects (image.hostCalls maxDepth fuel a args) stop.effects.toList := by
  cases a with
  | host k =>
    cases hk : image.host? k with
    | none =>
      simp only [Image.call, hk] at h
      simp only [hostCalls, hk]
      cases h
      exact .nil
    | some host =>
      by_cases harity : host.arity = args.length
      · simp only [Image.call, hk, harity, if_true] at h
        simp only [hostCalls, hk, harity, if_true]
        cases h
        exact .single (Array.mem_of_getElem? hk) harity
      · simp only [Image.call, hk, harity, if_false] at h
        simp only [hostCalls, hk, harity, if_false]
        cases h
        exact .nil
  | compiled k =>
    cases hk : image.compiled? k with
    | none =>
      simp only [Image.call, hk] at h
      simp only [hostCalls, hk]
      cases h
      exact .nil
    | some fn =>
      by_cases harity : fn.arity = args.length
      · simp only [Image.call, hk, harity, if_true] at h
        simp only [hostCalls, hk, harity, if_true]
        obtain ⟨effects, heffects, hstop⟩ := Machine.effects_run h
        rw [hstop]
        exact heffects
      · simp only [Image.call, hk, harity, if_false] at h
        simp only [hostCalls, hk, harity, if_false]
        cases h
        exact .nil

end ScalarLang
