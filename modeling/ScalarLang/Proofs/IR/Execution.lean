import ScalarLang.Proofs.IR.Dominance
import ScalarLang.Proofs.IR.Semantics

/-! What one step of a run can do, and where a run can be: on a way from the entry block, behind the
first instructions of a block. -/

namespace ScalarLang.IR

theorem boolValue_beq_zero (b : Bool) : (boolValue b == 0.0) = !b := by
  cases b <;> decide

namespace Env

@[simp] theorem value_setSlot (env : Env) (s : SlotId) (x : Float) (v : Operand) :
    (env.setSlot s x).value v = env.value v := by
  cases v <;> rfl

theorem value_setResult_of_ne (env : Env) {i : InstId} (x : Float) {v : Operand}
    (h : v ≠ .inst i) : (env.setResult i x).value v = env.value v := by
  cases v with
  | inst j => exact if_neg fun hj => h (congrArg _ hj)
  | _ => rfl

@[simp] theorem results_setResult_self (env : Env) (i : InstId) (x : Float) :
    (env.setResult i x).results i = x := if_pos rfl

theorem results_setResult_of_ne (env : Env) {i j : InstId} (x : Float) (h : j ≠ i) :
    (env.setResult i x).results j = env.results j := if_neg h

theorem slots_setSlot_of_ne (env : Env) {s s' : SlotId} (x : Float) (h : s' ≠ s) :
    (env.setSlot s x).slots s' = env.slots s' := if_neg h

@[simp] theorem slots_setResult (env : Env) (i : InstId) (x : Float) :
    (env.setResult i x).slots = env.slots := rfl

end Env

namespace Func

variable {f : Func}

/-! ### Phis -/

/-- The phis of a block. -/
def phis (f : Func) (b : BlockId) : List InstId := (f.block b).insts.filter f.isPhiInst

theorem mem_phis {b : BlockId} {i : InstId} :
    i ∈ f.phis b ↔ i ∈ (f.block b).insts ∧ (f.op i).isPhi := by
  simp [phis, isPhiInst]

theorem mem_body {b : BlockId} {i : InstId} :
    i ∈ f.body b ↔ i ∈ (f.block b).insts ∧ ¬(f.op i).isPhi := by
  simp [body, isPhiInst]

theorem filter_append_filter {l : List InstId} {p : InstId → Bool}
    (h : l.Pairwise fun i j => p j → p i) : l.filter p ++ l.filter (!p ·) = l := by
  induction l with
  | nil => rfl
  | cons i l ih =>
    obtain ⟨hi, hl⟩ := List.pairwise_cons.1 h
    cases hp : p i with
    | true => simp [hp, ih hl]
    | false =>
      -- no instruction after `i` is one of the first
      have hl' : l.filter p = [] := by
        simp only [List.filter_eq_nil_iff]
        intro j hj hpj
        simp [hi j hj hpj] at hp
      have hr := ih hl
      rw [hl', List.nil_append] at hr
      simp [hp, hl', hr]

theorem Verified.insts_eq (h : f.Verified) {b : BlockId} (hb : b ∈ f.layout) :
    (f.block b).insts = f.phis b ++ f.body b :=
  (filter_append_filter (h.phis_first hb)).symm

/-- Entering a block changes nothing but its phis. -/
theorem value_enterEnv {b c : BlockId} {env : Env} {v : Operand}
    (h : ∀ j, v = .inst j → j ∉ f.phis c) : (f.enterEnv b c env).value v = env.value v := by
  cases v with
  | inst j =>
    have hj := h j rfl
    simp only [Env.value, enterEnv]
    split
    · next hm =>
      have : ¬(f.op j).isPhi := fun hp => hj (mem_phis.2 ⟨hm, hp⟩)
      cases ho : f.op j <;> simp_all [phiValue?, Operation.isPhi]
    · rfl
  | _ => rfl

theorem enterEnv_of_not_phi {b c : BlockId} {env : Env}
    (h : ∀ i ∈ (f.block c).insts, ¬(f.op i).isPhi) : f.enterEnv b c env = env := by
  have hphi : ∀ j, j ∉ f.phis c := fun j hj => h j (mem_phis.1 hj).1 (mem_phis.1 hj).2
  simp only [enterEnv]
  congr 1
  funext i
  exact value_enterEnv (b := b) (v := .inst i) fun j _ => hphi j

theorem results_enterEnv {b c : BlockId} {env : Env} {i : InstId}
    {incoming : List (Operand × BlockId)} {v : Operand} (hi : i ∈ (f.block c).insts)
    (ho : f.op i = .phi incoming) (hv : incoming? incoming b = some v) :
    (f.enterEnv b c env).results i = env.value v := by
  simp [enterEnv, hi, phiValue?, ho, hv]

theorem mem_of_incoming? {incoming : List (Operand × BlockId)} {source : BlockId} {v : Operand}
    (h : incoming? incoming source = some v) : (v, source) ∈ incoming := by
  obtain ⟨⟨v', source'⟩, hf, rfl⟩ := Option.map_eq_some_iff.1 h
  have := List.find?_some hf
  simp only [decide_eq_true_eq] at this
  exact this ▸ List.mem_of_find?_eq_some hf

theorem exists_incoming? {incoming : List (Operand × BlockId)} {source : BlockId}
    (h : source ∈ incoming.map (·.2)) : ∃ v, incoming? incoming source = some v := by
  obtain ⟨⟨v, source⟩, hm, rfl⟩ := List.mem_map.1 h
  cases hf : incoming.find? (·.2 = source) with
  | none => simpa using List.find?_eq_none.1 hf _ hm
  | some x => exact ⟨x.1, by simp [incoming?, hf]⟩

/-! ### Steps -/

/-- The values after instruction `i`; a call can have any answer. -/
inductive Executed (f : Func) (i : InstId) (env : Env) : Env → Prop where
  | call {callee : String} {args : List Operand} (h : f.op i = .call callee args) (v : Float) :
      Executed f i env (env.setResult i v)
  | op (h : ∀ callee args, f.op i ≠ .call callee args) : Executed f i env (evalOp i env (f.op i))

namespace Executed

variable {i : InstId} {env env' : Env}

/-- An instruction changes no result but its own. -/
theorem value_of_ne (h : f.Executed i env env') {v : Operand} (hv : v ≠ .inst i) :
    env'.value v = env.value v := by
  cases h with
  | call _ x => exact env.value_setResult_of_ne x hv
  | op _ => cases f.op i <;> simp [evalOp, env.value_setResult_of_ne _ hv]

/-- Only a store changes a slot. -/
theorem slots_of_ne (h : f.Executed i env env') {s : SlotId} (hs : ∀ v, f.op i ≠ .store s v) :
    env'.slots s = env.slots s := by
  cases h with
  | call _ x => rfl
  | op _ =>
    cases ho : f.op i with
    | store s' v =>
      have hne : s ≠ s' := fun he => hs v (he ▸ ho)
      simp [evalOp, Env.setSlot, hne]
    | _ => simp [evalOp]

theorem eq_evalOp (h : f.Executed i env env') (hc : ∀ callee args, f.op i ≠ .call callee args) :
    env' = evalOp i env (f.op i) := by
  cases h with
  | call h x => exact absurd h (hc _ _)
  | op _ => rfl

end Executed

/-- A step carries out the next instruction, or goes to a successor at the end of a block. -/
theorem keeps_step {P : State → Prop} {s : State}
    (inst : ∀ i rest env', s.rest = i :: rest → f.Executed i s.env env' → P ⟨s.block, rest, env'⟩)
    (enter : ∀ c ∈ f.successors s.block, s.rest = [] → P (f.enter s.block c s.env)) :
    (f.step s).Keeps P := by
  unfold step
  cases hr : s.rest with
  | cons i rest =>
    simp only [stepInst]
    split
    · next ho => exact fun v => inst i rest _ hr (.call ho v)
    · next ho => exact inst i rest _ hr (.op ho)
  | nil =>
    have hs : ∀ c, c ∈ ((f.block s.block).terminator.map Terminator.successors).getD [] →
        P (f.enter s.block c s.env) := fun c hc => enter c hc hr
    rcases ht : (f.block s.block).terminator with - | (target | ⟨cond, yes, no⟩ | v) <;>
      simp only [stepTerminator, Action.Keeps]
    · exact hs target (by simp [ht, Terminator.successors])
    · exact hs _ (by simp only [ht]; split <;> simp [Terminator.successors])

/-- No phi is ever left to be carried out. -/
theorem not_phi_of_reachable {args : List Float} {s : State} (h : (f.process args).Reachable s) :
    ∀ i ∈ s.rest, ¬(f.op i).isPhi := by
  refine Process.Reachable.invariant (p := f.process args)
    (P := fun s => ∀ i ∈ s.rest, ¬(f.op i).isPhi) ?_ (fun s _ hs => ?_) h
  · simp only [process, startState]
    split
    · exact fun i hi => (mem_body.1 hi).2
    · exact fun i hi => nomatch hi
  · exact keeps_step (fun i rest _ hr _ j hj => hs j (by simp [hr, hj]))
      fun c _ _ i hi => (mem_body.1 hi).2

/-! ### Places of a run -/

/-- The state is on a way from the entry block, and the instructions that are left are the last of
its block, none of them a phi. -/
structure Located (f : Func) (s : State) : Prop where
  path : ∃ π, f.Path π s.block
  mem_layout : s.block ∈ f.layout
  suffix : ∃ before, (f.block s.block).insts = before ++ s.rest
  not_phi : ∀ i ∈ s.rest, ¬(f.op i).isPhi

theorem Located.enter {s : State} (hv : f.Verified) (h : f.Located s) {c : BlockId}
    (hc : c ∈ f.successors s.block) : f.Located (f.enter s.block c s.env) where
  path := h.path.imp' (s.block :: ·) fun _ hπ => hπ.step hc
  mem_layout := hv.successor_mem h.mem_layout hc
  suffix := ⟨f.phis c, hv.insts_eq (hv.successor_mem h.mem_layout hc)⟩
  not_phi _ hi := (mem_body.1 hi).2

theorem Located.tail {b : BlockId} {i : InstId} {rest : List InstId} {env env' : Env}
    (h : f.Located ⟨b, i :: rest, env⟩) : f.Located ⟨b, rest, env'⟩ where
  path := h.path
  mem_layout := h.mem_layout
  suffix := by
    obtain ⟨before, hb⟩ := h.suffix
    exact ⟨before ++ [i], by simpa using hb⟩
  not_phi j hj := h.not_phi j (List.mem_cons_of_mem i hj)

/-- What stands in front of the rest of a block once instruction `j` is carried out. -/
theorem Located.exists_before {s : State} (h : f.Located s) {j : InstId}
    {rest before : List InstId} (hr : s.rest = j :: rest)
    (hb : (f.block s.block).insts = before ++ rest) :
    ∃ before', before = before' ++ [j] ∧ (f.block s.block).insts = before' ++ s.rest := by
  obtain ⟨before', hb'⟩ := h.suffix
  have hsplit : before ++ rest = (before' ++ [j]) ++ rest := by
    rw [← hb, hb', hr]
    simp
  exact ⟨before', List.append_cancel_right hsplit, hb'⟩

theorem keeps_located (hv : f.Verified) {s : State} (h : f.Located s) :
    (f.step s).Keeps f.Located := by
  refine keeps_step (fun i rest env' hr _ => ?_) fun c hc _ => h.enter hv hc
  obtain ⟨b, r, env⟩ := s
  cases hr
  exact h.tail

theorem startState_of_entry {b : BlockId} (h : f.entry? = some b) (args : List Float) :
    f.startState args = ⟨b, f.body b, .start args⟩ := by
  simp only [startState, h]

theorem located_start (hv : f.Verified) {b : BlockId} (he : f.entry? = some b)
    (args : List Float) : f.Located (f.startState args) := by
  rw [startState_of_entry he]
  exact {
    path := ⟨[], .entry he⟩
    mem_layout := entry_mem_layout he
    suffix := ⟨f.phis b, hv.insts_eq (entry_mem_layout he)⟩
    not_phi := fun _ hi => (mem_body.1 hi).2 }

/-- All states of a run are located. -/
theorem located_of_reachable (hv : f.Verified) {b : BlockId} (he : f.entry? = some b)
    {args : List Float} {s : State} (h : (f.process args).Reachable s) : f.Located s :=
  Process.Reachable.invariant (located_start hv he args) (fun _ _ => keeps_located hv) h

end Func

end ScalarLang.IR
