import ScalarLang.Proofs.Codegen.Growth
import ScalarLang.Proofs.Expr.Semantics
import ScalarLang.Proofs.IR.Execution

/-! Runs of a finished function through code that was generated for a part of it. A builder that the
function has grown out of marks a place in the function: what was generated before is behind it,
and what is generated next is what the run does next. -/

namespace ScalarLang

namespace IR

variable {F : Func} {b b' : Builder} {env env' env₁ env₂ : Env}

/-! ### Places -/

/-- The place in the finished function where code was generated next. -/
def Builder.at (b : Builder) (F : Func) (env : Env) : State where
  block := b.current
  rest := ((F.block b.current).insts.drop (b.func.block b.current).insts.length).filter
    (!F.isPhiInst ·)
  env := env

theorem Func.run_next {args : List Float} {o : Oracle} {s s' : State} {t : Trace}
    (h : F.step s = .next s') : (F.process args).run o 1 (s, t) = some (s', t) :=
  (Process.run_one (p := F.process args) (s, t)).trans
    (Process.Moves.advance (p := F.process args) h o t)

theorem Func.run_ask {args : List Float} {o : Oracle} {s : State} {t : Trace} {c : Call}
    {resume : Float → State} (h : F.step s = .ask c resume) :
    (F.process args).run o 1 (s, t) = some (resume (o t c), t ++ [(c, o t c)]) :=
  (Process.run_one (p := F.process args) (s, t)).trans
    (Process.advance_ask (p := F.process args) h o t)

/-- The code that is generated next is carried out next. -/
theorem Builder.step_addInst (hb : b.Ready) {op : Operation} {name : String}
    (hF : (b.addInst op name).2.func.Grows F) (hop : op.isPhi = false) (env : Env) :
    F.op b.func.insts.size = op ∧ F.step (b.at F env) =
      F.stepInst b.current b.func.insts.size ((b.addInst op name).2.at F env).rest env := by
  have hop' : F.op b.func.insts.size = op := by
    rw [hF.op (by simp), op_addInst_self]
  obtain ⟨after, hafter⟩ := hF.insts b.current
  rw [insts_block_addInst hb, if_pos rfl] at hafter
  have hrest : (b.at F env).rest = b.func.insts.size :: ((b.addInst op name).2.at F env).rest := by
    simp [Builder.at, insts_block_addInst hb, ← hafter, Func.isPhiInst, hop', hop]
  exact ⟨hop', by rw [Func.step, hrest]; rfl⟩

/-- A block that is ended is left where it was ended. -/
theorem Builder.step_end {t : Terminator}
    (h : F.code b.current = ((b.func.block b.current).insts, some t)) :
    F.step (b.at F env) = F.stepTerminator b.current env (some t) := by
  have hrest : (b.at F env).rest = [] := by
    simp [Builder.at, show (F.block b.current).insts = _ from congrArg Prod.fst h]
  rw [Func.step, hrest]
  exact congrArg (F.stepTerminator b.current env) (congrArg Prod.snd h)

theorem Builder.Branches.step {t : Terminator} {next : BlockId} (h : b.Branches b' t next)
    (hF : b'.func.Grows F) : F.step (b.at F env) = F.stepTerminator b.current env (some t) :=
  Builder.step_end ((hF.ended (by simp [h.terminator])).trans h.code)

/-- A block is entered before its first instruction. -/
theorem Builder.enter_eq (hb : b.func.Blank b.current) (c : BlockId) :
    F.enter c b.current env = b.at F (F.enterEnv c b.current env) := by
  simp [Func.enter, Builder.at, hb.insts, Func.body]

/-- A block that begins with a phi is entered behind it. -/
theorem Builder.enter_phi (hb : b.Ready) (hblank : b.func.Blank b.current)
    {incoming : List (Operand × BlockId)} {name : String}
    (hF : (b.addInst (.phi incoming) name).2.func.Grows F) (c : BlockId) (env : Env) :
    F.enter c b.current env =
      (b.addInst (.phi incoming) name).2.at F (F.enterEnv c b.current env) ∧
    ∀ v, incoming? incoming c = some v →
      (F.enterEnv c b.current env).results b.func.insts.size = env.value v := by
  obtain ⟨after, hafter⟩ := hF.insts b.current
  have hop : F.op b.func.insts.size = .phi incoming := by
    rw [hF.op (by simp), op_addInst_self]
  rw [insts_block_addInst hb, hblank.insts, if_pos rfl] at hafter
  constructor
  · simp [Func.enter, Builder.at, Func.body, insts_block_addInst hb, hblank.insts, ← hafter,
      Func.isPhiInst, hop, Operation.isPhi]
  · exact fun v => Func.results_enterEnv (by simp [← hafter]) hop

/-! ### Values -/

/-- The arguments and the results of the first `n` instructions are the same. -/
structure Env.Frame (n : Nat) (env env' : Env) : Prop where
  args : env'.args = env.args
  results {i : InstId} : i < n → env'.results i = env.results i

namespace Env.Frame

theorem refl (n : Nat) (env : Env) : env.Frame n env := ⟨rfl, fun _ => rfl⟩

theorem of_le {n m : Nat} (h : env.Frame m env') (hnm : n ≤ m) : env.Frame n env' :=
  ⟨h.args, fun hi => h.results (Nat.lt_of_lt_of_le hi hnm)⟩

theorem trans {n m : Nat} (h : env.Frame n env₁) (h' : env₁.Frame m env₂) (hnm : n ≤ m) :
    env.Frame n env₂ :=
  ⟨h'.args.trans h.args, fun hi => (h'.results (Nat.lt_of_lt_of_le hi hnm)).trans (h.results hi)⟩

theorem value {n : Nat} (h : env.Frame n env') {v : Operand} (hv : ∀ i, v = .inst i → i < n) :
    env'.value v = env.value v := by
  cases v with
  | inst i => exact h.results (hv i rfl)
  | arg k => simp [Env.value, h.args]
  | _ => rfl

theorem setResult (env : Env) (n : Nat) (x : Float) : env.Frame n (env.setResult n x) :=
  ⟨rfl, fun hi => env.results_setResult_of_ne x (Nat.ne_of_lt hi)⟩

theorem setSlot (env : Env) (n : Nat) (s : SlotId) (x : Float) : env.Frame n (env.setSlot s x) :=
  ⟨rfl, fun _ => rfl⟩

/-- Entering a block that had no code yet gives no value to what was there. -/
theorem enter {f : Func} (hF : f.Grows F) {b : BlockId} (hb : f.Blank b) (c : BlockId) (env : Env) :
    env.Frame f.insts.size (F.enterEnv c b env) := by
  refine ⟨rfl, fun {i} hi => if_neg fun hm => ?_⟩
  rcases hF.fresh hm with hm | hle
  · rw [hb.insts] at hm
    exact nomatch hm
  · exact absurd hi (Nat.not_lt.2 hle)

end Env.Frame

end IR

/-! ### Runs that follow an evaluation -/

open ScalarLang.Expr (Eval Halt World)

variable {α β : Type} {p : Process} {o : Oracle} {n m : Nat} {c d : p.State × Trace}

/-- A run that makes the calls of an evaluation with this outcome. If the evaluation is cut off, the
run has made at least `n` steps; otherwise it has come to a state with property `Q`. -/
def Process.Follows (p : Process) (o : Oracle) (n : Nat) (c : p.State × Trace)
    (Q : α → World → p.State → Prop) : Except Halt α × World → Prop
  | (.ok a, w) => ∃ k s, p.run o k c = some (s, w.trace) ∧ Q a w s
  | (.error .cutOff, w) => ∃ k s, n ≤ k ∧ p.run o k c = some (s, w.trace)
  | (.error .wrong, _) => False

namespace Process.Follows

variable {Q : α → World → p.State → Prop} {R : β → World → p.State → Prop}

theorem pure {a : α} {w : World} {s : p.State} (h : Q a w s) :
    p.Follows o n (s, w.trace) Q (exec (pure a : Eval α) w) :=
  ⟨0, s, rfl, h⟩

theorem not_wrong {w : World} : ¬p.Follows o n c Q (.error .wrong, w) := id

/-- Steps before the evaluation begins count as well. -/
theorem steps {k : Nat} {out : Except Halt α × World} (hk : p.run o k c = some d)
    (h : p.Follows o n d Q out) : p.Follows o (k + n) c Q out := by
  rcases out with ⟨(- | -) | a, w⟩
  · obtain ⟨l, s, hl, hs⟩ := h
    exact ⟨k + l, s, by omega, run_trans hk hs⟩
  · exact h
  · obtain ⟨l, s, hs, hQ⟩ := h
    exact ⟨k + l, s, run_trans hk hs, hQ⟩

theorem of_le {out : Except Halt α × World} (h : p.Follows o n c Q out) (hm : m ≤ n) :
    p.Follows o m c Q out := by
  rcases out with ⟨(- | -) | a, w⟩
  · obtain ⟨k, s, hk, hs⟩ := h
    exact ⟨k, s, hm.trans hk, hs⟩
  · exact h
  · exact h

theorem after {k : Nat} {out : Except Halt α × World} (hk : p.run o k c = some d)
    (h : p.Follows o n d Q out) : p.Follows o n c Q out :=
  (h.steps hk).of_le (Nat.le_add_left _ _)

theorem bind {e : Eval α} {w : World} (h : p.Follows o n c Q (exec e w)) {k : α → Eval β}
    (hk : ∀ a w' s, Q a w' s → p.Follows o n (s, w'.trace) R (exec (k a) w')) :
    p.Follows o n c R (exec (e >>= k) w) := by
  rw [exec_bind]
  rcases hout : exec e w with ⟨(- | -) | a, w'⟩ <;> rw [hout] at h
  · exact h
  · exact h
  · obtain ⟨l, s, hs, hQ⟩ := h
    exact (hk a w' s hQ).after hs

/-- The run goes on after the evaluation has ended. -/
theorem then_run {R : α → World → p.State → Prop} {out : Except Halt α × World}
    (h : p.Follows o n c Q out)
    (hQ : ∀ a w s, Q a w s → ∃ k s', p.run o k (s, w.trace) = some (s', w.trace) ∧ R a w s') :
    p.Follows o n c R out := by
  rcases out with ⟨(- | -) | a, w⟩
  · exact h
  · exact h
  · obtain ⟨k, s, hs, ha⟩ := h
    obtain ⟨l, s', hs', hR⟩ := hQ a w s ha
    exact ⟨k + l, s', run_trans hs hs', hR⟩

theorem imp {R : α → World → p.State → Prop} {out : Except Halt α × World}
    (h : p.Follows o n c Q out) (hQ : ∀ a w s, Q a w s → R a w s) : p.Follows o n c R out :=
  h.then_run fun a w s ha => ⟨0, s, rfl, hQ a w s ha⟩

/-- If each round comes from `I` back to `I`, or to `Q` after the last, so do the rounds together.
Each of them makes a step, so that no more steps than rounds can be asked for. -/
theorem rounds {I : World → p.State → Prop} {Q : World → p.State → Prop} {round : Eval Bool}
    (h : ∀ w s, I w s → p.Follows o n (s, w.trace)
      (fun again w' s' => ∃ k s'', 0 < k ∧ p.run o k (s', w'.trace) = some (s'', w'.trace) ∧
        if again then I w' s'' else Q w' s'') (exec round w)) (hm : m ≤ n) {w : World} {s : p.State}
    (hs : I w s) : p.Follows o m (s, w.trace) (fun _ => Q) (exec (Expr.rounds m round) w) := by
  induction m generalizing w s with
  | zero => exact ⟨0, s, Nat.le_refl 0, rfl⟩
  | succ m ih =>
    refine ((h w s hs).of_le hm).bind ?_
    rintro again w' s' ⟨k, s'', hk, hrun, hI⟩
    cases again with
    | false => exact .after hrun (.pure hI)
    | true => exact ((ih (by omega) hI).steps hrun).of_le (by omega)

end Process.Follows

end ScalarLang
