import ScalarLang.Proofs.Codegen.Yields
import ScalarLang.Proofs.IR.Header

/-! Generating an expression is a composition of steps. What holds of every step, and of generators
that follow each other if it holds of both, holds of generating any expression. -/

namespace ScalarLang.Codegen

open IR (Builder BlockId Operand Operation SlotId Terminator)

/-- The property holds of the steps of generation, and is kept when they are composed. -/
structure Compositional (registry : Registry) (C : (α : Type) → Gen α → Prop) : Prop where
  pure {α : Type} (a : α) : C α (pure a)
  throw {α : Type} (e : CodegenError) : (∀ v, e ≠ .verify v) → C α (throw e)
  bind {α β : Type} {g : Gen α} {k : α → Gen β} : C α g → (∀ a, C β (k a)) → C β (g >>= k)
  build {α : Type} (step : Builder → α × Builder) :
    (∀ b, (step b).2.func.header = b.func.header) → C α (build step)
  lookup (name : String) : C SlotId (lookup name)
  withBinding {α : Type} {name : String} {slot : SlotId} {body : Gen α} :
    C α body → C α (withBinding name slot body)
  checkArity (callee : String) (n : Nat) : C Unit (checkArity registry callee n)

theorem genExpr_binary {registry : Registry} {op : Char} (hop : op ≠ '=') (left right : Expr) :
    genExpr registry (.binary op left right) = genExpr registry left >>= fun l =>
      genExpr registry right >>= applyBinary registry op l := by
  cases left <;> simp only [genExpr, if_neg hop]

namespace Compositional

variable {registry : Registry} {C : (α : Type) → Gen α → Prop} (h : Compositional registry C)
include h

theorem edit (step : Builder → Builder) (hstep : ∀ b, (step b).func.header = b.func.header) :
    C Unit (edit step) := h.build (fun b => ((), step b)) hstep

theorem emit (op : Operation) (name : String) : C Operand (emit op name) := h.build _ fun _ => rfl

theorem store (slot : SlotId) (v : Operand) : C Unit (Codegen.edit (·.addStore slot v)) :=
  h.edit _ fun _ => rfl

theorem terminate (t : Terminator) : C Unit (terminate t) := h.edit _ fun _ => rfl

theorem moveTo (b : BlockId) : C Unit (moveTo b) := h.edit _ fun _ => rfl

theorem openBlock (b : BlockId) : C Unit (openBlock b) := h.edit _ fun _ => rfl

theorem here : C BlockId here := h.build (fun b => (b.current, b)) fun _ => rfl

theorem operatorCall (callee : String) (args : List Operand) (name : String) :
    C Operand (operatorCall registry callee args name) :=
  h.bind (h.checkArity callee args.length) fun _ => h.emit _ name

theorem applyBinary (op : Char) (left right : Operand) :
    C Operand (applyBinary registry op left right) := by
  unfold Codegen.applyBinary
  split
  · exact h.emit _ _
  · split
    · exact h.bind (h.emit _ _) fun _ => h.emit _ _
    · exact h.operatorCall _ _ _

/-! ### Expressions -/

theorem assign {name : String} {right : Expr} (hr : C Operand (genExpr registry right)) :
    C Operand (genExpr registry (.binary '=' (.var name) right)) := by
  rw [genExpr, if_pos rfl]
  refine h.bind hr fun v => h.bind (h.lookup name) fun slot => ?_
  exact h.bind (h.store slot v) fun _ => h.pure v

theorem invalid {left right : Expr} (hl : ∀ name, left ≠ .var name) :
    C Operand (genExpr registry (.binary '=' left right)) := by
  have he : genExpr registry (.binary '=' left right) = MonadExcept.throw .invalidTarget := by
    cases left with
    | var name => exact absurd rfl (hl name)
    | _ => simp only [genExpr, if_true]
  rw [he]
  exact h.throw _ (by simp)

theorem binary {op : Char} {left right : Expr} (hop : op ≠ '=')
    (hl : C Operand (genExpr registry left)) (hr : C Operand (genExpr registry right)) :
    C Operand (genExpr registry (.binary op left right)) := by
  rw [genExpr_binary hop]
  exact h.bind hl fun l => h.bind hr fun r => h.applyBinary op l r

theorem cond {test yes : Expr} {no : Option Expr} (ht : C Operand (genExpr registry test))
    (hy : C Operand (genExpr registry yes)) (hn : C Operand (genElse registry no)) :
    C Operand (genExpr registry (.cond test yes no)) := by
  rw [genExpr]
  refine h.bind ht fun v => h.bind (h.emit _ _) fun cond => ?_
  refine h.bind (h.build _ fun _ => rfl) fun yesBlock => ?_
  refine h.bind (h.build _ fun _ => rfl) fun noBlock => ?_
  refine h.bind (h.build _ fun _ => rfl) fun joinBlock => ?_
  refine h.bind (h.terminate _) fun _ => h.bind (h.moveTo yesBlock) fun _ => ?_
  refine h.bind hy fun yesValue => h.bind (h.terminate _) fun _ => ?_
  refine h.bind h.here fun yesEnd => h.bind (h.openBlock noBlock) fun _ => ?_
  refine h.bind hn fun noValue => h.bind (h.terminate _) fun _ => ?_
  exact h.bind h.here fun noEnd => h.bind (h.openBlock joinBlock) fun _ => h.emit _ _

theorem loop {index : String} {start stop step body : Expr}
    (hstart : C Operand (genExpr registry start)) (hbody : C Operand (genExpr registry body))
    (hstep : C Operand (genExpr registry step)) (hstop : C Operand (genExpr registry stop)) :
    C Operand (genExpr registry (.loop index start stop step body)) := by
  rw [genExpr]
  refine h.bind (h.build _ fun _ => rfl) fun slot => h.bind hstart fun first => ?_
  refine h.bind (h.store slot first) fun _ => h.bind (h.build _ fun _ => rfl) fun loopBlock => ?_
  refine h.bind (h.terminate _) fun _ => h.bind (h.moveTo loopBlock) fun _ => ?_
  refine h.bind (h.withBinding ?_) fun _ => h.pure _
  refine h.bind hbody fun _ => h.bind hstep fun increment => h.bind (h.emit _ _) fun current => ?_
  refine h.bind (h.emit _ _) fun next => h.bind (h.store slot next) fun _ => ?_
  refine h.bind hstop fun v => h.bind (h.emit _ _) fun cond => ?_
  refine h.bind (h.build _ fun _ => rfl) fun afterBlock => ?_
  exact h.bind (h.terminate _) fun _ => h.moveTo afterBlock

theorem vars_cons {name : String} {init : Option Expr} {rest : List (String × Option Expr)}
    {body : Gen Operand} (hi : C Operand (genInit registry init))
    (hrest : C Operand (genVars registry rest body)) :
    C Operand (genVars registry ((name, init) :: rest) body) := by
  rw [genVars]
  refine h.bind (h.build _ fun _ => rfl) fun slot => h.bind hi fun v => ?_
  exact h.bind (h.store slot v) fun _ => h.withBinding hrest

theorem expr (e : Expr) : C Operand (genExpr registry e) := by
  refine genExpr.induct registry (fun e => C Operand (genExpr registry e))
    (fun e => C Operand (genElse registry e)) (fun es => C (List Operand) (genArgs registry es))
    (fun vars => ∀ body, C Operand body → C Operand (genVars registry vars body))
    (fun e => C Operand (genInit registry e)) ?_ ?_ ?_ (fun _ _ => h.assign)
    (fun _ _ => h.invalid) (fun _ _ _ => h.binary) ?_ ?_ (fun _ _ _ => h.cond)
    (fun _ _ _ _ _ => h.loop) ?_ (fun _ _ _ hi hrest _ hb => h.vars_cons hi (hrest _ hb)) ?_ ?_ ?_ ?_
    ?_ ?_ e
  · intro v
    rw [genExpr]
    exact h.pure _
  · intro name
    rw [genExpr]
    exact h.bind (h.lookup name) fun slot => h.emit _ name
  · intro op e he
    rw [genExpr]
    exact h.bind he fun v => h.operatorCall _ _ _
  · intro vars body hv hb
    rw [genExpr_declare]
    exact hv _ hb
  · intro callee args ha
    rw [genExpr]
    exact h.bind (h.checkArity callee args.length) fun _ => h.bind ha fun vs => h.emit _ _
  · intro body hb
    rw [genVars]
    exact hb
  · rw [genArgs]
    exact h.pure _
  · intro e rest he hrest
    rw [genArgs]
    exact h.bind he fun v => h.bind hrest fun vs => h.pure (v :: vs)
  · intro e he
    rw [genElse]
    exact he
  · rw [genElse]
    exact h.throw _ (by simp)
  · intro e he
    rw [genInit]
    exact he
  · rw [genInit]
    exact h.pure _

end Compositional

end ScalarLang.Codegen
