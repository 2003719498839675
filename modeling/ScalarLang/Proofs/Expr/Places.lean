import ScalarLang.Syntax.Tree

/-! The places in an expression, with the names that are visible there. Variables of a declaration
are visible behind their own initial values, to the end of its body; the index of a loop is visible
in all its parts but the start. -/

namespace ScalarLang.Expr

/-- The names of declared variables, the innermost first. -/
def declared (vars : List (String × Option Expr)) : List String := (vars.map Prod.fst).reverse

/-- Expression `x` stands in `e` where the names `visible` are in scope, if `scope` are at `e`. -/
inductive Occurs : (scope : List String) → (e : Expr) → (visible : List String) → (x : Expr) → Prop
  | self {scope e} : Occurs scope e scope e
  | operand {scope op e visible x} : Occurs scope e visible x → Occurs scope (.unary op e) visible x
  | left {scope op left right visible x} : Occurs scope left visible x →
      Occurs scope (.binary op left right) visible x
  | right {scope op left right visible x} : Occurs scope right visible x →
      Occurs scope (.binary op left right) visible x
  | arg {scope callee args e visible x} : e ∈ args → Occurs scope e visible x →
      Occurs scope (.call callee args) visible x
  | test {scope test yes no visible x} : Occurs scope test visible x →
      Occurs scope (.cond test yes no) visible x
  | yes {scope test yes no visible x} : Occurs scope yes visible x →
      Occurs scope (.cond test yes no) visible x
  | no {scope test yes e visible x} : Occurs scope e visible x →
      Occurs scope (.cond test yes (some e)) visible x
  | start {scope index start stop step body visible x} : Occurs scope start visible x →
      Occurs scope (.loop index start stop step body) visible x
  | stop {scope index start stop step body visible x} : Occurs (index :: scope) stop visible x →
      Occurs scope (.loop index start stop step body) visible x
  | step {scope index start stop step body visible x} : Occurs (index :: scope) step visible x →
      Occurs scope (.loop index start stop step body) visible x
  | round {scope index start stop step body visible x} : Occurs (index :: scope) body visible x →
      Occurs scope (.loop index start stop step body) visible x
  | init {scope before name e after body visible x} :
      Occurs (declared before ++ scope) e visible x →
      Occurs scope (.declare (before ++ (name, some e) :: after) body) visible x
  | body {scope vars body visible x} : Occurs (declared vars ++ scope) body visible x →
      Occurs scope (.declare vars body) visible x

/-- The property holds of all places in the expression. -/
def Everywhere (P : List String → Expr → Prop) (scope : List String) (e : Expr) : Prop :=
  ∀ visible x, Occurs scope e visible x → P visible x

/-- The property holds of all places in initial values. -/
def EverywhereInits (P : List String → Expr → Prop) (scope : List String)
    (vars : List (String × Option Expr)) : Prop :=
  ∀ before name e after, vars = before ++ (name, some e) :: after →
    Everywhere P (declared before ++ scope) e

section

variable {P : List String → Expr → Prop} {scope : List String}

theorem everywhere_number_iff {v : Float} :
    Everywhere P scope (.number v) ↔ P scope (.number v) := by
  refine ⟨fun h => h _ _ .self, fun h visible x hx => ?_⟩
  cases hx
  exact h

theorem everywhere_var_iff {name : String} :
    Everywhere P scope (.var name) ↔ P scope (.var name) := by
  refine ⟨fun h => h _ _ .self, fun h visible x hx => ?_⟩
  cases hx
  exact h

theorem everywhere_unary_iff {op : Char} {e : Expr} : Everywhere P scope (.unary op e) ↔
    P scope (.unary op e) ∧ Everywhere P scope e := by
  refine ⟨fun h => ⟨h _ _ .self, fun _ _ hx => h _ _ (.operand hx)⟩, ?_⟩
  rintro ⟨hself, he⟩ visible x hx
  cases hx with
  | self => exact hself
  | operand hx => exact he _ _ hx

theorem everywhere_binary_iff {op : Char} {left right : Expr} :
    Everywhere P scope (.binary op left right) ↔
      P scope (.binary op left right) ∧ Everywhere P scope left ∧ Everywhere P scope right := by
  refine ⟨fun h => ⟨h _ _ .self, fun _ _ hx => h _ _ (.left hx), fun _ _ hx => h _ _ (.right hx)⟩,
    ?_⟩
  rintro ⟨hself, hl, hr⟩ visible x hx
  cases hx with
  | self => exact hself
  | left hx => exact hl _ _ hx
  | right hx => exact hr _ _ hx

theorem everywhere_call_iff {callee : String} {args : List Expr} :
    Everywhere P scope (.call callee args) ↔
      P scope (.call callee args) ∧ ∀ e ∈ args, Everywhere P scope e := by
  refine ⟨fun h => ⟨h _ _ .self, fun _ he _ _ hx => h _ _ (.arg he hx)⟩, ?_⟩
  rintro ⟨hself, hargs⟩ visible x hx
  cases hx with
  | self => exact hself
  | arg he hx => exact hargs _ he _ _ hx

theorem everywhere_cond_iff {test yes : Expr} {no : Option Expr} :
    Everywhere P scope (.cond test yes no) ↔ P scope (.cond test yes no) ∧
      Everywhere P scope test ∧ Everywhere P scope yes ∧ ∀ e ∈ no, Everywhere P scope e := by
  constructor
  · intro h
    refine ⟨h _ _ .self, fun _ _ hx => h _ _ (.test hx), fun _ _ hx => h _ _ (.yes hx), ?_⟩
    rintro e rfl visible x hx
    exact h _ _ (.no hx)
  · rintro ⟨hself, htest, hyes, hno⟩ visible x hx
    cases hx with
    | self => exact hself
    | test hx => exact htest _ _ hx
    | yes hx => exact hyes _ _ hx
    | no hx => exact hno _ rfl _ _ hx

theorem everywhere_loop_iff {index : String} {start stop step body : Expr} :
    Everywhere P scope (.loop index start stop step body) ↔
      P scope (.loop index start stop step body) ∧ Everywhere P scope start ∧
      Everywhere P (index :: scope) body ∧ Everywhere P (index :: scope) step ∧
      Everywhere P (index :: scope) stop := by
  constructor
  · intro h
    exact ⟨h _ _ .self, fun _ _ hx => h _ _ (.start hx), fun _ _ hx => h _ _ (.round hx),
      fun _ _ hx => h _ _ (.step hx), fun _ _ hx => h _ _ (.stop hx)⟩
  · rintro ⟨hself, hstart, hbody, hstep, hstop⟩ visible x hx
    cases hx with
    | self => exact hself
    | start hx => exact hstart _ _ hx
    | stop hx => exact hstop _ _ hx
    | step hx => exact hstep _ _ hx
    | round hx => exact hbody _ _ hx

theorem everywhere_declare_iff {vars : List (String × Option Expr)} {body : Expr} :
    Everywhere P scope (.declare vars body) ↔ P scope (.declare vars body) ∧
      EverywhereInits P scope vars ∧ Everywhere P (declared vars ++ scope) body := by
  constructor
  · intro h
    refine ⟨h _ _ .self, ?_, fun _ _ hx => h _ _ (.body hx)⟩
    rintro before name e after rfl visible x hx
    exact h _ _ (.init hx)
  · rintro ⟨hself, hinits, hbody⟩ visible x hx
    cases hx with
    | self => exact hself
    | init hx => exact hinits _ _ _ _ rfl _ _ hx
    | body hx => exact hbody _ _ hx

theorem everywhereInits_nil : EverywhereInits P scope [] := by
  rintro before name e after h
  simp at h

/-- The first variable is visible in all initial values but its own. -/
theorem everywhereInits_cons_iff {name : String} {init : Option Expr}
    {rest : List (String × Option Expr)} :
    EverywhereInits P scope ((name, init) :: rest) ↔
      (∀ e ∈ init, Everywhere P scope e) ∧ EverywhereInits P (name :: scope) rest := by
  constructor
  · intro h
    refine ⟨fun e he => h [] name e rest (by rw [he]; rfl), ?_⟩
    rintro before bound e after rfl
    have hplace := h ((name, init) :: before) bound e after rfl
    simpa [declared] using hplace
  · rintro ⟨hinit, hrest⟩ before bound e after h
    cases before with
    | nil =>
      obtain ⟨hvar, -⟩ := List.cons.inj h
      cases hvar
      exact hinit e rfl
    | cons var before =>
      obtain ⟨rfl, rfl⟩ := List.cons.inj h
      have hplace := hrest before bound e after rfl
      simpa [declared] using hplace

end

end ScalarLang.Expr
