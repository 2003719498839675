import ScalarLang.Proofs.Syntax.Items

/-! Writing programs. Expressions that stand inside others are put in parentheses, and steps and
precedences are always given. A program that is written so is read back as it was, if every infix
operator is known where it is used. -/

namespace ScalarLang

/-! ### Expressions -/

def enclose (ts : List Token) : List Token := .openParen :: (ts ++ [.closeParen])

mutual

/-- The tokens of an expression. -/
def Expr.render : Expr → List Token
  | .number v => [.number v]
  | .var name => [.ident name]
  | .unary op e => .op op :: enclose e.render
  | .binary op left right => enclose left.render ++ .op op :: enclose right.render
  | .declare vars body => .kwVar :: (renderVars vars ++ .kwIn :: enclose body.render)
  | .call callee args => .ident callee :: enclose (renderArgs args)
  | .cond test yes no =>
    .kwIf :: (enclose test.render ++ .kwThen :: (enclose yes.render ++ renderElse no))
  | .loop index start stop step body =>
    .kwFor :: .ident index :: .op '=' :: (enclose start.render ++ .comma ::
      (enclose stop.render ++ .comma :: (enclose step.render ++ .kwIn :: enclose body.render)))

def renderArgs : List Expr → List Token
  | [] => []
  | [e] => enclose e.render
  | e :: more :: rest => enclose e.render ++ .comma :: renderArgs (more :: rest)

def renderVars : List (String × Option Expr) → List Token
  | [] => []
  | [(name, init)] => .ident name :: renderInit init
  | (name, init) :: more :: rest =>
    .ident name :: (renderInit init ++ .comma :: renderVars (more :: rest))

def renderInit : Option Expr → List Token
  | some e => .op '=' :: enclose e.render
  | none => []

def renderElse : Option Expr → List Token
  | some e => .kwElse :: enclose e.render
  | none => []

end

/-- Declarations declare something, and infix operators are known. -/
inductive Expr.Readable (ops : Operators) : Expr → Prop
  | number {v} : Readable ops (.number v)
  | var {name} : Readable ops (.var name)
  | unary {op e} : Readable ops e → Readable ops (.unary op e)
  | binary {op left right} : (ops.find? op).isSome → Readable ops left → Readable ops right →
      Readable ops (.binary op left right)
  | declare {vars body} : vars ≠ [] → (∀ name e, (name, some e) ∈ vars → Readable ops e) →
      Readable ops body → Readable ops (.declare vars body)
  | call {callee args} : (∀ e ∈ args, Readable ops e) → Readable ops (.call callee args)
  | cond {test yes no} : Readable ops test → Readable ops yes → (∀ e ∈ no, Readable ops e) →
      Readable ops (.cond test yes no)
  | loop {index start stop step body} : Readable ops start → Readable ops stop →
      Readable ops step → Readable ops body → Readable ops (.loop index start stop step body)

open Phrase (Spelled)
open ParseResult

section

variable {ops : Operators} {e : Expr} {next : Option Token}

/-- What is in parentheses can stand where no operator follows. -/
theorem spelled_enclose {least : UInt32} (h : Spelled ops (.whole 0 e) (some .closeParen) e.render)
    (hnext : ∀ c, next ≠ some (.op c)) :
    Spelled ops (.whole least e) next (enclose e.render) :=
  .whole (.single (.parens h)) (.of_ne hnext)

theorem spelled_renderArgs {args : List Expr} (hargs : args ≠ [])
    (h : ∀ e ∈ args, Spelled ops (.whole 0 e) (some .closeParen) e.render) :
    Spelled ops (.args args) (some .closeParen) (renderArgs args) := by
  induction args with
  | nil => exact absurd rfl hargs
  | cons e rest ih =>
    obtain ⟨he, hrest⟩ := List.forall_mem_cons.1 h
    cases rest with
    | nil =>
      rw [renderArgs]
      exact .lastArg (spelled_enclose he (by simp))
    | cons more rest =>
      rw [renderArgs]
      exact .moreArgs (spelled_enclose he (by simp)) (ih (by simp) hrest)

theorem spelled_renderInit {name : String} {init : Option Expr}
    (h : ∀ e ∈ init, Spelled ops (.whole 0 e) (some .closeParen) e.render)
    (hnext : ∀ c, next ≠ some (.op c)) :
    Spelled ops (.binding name init) next (.ident name :: renderInit init) := by
  cases init with
  | none =>
    rw [renderInit]
    exact .unset (hnext '=')
  | some e =>
    rw [renderInit]
    exact .set (spelled_enclose (h e rfl) hnext)

theorem spelled_renderVars {vars : List (String × Option Expr)} (hvars : vars ≠ [])
    (h : ∀ name e, (name, some e) ∈ vars → Spelled ops (.whole 0 e) (some .closeParen) e.render) :
    Spelled ops (.bindings vars) (some .kwIn) (renderVars vars) := by
  induction vars with
  | nil => exact absurd rfl hvars
  | cons var rest ih =>
    obtain ⟨name, init⟩ := var
    have hinit : ∀ e ∈ init, Spelled ops (.whole 0 e) (some .closeParen) e.render := by
      rintro e rfl
      exact h name e List.mem_cons_self
    cases rest with
    | nil =>
      rw [renderVars]
      exact .lastBinding (spelled_renderInit hinit (by simp)) (by simp)
    | cons more rest =>
      rw [renderVars]
      exact .moreBindings (spelled_renderInit hinit (by simp))
        (ih (by simp) fun name e he => h name e (List.mem_cons_of_mem _ he))

/-- The tokens after which nothing belongs to an expression. -/
def Closing (next : Option Token) : Prop := next = some .closeParen ∨ next = some .semi

theorem Closing.ne_op (h : Closing next) (c : Char) : next ≠ some (.op c) := by
  rcases h with rfl | rfl <;> simp

theorem Closing.ne_openParen (h : Closing next) : next ≠ some .openParen := by
  rcases h with rfl | rfl <;> simp

theorem Closing.ne_else (h : Closing next) : next ≠ some .kwElse := by
  rcases h with rfl | rfl <;> simp

theorem Expr.Readable.spelled (h : e.Readable ops) :
    ∀ next, Closing next → Spelled ops (.whole 0 e) next e.render := by
  have hclose : Closing (some .closeParen) := .inl rfl
  induction h with
  | number =>
    intro next hnext
    rw [Expr.render]
    exact .whole (.single .number) (.of_ne hnext.ne_op)
  | var =>
    intro next hnext
    rw [Expr.render]
    exact .whole (.single (.var hnext.ne_openParen)) (.of_ne hnext.ne_op)
  | unary _ ih =>
    intro next hnext
    rw [Expr.render]
    exact .whole (.single (.unary (.parens (ih _ hclose)))) (.of_ne hnext.ne_op)
  | binary hop _ _ ihl ihr =>
    intro next hnext
    obtain ⟨power, hpower⟩ := Operators.exists_power hop
    rw [Expr.render]
    exact .whole (.binary (.single (.parens (ihl _ hclose))) hpower UInt32.zero_le
      (spelled_enclose (ihr _ hclose) hnext.ne_op)) (.of_ne hnext.ne_op)
  | declare hvars _ _ ihv ihb =>
    intro next hnext
    rw [Expr.render]
    exact .whole (.single (.declare
      (spelled_renderVars hvars fun name e he => ihv name e he _ hclose)
      (spelled_enclose (ihb _ hclose) hnext.ne_op))) (.of_ne hnext.ne_op)
  | @call callee args _ ih =>
    intro next hnext
    rw [Expr.render]
    refine .whole (.single ?_) (.of_ne hnext.ne_op)
    by_cases hargs : args = []
    · subst hargs
      rw [renderArgs]
      exact .callEmpty
    · exact .call (spelled_renderArgs hargs fun e he => ih e he _ hclose)
  | @cond test yes no _ _ _ iht ihy ihn =>
    intro next hnext
    rw [Expr.render]
    refine .whole (.single ?_) (.of_ne hnext.ne_op)
    cases no with
    | none =>
      rw [renderElse, List.append_nil]
      exact .ifThen (spelled_enclose (iht _ hclose) (by simp))
        (spelled_enclose (ihy _ hclose) hnext.ne_op) hnext.ne_else
    | some no =>
      rw [renderElse]
      exact .ifElse (spelled_enclose (iht _ hclose) (by simp))
        (spelled_enclose (ihy _ hclose) (by simp))
        (spelled_enclose (ihn no rfl _ hclose) hnext.ne_op)
  | loop _ _ _ _ ihs iht ihp ihb =>
    intro next hnext
    rw [Expr.render]
    exact .whole (.single (.loopStep (spelled_enclose (ihs _ hclose) (by simp))
      (spelled_enclose (iht _ hclose) (by simp)) (spelled_enclose (ihp _ hclose) (by simp))
      (spelled_enclose (ihb _ hclose) hnext.ne_op))) (.of_ne hnext.ne_op)

end

/-! ### Items -/

/-- What the rules above leave open: whether commas stand between parameters, and whether the
expression of an item is in parentheses too. -/
structure Layout where
  commas : Bool
  enclosed : Bool

namespace Layout

def params (layout : Layout) : List String → List Token
  | [] => []
  | [name] => [.ident name]
  | name :: more :: rest =>
    if layout.commas then .ident name :: .comma :: layout.params (more :: rest)
    else .ident name :: layout.params (more :: rest)

/-- What a prototype begins with; a precedence is always given. -/
def head (proto : Prototype) : List Token :=
  let symbol := (proto.operator?.map Token.op).toList
  match proto.fixity with
  | .plain => [.ident proto.name]
  | .unary => .kwUnary :: symbol
  | .binary p => .kwBinary :: (symbol ++ [.number p.toFloat])

def prototype (layout : Layout) (proto : Prototype) : List Token :=
  head proto ++ enclose (layout.params proto.params)

def body (layout : Layout) (e : Expr) : List Token :=
  if layout.enclosed then enclose e.render else e.render

def item (layout : Layout) : Item → List Token
  | .foreign proto => .kwExtern :: layout.prototype proto
  | .function proto body =>
    if proto = .anonymous then layout.body body
    else .kwDef :: (layout.prototype proto ++ layout.body body)

/-- The tokens of a program: each item ends with a semicolon. -/
def program (layout : Layout) (items : List Item) : List Token :=
  items.flatMap fun item => layout.item item ++ [.semi]

end Layout

/-- The infix operator that an item declares, with its precedence. -/
def Item.declared? (item : Item) : Option (Char × UInt32) :=
  match item.proto.fixity with
  | .binary p => item.proto.operator?.map (·, p)
  | _ => none

/-- The operators that are known after items: those declared last count. -/
def Operators.after (ops : Operators) (items : List Item) : Operators :=
  (items.filterMap Item.declared?).foldl (fun ops entry => ops.install entry.1 entry.2) ops

/-- A prototype of an operator has its name and as many parameters as operands. -/
def Prototype.Declares (proto : Prototype) : Prop :=
  match proto.fixity with
  | .plain => True
  | .unary => (∃ op, proto.name = unaryName op) ∧ proto.params.length = 1
  | .binary p =>
    (∃ op, proto.name = binaryName op) ∧ proto.params.length = 2 ∧ 1 ≤ p ∧ p ≤ 100

def Item.Readable (ops : Operators) : Item → Prop
  | .foreign proto => proto.Declares
  | .function proto body => proto.Declares ∧ body.Readable ops

/-- Items are readable with the operators of those before them and their own. -/
def Readable (ops : Operators) (items : List Item) : Prop :=
  ∀ earlier item later, items = earlier ++ item :: later →
    item.Readable (ops.after (earlier ++ [item]))

section

variable {ops : Operators}

theorem Operators.after_append (ops : Operators) (items items' : List Item) :
    ops.after (items ++ items') = (ops.after items).after items' := by
  simp only [after, List.filterMap_append, List.foldl_append]

theorem Operators.after_singleton (ops : Operators) (item : Item) :
    ops.after [item] = ops.extend item.proto := by
  unfold after extend Item.declared? Prototype.precedence?
  cases hfixity : item.proto.fixity with
  | plain => simp [hfixity]
  | unary => simp [hfixity]
  | binary p => cases hop : item.proto.operator? <;> simp [hfixity, hop]

theorem readable_nil : Readable ops [] := by
  intro earlier item later h
  simp at h

/-- Items are readable one after the other, each with its own operator. -/
theorem readable_cons_iff {item : Item} {items : List Item} :
    Readable ops (item :: items) ↔
      item.Readable (ops.extend item.proto) ∧ Readable (ops.extend item.proto) items := by
  rw [← Operators.after_singleton]
  constructor
  · intro h
    refine ⟨h [] item items rfl, fun earlier item' later heq => ?_⟩
    rw [← Operators.after_append]
    exact h (item :: earlier) item' later (by rw [heq, List.cons_append])
  · rintro ⟨hitem, hitems⟩ earlier item' later heq
    cases earlier with
    | nil =>
      obtain ⟨rfl, rfl⟩ := List.cons.inj heq
      exact hitem
    | cons first earlier =>
      obtain ⟨rfl, rfl⟩ := List.cons.inj heq
      have h := hitems earlier item' later rfl
      rwa [← Operators.after_append] at h

theorem Layout.params_spelled (layout : Layout) (names : List String) :
    ParamsSpelled names (layout.params names) := by
  induction names with
  | nil => exact .nil
  | cons name rest ih =>
    cases rest with
    | nil => exact .cons .nil
    | cons more rest =>
      rw [Layout.params]
      split
      · exact .comma ih
      · exact .cons ih

theorem Layout.prototype_spelled (layout : Layout) {proto : Prototype} (h : proto.Declares) :
    proto.Spelled (layout.prototype proto) := by
  obtain ⟨name, params, fixity⟩ := proto
  have hparams := layout.params_spelled params
  cases fixity with
  | plain => exact .plain hparams
  | unary =>
    obtain ⟨⟨op, rfl⟩, hlength⟩ := h
    have hop : Prototype.operator? ⟨Prototype.unaryName op, params, .unary⟩ = some op := by
      simp [Prototype.operator?, Prototype.unaryName]
    simp only [Layout.prototype, Layout.head, hop]
    exact .unary hparams hlength
  | binary p =>
    obtain ⟨⟨op, rfl⟩, hlength, h₁, h₂⟩ := h
    have hop : Prototype.operator? ⟨Prototype.binaryName op, params, .binary p⟩ = some op := by
      simp [Prototype.operator?, Prototype.binaryName]
    simp only [Layout.prototype, Layout.head, hop]
    exact .binary (.given h₁ h₂) hparams hlength

theorem Layout.body_spelled (layout : Layout) {e : Expr} (h : e.Readable ops) :
    Spelled ops (.whole 0 e) (some .semi) (layout.body e) := by
  unfold Layout.body
  split
  · exact spelled_enclose (h.spelled _ (.inl rfl)) (by simp)
  · exact h.spelled _ (.inr rfl)

theorem Layout.item_spelled (layout : Layout) {item : Item}
    (h : item.Readable (ops.extend item.proto)) :
    item.Spelled ops (some .semi) (layout.item item) := by
  cases item with
  | foreign proto => exact .foreign (layout.prototype_spelled h)
  | function proto body =>
    obtain ⟨hproto, hbody⟩ := h
    by_cases hanonymous : proto = .anonymous
    · subst hanonymous
      rw [Layout.item, if_pos rfl]
      exact .expr (layout.body_spelled hbody)
    · rw [Layout.item, if_neg hanonymous]
      exact .function (layout.prototype_spelled hproto) (layout.body_spelled hbody)

/-! ### Programs -/

theorem parseProgram_of_gives {tokens rest : List Token} {item : Item}
    (h : (parseItem ops tokens).2.Gives item rest) :
    parseProgram ops tokens = (parseProgram (ops.extend item.proto) rest).addItem item := by
  cases tokens with
  | nil => exact absurd h.length_lt (Nat.not_lt_zero _)
  | cons t mid =>
    have hsemi : t ≠ .semi := by
      rintro rfl
      rw [parseItem_eq_parseExpr (by simp) (by simp)] at h
      obtain ⟨e, he, -⟩ := gives_map_iff.1 h
      exact not_gives_parseExpr rfl he
    have hops := operators_of_gives_parseItem h
    obtain ⟨hlt, hok⟩ := h
    have hitem : parseItem ops (t :: mid) = (ops.extend item.proto, .ok ⟨item, rest, hlt⟩) :=
      Prod.ext hops hok
    rw [parseProgram]
    · simp only [hitem]
    · exact hsemi

theorem parseProgram_program_eq (layout : Layout) {items : List Item} (h : Readable ops items) :
    parseProgram ops (layout.program items) = ⟨items, [], ops.after items⟩ := by
  induction items generalizing ops with
  | nil => rw [Layout.program, List.flatMap_nil, parseProgram]; rfl
  | cons item items ih =>
    obtain ⟨hitem, hitems⟩ := readable_cons_iff.1 h
    -- the semicolon ends the item, and the next ones are read with the operators after it
    have hgives : (parseItem ops (layout.item item ++ .semi :: layout.program items)).2.Gives item
        (.semi :: layout.program items) := (layout.item_spelled hitem).gives
    have htokens : layout.program (item :: items) =
        layout.item item ++ .semi :: layout.program items := by
      simp [Layout.program]
    have hafter : ops.after (item :: items) = (ops.extend item.proto).after items := by
      rw [← Operators.after_singleton, ← Operators.after_append, List.singleton_append]
    rw [htokens, parseProgram_of_gives hgives, parseProgram, ih hitems, hafter]
    rfl

end

/-- A program that was written is read back, without errors, and leaves the operators that it
declares. So is every text with these tokens. -/
theorem parseProgram_program (layout : Layout) {ops : Operators} {items : List Item}
    (h : Readable ops items) :
    parseProgram ops (layout.program items) = ⟨items, [], ops.after items⟩ ∧
      ∀ text, (lex text).map (·.token) = layout.program items →
        readProgram ops text = ⟨⟨items, [], ops.after items⟩, ⟨text, []⟩⟩ := by
  have hprogram := parseProgram_program_eq layout h
  refine ⟨hprogram, fun text htext => ?_⟩
  simp only [readProgram, htext, hprogram]
  rfl

def disjunction : Item :=
  .function ⟨Prototype.binaryName '|', ["a", "b"], .binary 5⟩
    (.cond (.var "a") (.number 1) (some (.binary '|' (.var "b") (.var "a"))))

def search : Item :=
  .ofExpr (.declare [("i", none), ("n", some (.call "sin" [.number 2]))]
    (.loop "j" (.number 0) (.binary '<' (.var "j") (.var "n")) (.number 1)
      (.binary '|' (.var "i") (.unary '!' (.var "n")))))

theorem readable_disjunction_search :
    Readable .standard [.foreign ⟨"sin", ["x"], .plain⟩, disjunction, search] := by
  refine readable_cons_iff.2 ⟨trivial, readable_cons_iff.2 ⟨⟨?_, ?_⟩,
    readable_cons_iff.2 ⟨⟨trivial, ?_⟩, readable_nil⟩⟩⟩
  · exact ⟨⟨'|', rfl⟩, rfl, by decide, by decide⟩
  · refine .cond .var .number ?_
    rintro e ⟨⟩
    exact .binary (by decide) .var .var
  · refine .declare (by simp) ?_
      (.loop .number (.binary (by decide) .var .var) .number
        (.binary (by decide) .var (.unary .var)))
    simp only [List.mem_cons, Prod.mk.injEq, Option.some.injEq, reduceCtorEq, and_false, false_or,
      List.not_mem_nil, or_false]
    rintro name e ⟨-, rfl⟩
    refine .call ?_
    simp only [List.mem_singleton]
    rintro e rfl
    exact .number

def searchText : String :=
  "extern sin(x); def binary| 5 (a, b) if (a) then (1) else ((b)|(a));
  var i, n = (sin((2))) in (for j = (0), ((j)<(n)), (1) in ((i)|(!(n))));"

theorem parseProgram_program_search :
    Readable .standard [.foreign ⟨"sin", ["x"], .plain⟩, disjunction, search] ∧
      readProgram .standard searchText =
        ⟨⟨[.foreign ⟨"sin", ["x"], .plain⟩, disjunction, search], [],
          Operators.standard.install '|' 5⟩, ⟨searchText, []⟩⟩ :=
  ⟨readable_disjunction_search,
    (parseProgram_program ⟨true, false⟩ readable_disjunction_search).2 _ (by decide +kernel)⟩

end ScalarLang
