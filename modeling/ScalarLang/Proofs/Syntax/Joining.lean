import ScalarLang.Proofs.Syntax.Suffixes
import ScalarLang.Proofs.Token.Pieces

/-! Programs in parts. A semicolon stops every parser as the end of the tokens does: it accepts or
refuses the same tokens for the same reason, and leaves the semicolon with what follows it. So two
texts with a semicolon between them are read as one text is read after the other. -/

namespace ScalarLang

namespace ParseResult

variable {α β : Type} {n n' m m' : Nat} {later : List Token}

/-- The second result is the first one with a semicolon and `later` after the tokens that are
left. -/
inductive Continued (later : List Token) : ParseResult α n → ParseResult α m → Prop
  | ok {value rest h h'} :
      Continued later (.ok ⟨value, rest, h⟩) (.ok ⟨value, rest ++ .semi :: later, h'⟩)
  | error {cause rest h h'} :
      Continued later (.error ⟨cause, rest, h⟩) (.error ⟨cause, rest ++ .semi :: later, h'⟩)

theorem Continued.weaken {r : ParseResult α n} {r' : ParseResult α m} (h : r.Continued later r')
    (hle : n ≤ n') (hle' : m ≤ m') : (r.weaken hle).Continued later (r'.weaken hle') := by
  cases h with
  | ok => exact .ok
  | error => exact .error

theorem Continued.andThen {r : ParseResult α n} {r' : ParseResult α m}
    {next : (value : α) → (rest : List Token) → rest.length < n → ParseResult β n}
    {next' : (value : α) → (rest : List Token) → rest.length < m → ParseResult β m}
    (h : r.Continued later r')
    (hnext : ∀ value rest hlt hlt',
      (next value rest hlt).Continued later (next' value (rest ++ .semi :: later) hlt')) :
    (r.andThen next).Continued later (r'.andThen next') := by
  cases h with
  | ok => exact hnext _ _ _ _
  | error => exact .error

theorem Continued.map {r : ParseResult α n} {r' : ParseResult α m} (h : r.Continued later r')
    (g : α → β) : (r.map g).Continued later (r'.map g) :=
  h.andThen fun _ _ _ _ => .ok

theorem Continued.eq_ok {p : Parsed α n} {r' : ParseResult α m}
    (h : Continued later (.ok p) r') :
    ∃ hlt, r' = .ok ⟨p.value, p.rest ++ .semi :: later, hlt⟩ := by
  cases h
  exact ⟨_, rfl⟩

theorem Continued.eq_error {f : Failure n} {r' : ParseResult α m}
    (h : Continued later (.error f) r') :
    ∃ hle, r' = .error ⟨f.cause, f.rest ++ .semi :: later, hle⟩ := by
  cases h
  exact ⟨_, rfl⟩

end ParseResult

open ParseResult

section

variable {ops : Operators} {least : UInt32} {tokens rest later : List Token}

/-! ### Expressions -/

theorem ne_cons_of_append {t : Token} (ht : t ≠ .semi) (h : ∀ rest, tokens = t :: rest → False)
    (rest : List Token) : tokens ++ .semi :: later = t :: rest → False := by
  cases tokens with
  | nil => exact fun heq => ht (List.cons.inj heq).1.symm
  | cons found tokens => exact fun heq => h tokens (by rw [(List.cons.inj heq).1])

theorem continued_expect {t : Token} (ht : t ≠ .semi) (tokens : List Token) :
    (expect t tokens).Continued later (expect t (tokens ++ .semi :: later)) := by
  cases tokens with
  | nil =>
    rw [List.nil_append, expect, expect, if_neg (Ne.symm ht)]
    exact .error
  | cons found rest =>
    rw [List.cons_append, expect, expect]
    split
    · exact .ok
    · exact .error

theorem continued_expectAssign (tokens : List Token) :
    (expectAssign tokens).Continued later (expectAssign (tokens ++ .semi :: later)) := by
  fun_cases expectAssign tokens with
  | case1 rest => exact .ok
  | case2 _ hrefused =>
    rw [expectAssign, expectAssign]
    · exact .error
    · exact ne_cons_of_append (by simp) hrefused
    · exact hrefused

theorem continued_parseIdent (tokens : List Token) :
    (parseIdent tokens).Continued later (parseIdent (tokens ++ .semi :: later)) := by
  fun_cases parseIdent tokens with
  | case1 name rest => exact .ok
  | case2 _ hrefused =>
    rw [parseIdent, parseIdent]
    · exact .error
    · exact fun name => ne_cons_of_append (by simp) (hrefused name)
    · exact hrefused

theorem continued_infix {left : Expr} {c : Char} {power : BindingPower}
    (hpower : ops.power? c = some power) (hleast : least ≤ power.left)
    (hright : (parseExpr ops power.right rest).Continued later
      (parseExpr ops power.right (rest ++ .semi :: later)))
    (hlater : ∀ right rest', rest'.length < rest.length →
      (parseInfix ops least (.binary c left right) rest').Continued later
        (parseInfix ops least (.binary c left right) (rest' ++ .semi :: later))) :
    (parseInfix ops least left (.op c :: rest)).Continued later
      (parseInfix ops least left (.op c :: rest ++ .semi :: later)) := by
  rw [List.cons_append, parseInfix, parseInfix]
  simp only [hpower, if_pos hleast]
  exact (hright.andThen fun right rest' hlt _ => (hlater right rest' hlt).weaken _ _).weaken _ _

theorem continued_primary_vars
    (hvars : (parseVars ops rest).Continued later (parseVars ops (rest ++ .semi :: later)))
    (hbody : ∀ rest₂, rest₂.length < rest.length →
      (parseExpr ops 0 rest₂).Continued later (parseExpr ops 0 (rest₂ ++ .semi :: later))) :
    (parsePrimary ops (.kwVar :: rest)).Continued later
      (parsePrimary ops (.kwVar :: rest ++ .semi :: later)) := by
  rw [List.cons_append, parsePrimary, parsePrimary]
  refine (hvars.andThen fun vars rest' _ _ => ?_).weaken _ _
  refine ((continued_expect (by simp) rest').weaken _ _).andThen fun _ rest₂ hlt _ => ?_
  exact ((hbody rest₂ hlt).map _).weaken _ _

theorem continued_args
    (harg : (parseExpr ops 0 tokens).Continued later (parseExpr ops 0 (tokens ++ .semi :: later)))
    (hmore : ∀ rest', (Token.comma :: rest').length < tokens.length →
      (parseArgs ops rest').Continued later (parseArgs ops (rest' ++ .semi :: later))) :
    (parseArgs ops tokens).Continued later (parseArgs ops (tokens ++ .semi :: later)) := by
  rw [parseArgs, parseArgs]
  refine harg.andThen fun arg rest hlt hlt' => ?_
  cases rest with
  | nil => exact .error
  | cons t rest' =>
    cases t with
    | closeParen => exact .ok
    | comma => exact ((hmore rest' hlt).map _).weaken _ _
    | _ => exact .error

theorem continued_cond
    (htest : (parseExpr ops 0 tokens).Continued later (parseExpr ops 0 (tokens ++ .semi :: later)))
    (hyes : ∀ rest₂, rest₂.length < tokens.length →
      (parseExpr ops 0 rest₂).Continued later (parseExpr ops 0 (rest₂ ++ .semi :: later)))
    (hno : ∀ rest₄, (Token.kwElse :: rest₄).length < tokens.length →
      (parseExpr ops 0 rest₄).Continued later (parseExpr ops 0 (rest₄ ++ .semi :: later))) :
    (parseCond ops tokens).Continued later (parseCond ops (tokens ++ .semi :: later)) := by
  rw [parseCond, parseCond]
  refine htest.andThen fun test rest₁ _ _ => ?_
  refine ((continued_expect (by simp) rest₁).weaken _ _).andThen fun _ rest₂ hlt _ => ?_
  refine ((hyes rest₂ hlt).weaken _ _).andThen fun yes rest₃ hlt₃ _ => ?_
  cases rest₃ with
  | nil => exact .ok
  | cons t rest₄ =>
    cases t with
    | kwElse => exact ((hno rest₄ hlt₃).map _).weaken _ _
    | _ => exact .ok

theorem continued_loop
    (hexpr : ∀ rest₂, rest₂.length < tokens.length →
      (parseExpr ops 0 rest₂).Continued later (parseExpr ops 0 (rest₂ ++ .semi :: later)))
    (hstep : ∀ (rest₅ : List Token) (h₅ : rest₅.length < tokens.length) (m : Nat)
      (h : (rest₅ ++ .semi :: later).length < m),
      (parseStep ops rest₅ h₅).Continued later (parseStep ops (rest₅ ++ .semi :: later) h)) :
    (parseLoop ops tokens).Continued later (parseLoop ops (tokens ++ .semi :: later)) := by
  rw [parseLoop, parseLoop]
  refine (continued_parseIdent tokens).andThen fun index rest₁ _ _ => ?_
  refine ((continued_expectAssign rest₁).weaken _ _).andThen fun _ rest₂ hlt₂ _ => ?_
  refine ((hexpr rest₂ hlt₂).weaken _ _).andThen fun start rest₃ _ _ => ?_
  refine ((continued_expect (by simp) rest₃).weaken _ _).andThen fun _ rest₄ hlt₄ _ => ?_
  refine ((hexpr rest₄ hlt₄).weaken _ _).andThen fun stop rest₅ hlt₅ _ => ?_
  refine (hstep rest₅ hlt₅ _ _).andThen fun step rest₆ _ _ => ?_
  refine ((continued_expect (by simp) rest₆).weaken _ _).andThen fun _ rest₇ hlt₇ _ => ?_
  exact ((hexpr rest₇ hlt₇).map _).weaken _ _

theorem continued_vars
    (hinit : ∀ (rest : List Token) (h : rest.length < tokens.length) (m : Nat)
      (h' : (rest ++ .semi :: later).length < m),
      (parseInit ops rest h).Continued later (parseInit ops (rest ++ .semi :: later) h'))
    (hmore : ∀ rest₂, (Token.comma :: rest₂).length < tokens.length →
      (parseVars ops rest₂).Continued later (parseVars ops (rest₂ ++ .semi :: later))) :
    (parseVars ops tokens).Continued later (parseVars ops (tokens ++ .semi :: later)) := by
  rw [parseVars, parseVars]
  refine (continued_parseIdent tokens).andThen fun name rest hlt _ => ?_
  refine (hinit rest hlt _ _).andThen fun init rest' hlt' _ => ?_
  cases rest' with
  | nil => exact .ok
  | cons t rest₂ =>
    cases t with
    | comma => exact ((hmore rest₂ hlt').map _).weaken _ _
    | _ => exact .ok

end

theorem continued_parseExpr (ops : Operators) (least : UInt32) (tokens later : List Token) :
    (parseExpr ops least tokens).Continued later
      (parseExpr ops least (tokens ++ .semi :: later)) := by
  -- where a parser looks at the next token, the end and the semicolon lead to the same branch
  refine parseExpr.induct ops
    (fun least tokens => (parseExpr ops least tokens).Continued later
      (parseExpr ops least (tokens ++ .semi :: later)))
    (fun least left tokens => (parseInfix ops least left tokens).Continued later
      (parseInfix ops least left (tokens ++ .semi :: later)))
    (fun tokens => (parseUnary ops tokens).Continued later
      (parseUnary ops (tokens ++ .semi :: later)))
    (fun tokens => (parsePrimary ops tokens).Continued later
      (parsePrimary ops (tokens ++ .semi :: later)))
    (fun tokens => (parseVars ops tokens).Continued later
      (parseVars ops (tokens ++ .semi :: later)))
    (fun n tokens h => ∀ (m : Nat) (h' : (tokens ++ .semi :: later).length < m),
      (parseInit ops tokens h).Continued later (parseInit ops (tokens ++ .semi :: later) h'))
    (fun tokens => (parseLoop ops tokens).Continued later
      (parseLoop ops (tokens ++ .semi :: later)))
    (fun n tokens h => ∀ (m : Nat) (h' : (tokens ++ .semi :: later).length < m),
      (parseStep ops tokens h).Continued later (parseStep ops (tokens ++ .semi :: later) h'))
    (fun tokens => (parseCond ops tokens).Continued later
      (parseCond ops (tokens ++ .semi :: later)))
    (fun tokens => (parseArgs ops tokens).Continued later
      (parseArgs ops (tokens ++ .semi :: later)))
    ?_ (fun _ _ _ _ _ => continued_infix) ?_ ?_ ?_ ?_ ?_ ?_ ?_ ?_ ?_ ?_ ?_ ?_
    (fun _ hvars hbody => continued_primary_vars hvars fun rest₂ => hbody [] rest₂) ?_
    (fun _ => continued_vars) ?_ ?_ ?_
    (fun _ hstart _ hstep _ => continued_loop (hstart []) (hstep [] [] [] [])) ?_ ?_
    (fun _ htest hyes hno => continued_cond htest (hyes []) (hno [] [] []))
    (fun _ => continued_args) least tokens
  · intro least tokens hunary hlater
    rw [parseExpr, parseExpr]
    exact hunary.andThen fun left rest hlt _ => (hlater left rest hlt).weaken _ _
  · intro least left c rest power hpower hleast
    rw [List.cons_append]
    simp only [parseInfix, hpower, if_neg hleast]
    exact .ok
  · intro least left c rest hpower
    rw [List.cons_append]
    simp only [parseInfix, hpower]
    exact .ok
  · intro least left others hothers
    rw [parseInfix, parseInfix]
    · exact .ok
    · exact fun c => ne_cons_of_append (by simp) (hothers c)
    · exact hothers
  · intro c rest hrest
    rw [List.cons_append, parseUnary, parseUnary]
    exact (hrest.map _).weaken _ _
  · intro others hothers hprimary
    rw [parseUnary, parseUnary]
    · exact hprimary
    · exact fun c => ne_cons_of_append (by simp) (hothers c)
    · exact hothers
  · intro v rest
    rw [List.cons_append, parsePrimary, parsePrimary]
    exact .ok
  · intro name rest
    rw [List.cons_append, List.cons_append, List.cons_append, parsePrimary, parsePrimary]
    exact .ok
  · intro name rest hrest hargs
    rw [List.cons_append, List.cons_append, parsePrimary, parsePrimary]
    · exact (hargs.map _).weaken _ _
    · exact ne_cons_of_append (by simp) hrest
    · exact hrest
  · intro name rest hcall hopen
    rw [List.cons_append, parsePrimary, parsePrimary]
    · exact .ok
    · exact fun rest' => ne_cons_of_append (by simp) hopen _
    · exact ne_cons_of_append (by simp) hopen
    · exact hcall
    · exact hopen
  · intro rest hinner
    rw [List.cons_append, parsePrimary, parsePrimary]
    refine (hinner.andThen fun inner rest' _ _ => ?_).weaken _ _
    exact ((continued_expect (by simp) rest').map _).weaken _ _
  · intro rest hcond
    rw [List.cons_append, parsePrimary, parsePrimary]
    exact hcond.weaken _ _
  · intro rest hloop
    rw [List.cons_append, parsePrimary, parsePrimary]
    exact hloop.weaken _ _
  · intro refused hnumber hempty hcall hident hopen hif hfor hvar
    rw [parsePrimary, parsePrimary]
    · exact .error
    · exact fun v => ne_cons_of_append (by simp) (hnumber v)
    · exact fun name rest => ne_cons_of_append (by simp) (hident name) _
    · exact fun name rest => ne_cons_of_append (by simp) (hident name) _
    · exact fun name => ne_cons_of_append (by simp) (hident name)
    · exact ne_cons_of_append (by simp) hopen
    · exact ne_cons_of_append (by simp) hif
    · exact ne_cons_of_append (by simp) hfor
    · exact ne_cons_of_append (by simp) hvar
    all_goals assumption
  · intro n rest h _ hrest m h'
    show Continued later _ (parseInit ops (.op '=' :: (rest ++ .semi :: later)) h')
    rw [parseInit, parseInit, if_pos rfl, if_pos rfl]
    exact (hrest.map _).weaken _ _
  · intro n c rest h hc _ m h'
    show Continued later _ (parseInit ops (.op c :: (rest ++ .semi :: later)) h')
    rw [parseInit, parseInit, if_neg hc, if_neg hc]
    exact .ok
  · intro n others h hothers _ m h'
    have hne : ∀ c rest, others = .op c :: rest → False := by
      rintro c rest rfl
      exact hothers c rest h rfl HEq.rfl
    rw [parseInit, parseInit]
    · exact .ok
    · exact fun c rest _ heq _ => ne_cons_of_append (by simp) (hne c) rest heq
    · exact hothers
  · intro n rest h _ hrest m h'
    show Continued later _ (parseStep ops (.comma :: (rest ++ .semi :: later)) h')
    rw [parseStep, parseStep]
    exact hrest.weaken _ _
  · intro n others h hothers _ m h'
    have hne : ∀ rest, others = .comma :: rest → False := by
      rintro rest rfl
      exact hothers rest h rfl HEq.rfl
    rw [parseStep, parseStep]
    · exact .ok
    · exact fun rest _ heq _ => ne_cons_of_append (by simp) hne rest heq
    · exact hothers

/-! ### Items -/

section

variable {later : List Token}

theorem continued_parseSymbol (tokens : List Token) :
    (parseSymbol tokens).Continued later (parseSymbol (tokens ++ .semi :: later)) := by
  cases tokens with
  | nil => exact .error
  | cons t rest =>
    cases t with
    | op c => exact .ok
    | _ => exact .error

theorem continued_parsePrecedence {n m : Nat} (tokens : List Token) (h : tokens.length < n)
    (h' : (tokens ++ .semi :: later).length < m) :
    (parsePrecedence tokens h).Continued later
      (parsePrecedence (tokens ++ .semi :: later) h') := by
  cases tokens with
  | nil => exact .ok
  | cons t rest =>
    cases t with
    | number v =>
      simp only [List.cons_append, parsePrecedence]
      cases precedenceOf v with
      | some p => exact .ok
      | none => exact .error
    | _ => exact .ok

theorem continued_parseHead (tokens : List Token) :
    (parseHead tokens).Continued later (parseHead (tokens ++ .semi :: later)) := by
  cases tokens with
  | nil => exact .error
  | cons t rest =>
    cases t with
    | ident name => exact .ok
    | kwUnary => exact ((continued_parseSymbol rest).map _).weaken (tail_le _) (tail_le _)
    | kwBinary =>
      refine ((continued_parseSymbol rest).andThen fun op rest' hlt hlt' => ?_).weaken
        (tail_le _) (tail_le _)
      exact (continued_parsePrecedence rest' hlt hlt').map _
    | _ => exact .error

theorem takeParams_append (tokens : List Token) :
    takeParams (tokens ++ .semi :: later) =
      ((takeParams tokens).1, (takeParams tokens).2 ++ .semi :: later) := by
  fun_induction takeParams tokens with
  | case1 name rest ih => rw [List.cons_append, List.cons_append, takeParams, ih]
  | case2 name rest hrest ih =>
    rw [List.cons_append, takeParams, ih]
    exact ne_cons_of_append (by simp) hrest
  | case3 rest hcomma hident =>
    rw [takeParams]
    · exact fun name rest => ne_cons_of_append (by simp) (hident name) _
    · exact fun name => ne_cons_of_append (by simp) (hident name)

theorem continued_parseParams (tokens : List Token) :
    (parseParams tokens).Continued later (parseParams (tokens ++ .semi :: later)) := by
  refine (continued_expect (by simp) tokens).andThen fun _ rest _ _ => ?_
  have hclose : (expect .closeParen (takeParams rest).2).Continued later
      (expect .closeParen (takeParams (rest ++ .semi :: later)).2) := by
    rw [takeParams_append]
    exact continued_expect (by simp) _
  simp only [takeParams_append]
  exact (hclose.map _).weaken _ _

theorem continued_parsePrototype (tokens : List Token) :
    (parsePrototype tokens).Continued later (parsePrototype (tokens ++ .semi :: later)) := by
  refine (continued_parseHead tokens).andThen fun head rest _ _ => ?_
  refine ((continued_parseParams rest).weaken _ _).andThen fun params rest' _ _ => ?_
  cases head.toPrototype params with
  | ok proto => exact .ok
  | error cause => exact .error

theorem continued_parseDefinition (ops : Operators) (tokens later : List Token) :
    (parseDefinition ops (tokens ++ .semi :: later)).1 = (parseDefinition ops tokens).1 ∧
      (parseDefinition ops tokens).2.Continued later
        (parseDefinition ops (tokens ++ .semi :: later)).2 := by
  have hproto : (parsePrototype tokens).Continued later
      (parsePrototype (tokens ++ .semi :: later)) := continued_parsePrototype tokens
  unfold parseDefinition
  generalize parsePrototype tokens = r at hproto ⊢
  generalize parsePrototype (tokens ++ .semi :: later) = r' at hproto ⊢
  cases hproto with
  | @ok proto rest h h' =>
    exact ⟨rfl, ((continued_parseExpr _ 0 rest later).map _).weaken (Nat.le_of_lt h)
      (Nat.le_of_lt h')⟩
  | error => exact ⟨rfl, .error⟩

theorem continued_parseExtern (ops : Operators) (tokens : List Token) :
    (parseItem ops (.kwExtern :: tokens ++ .semi :: later)).1 =
        (parseItem ops (.kwExtern :: tokens)).1 ∧
      (parseItem ops (.kwExtern :: tokens)).2.Continued later
        (parseItem ops (.kwExtern :: tokens ++ .semi :: later)).2 := by
  have hproto : (parsePrototype tokens).Continued later
      (parsePrototype (tokens ++ .semi :: later)) := continued_parsePrototype tokens
  rw [List.cons_append]
  simp only [parseItem]
  generalize parsePrototype tokens = r at hproto ⊢
  generalize parsePrototype (tokens ++ .semi :: later) = r' at hproto ⊢
  cases hproto with
  | ok => exact ⟨rfl, .ok⟩
  | error => exact ⟨rfl, .error⟩

/-- The semicolon changes neither the item nor the operators. -/
theorem continued_parseItem (ops : Operators) (tokens later : List Token) :
    (parseItem ops (tokens ++ .semi :: later)).1 = (parseItem ops tokens).1 ∧
      (parseItem ops tokens).2.Continued later (parseItem ops (tokens ++ .semi :: later)).2 := by
  cases tokens with
  | nil => exact ⟨rfl, (continued_parseExpr ops 0 [] later).map _⟩
  | cons t rest =>
    cases t with
    | kwDef =>
      obtain ⟨hops, hresult⟩ := continued_parseDefinition ops rest later
      exact ⟨hops, hresult.weaken (tail_le _) (tail_le _)⟩
    | kwExtern => exact continued_parseExtern ops rest
    | _ => exact ⟨rfl, (continued_parseExpr ops 0 _ later).map _⟩

/-! ### Programs -/

/-- Whatever is skipped after an error ends at the semicolon. -/
theorem synchronize_append (tokens : List Token) :
    synchronize (tokens ++ .semi :: later) = synchronize tokens ++ .semi :: later := by
  unfold synchronize
  rw [List.dropWhile_append]
  split
  · next hnil => rw [List.isEmpty_iff.1 hnil, List.dropWhile_cons_of_neg (by decide), List.nil_append]
  · rfl

theorem resume_append {rest : List Token} {f : Failure (rest.length + 1)}
    {f' : Failure ((rest ++ .semi :: later).length + 1)} (h : f'.rest = f.rest ++ .semi :: later) :
    resume (rest ++ .semi :: later) f' = resume rest f ++ .semi :: later := by
  unfold resume
  rw [h, ← synchronize_append]
  by_cases hle : f.rest.length ≤ rest.length
  · rw [if_pos hle, if_pos (by simpa using hle)]
  · rw [if_neg hle, if_neg (by simpa using hle)]

/-- The error with a semicolon and `later` after the tokens. -/
def SyntaxError.before (e : SyntaxError) (later : List Token) : SyntaxError :=
  { e with rest := e.rest ++ .semi :: later }

/-- The program that goes on with what is read from `later`. -/
def Program.continued (first : Program) (later : List Token) : Program :=
  let second := parseProgram first.operators later
  ⟨first.items ++ second.items, first.errors.map (·.before later) ++ second.errors,
    second.operators⟩

theorem parseProgram_append (ops : Operators) (tokens : List Token) :
    parseProgram ops (tokens ++ .semi :: later) = (parseProgram ops tokens).continued later := by
  fun_induction parseProgram ops tokens with
  | case1 ops =>
    rw [List.nil_append, parseProgram]
    rfl
  | case2 ops rest ih =>
    rw [List.cons_append, parseProgram]
    exact ih
  | case3 ops t rest hsemi ops₁ parsed hparsed ih =>
    obtain ⟨hops, hresult⟩ := continued_parseItem ops (t :: rest) later
    rw [hparsed] at hops hresult
    obtain ⟨hlt, hok⟩ := hresult.eq_ok
    have hitem : parseItem ops (t :: (rest ++ .semi :: later)) = (ops₁, .ok ⟨_, _, hlt⟩) :=
      Prod.ext hops hok
    rw [List.cons_append, parseProgram]
    · simp only [hitem, ih]
      rfl
    · exact hsemi
  | case4 ops t rest hsemi ops₁ f hf ih =>
    obtain ⟨hops, hresult⟩ := continued_parseItem ops (t :: rest) later
    rw [hf] at hops hresult
    obtain ⟨hle, herror⟩ := hresult.eq_error
    have hitem : parseItem ops (t :: (rest ++ .semi :: later)) = (ops₁, .error ⟨_, _, hle⟩) :=
      Prod.ext hops herror
    rw [List.cons_append, parseProgram]
    · simp only [hitem]
      rw [resume_append rfl, ih]
      rfl
    · exact hsemi

end

theorem length_errors_readProgram (ops : Operators) (text : String) :
    (readProgram ops text).source.errors.length = (readProgram ops text).program.errors.length :=
  List.length_map _

/-- Two texts with a semicolon between them are read as the first and then, with the operators that
it leaves, the second; however the first one ends. -/
theorem readProgram_append (ops : Operators) (first second : String) :
    let one := readProgram ops first
    let two := readProgram one.program.operators second
    let both := readProgram ops (first ++ "\n;\n" ++ second)
    both.program.items = one.program.items ++ two.program.items ∧
      both.source.errors.length = one.source.errors.length + two.source.errors.length ∧
      both.program.errors.map (·.cause) =
        one.program.errors.map (·.cause) ++ two.program.errors.map (·.cause) ∧
      both.program.operators = two.program.operators := by
  intro one two both
  have hprogram : both.program = one.program.continued ((lex second).map (·.token)) := by
    simp only [both, one, readProgram, map_token_lex_append, parseProgram_append]
  have herrors : both.program.errors =
      one.program.errors.map (·.before ((lex second).map (·.token))) ++ two.program.errors := by
    rw [hprogram]
    rfl
  refine ⟨by rw [hprogram]; rfl, ?_, ?_, by rw [hprogram]; rfl⟩
  · simp only [both, one, two, length_errors_readProgram]
    rw [herrors, List.length_append, List.length_map]
  · rw [herrors, List.map_append, List.map_map]
    rfl

end ScalarLang
