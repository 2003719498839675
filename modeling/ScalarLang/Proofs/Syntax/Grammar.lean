import ScalarLang.Proofs.Syntax.Results

/-! The grammar of expressions. A phrase is spelled by tokens in front of the token that comes next,
which matters because operators, branches and calls take all that can belong to them. Parentheses
can be put around any expression, and the step of a loop can be left out if it is the default. The
parsers accept exactly the spelled phrases: what is accepted is spelled by the tokens that were
taken, and what is spelled is accepted whatever follows. -/

namespace ScalarLang

/-- The parts of an expression that the grammar tells apart. -/
inductive Phrase where
  /-- An expression to its end; infix operators bind at least as tightly as `least`. -/
  | whole (least : UInt32) (e : Expr)
  /-- An expression that further operators may follow. -/
  | chain (least : UInt32) (e : Expr)
  /-- What stands on a side of an infix operator. -/
  | operand (e : Expr)
  /-- The arguments of a call, of which there are some. -/
  | args (es : List Expr)
  /-- A variable of a declaration. -/
  | binding (name : String) (init : Option Expr)
  | bindings (vars : List (String × Option Expr))

/-- The tokens spell the phrase in front of `next`. -/
inductive Phrase.Spelled (ops : Operators) : Phrase → (next : Option Token) → List Token → Prop
  | whole {least e next ts} : Spelled ops (.chain least e) next ts → ops.Stops least next →
      Spelled ops (.whole least e) next ts
  | single {least e next ts} : Spelled ops (.operand e) next ts →
      Spelled ops (.chain least e) next ts
  | binary {least left c power right next ts us} :
      Spelled ops (.chain least left) (some (.op c)) ts →
      ops.power? c = some power → least ≤ power.left →
      Spelled ops (.whole power.right right) next us →
      Spelled ops (.chain least (.binary c left right)) next (ts ++ .op c :: us)
  | unary {c e next ts} : Spelled ops (.operand e) next ts →
      Spelled ops (.operand (.unary c e)) next (.op c :: ts)
  | number {v next} : Spelled ops (.operand (.number v)) next [.number v]
  | var {name next} : next ≠ some .openParen → Spelled ops (.operand (.var name)) next [.ident name]
  | parens {e next ts} : Spelled ops (.whole 0 e) (some .closeParen) ts →
      Spelled ops (.operand e) next (.openParen :: (ts ++ [.closeParen]))
  | callEmpty {name next} :
      Spelled ops (.operand (.call name [])) next [.ident name, .openParen, .closeParen]
  | call {name es next ts} : Spelled ops (.args es) (some .closeParen) ts →
      Spelled ops (.operand (.call name es)) next (.ident name :: .openParen :: (ts ++ [.closeParen]))
  | lastArg {e next ts} : Spelled ops (.whole 0 e) next ts → Spelled ops (.args [e]) next ts
  | moreArgs {e es next ts us} : Spelled ops (.whole 0 e) (some .comma) ts →
      Spelled ops (.args es) next us → Spelled ops (.args (e :: es)) next (ts ++ .comma :: us)
  | ifThen {test yes next ts us} : Spelled ops (.whole 0 test) (some .kwThen) ts →
      Spelled ops (.whole 0 yes) next us → next ≠ some .kwElse →
      Spelled ops (.operand (.cond test yes none)) next (.kwIf :: (ts ++ .kwThen :: us))
  | ifElse {test yes no next ts us vs} : Spelled ops (.whole 0 test) (some .kwThen) ts →
      Spelled ops (.whole 0 yes) (some .kwElse) us → Spelled ops (.whole 0 no) next vs →
      Spelled ops (.operand (.cond test yes (some no))) next
        (.kwIf :: (ts ++ .kwThen :: (us ++ .kwElse :: vs)))
  | loop {index start stop body next ts us vs} : Spelled ops (.whole 0 start) (some .comma) ts →
      Spelled ops (.whole 0 stop) (some .kwIn) us → Spelled ops (.whole 0 body) next vs →
      Spelled ops (.operand (.loop index start stop Expr.defaultStep body)) next
        (.kwFor :: .ident index :: .op '=' :: (ts ++ .comma :: (us ++ .kwIn :: vs)))
  | loopStep {index start stop step body next ts us ws vs} :
      Spelled ops (.whole 0 start) (some .comma) ts → Spelled ops (.whole 0 stop) (some .comma) us →
      Spelled ops (.whole 0 step) (some .kwIn) ws → Spelled ops (.whole 0 body) next vs →
      Spelled ops (.operand (.loop index start stop step body)) next
        (.kwFor :: .ident index :: .op '=' ::
          (ts ++ .comma :: (us ++ .comma :: (ws ++ .kwIn :: vs))))
  | declare {vars body next ts us} : Spelled ops (.bindings vars) (some .kwIn) ts →
      Spelled ops (.whole 0 body) next us →
      Spelled ops (.operand (.declare vars body)) next (.kwVar :: (ts ++ .kwIn :: us))
  | unset {name next} : next ≠ some (.op '=') → Spelled ops (.binding name none) next [.ident name]
  | set {name e next ts} : Spelled ops (.whole 0 e) next ts →
      Spelled ops (.binding name (some e)) next (.ident name :: .op '=' :: ts)
  | lastBinding {name init next ts} : Spelled ops (.binding name init) next ts →
      next ≠ some .comma → Spelled ops (.bindings [(name, init)]) next ts
  | moreBindings {name init vars next ts us} :
      Spelled ops (.binding name init) (some .comma) ts → Spelled ops (.bindings vars) next us →
      Spelled ops (.bindings ((name, init) :: vars)) next (ts ++ .comma :: us)

open ParseResult
open Phrase (Spelled)

/-! ### What is spelled is accepted -/

/-- The parser for a phrase accepts it in front of `rest`. -/
def Phrase.Accepted (ops : Operators) (tokens rest : List Token) : Phrase → Prop
  | whole least e => (parseExpr ops least tokens).Gives e rest
  | chain least e => ∀ v rest', (parseInfix ops least e rest).Gives v rest' →
      (parseExpr ops least tokens).Gives v rest'
  | operand e => (parseUnary ops tokens).Gives e rest
  | args es => ∀ rest', rest = .closeParen :: rest' → (parseArgs ops tokens).Gives es rest'
  | binding name init => ∃ mid, tokens = .ident name :: mid ∧
      (parseInit ops mid (tail_lt mid)).Gives init rest
  | bindings vars => (parseVars ops tokens).Gives vars rest

theorem gives_parseUnary_of_parsePrimary {ops : Operators} {e : Expr} {t : Token}
    {tokens rest : List Token} (ht : ∀ c, t ≠ .op c)
    (h : (parsePrimary ops (t :: tokens)).Gives e rest) :
    (parseUnary ops (t :: tokens)).Gives e rest := by
  rw [parseUnary_eq_parsePrimary]
  · exact h
  · exact fun c hc => ht c (Option.some.inj hc)

theorem Phrase.Spelled.accepted {ops : Operators} {p : Phrase} {next : Option Token}
    {tokens : List Token} (h : Spelled ops p next tokens) :
    ∀ rest : List Token, rest.head? = next → p.Accepted ops (tokens ++ rest) rest := by
  induction h with
  | whole _ hstops ih =>
    rintro rest rfl
    exact ih rest rfl _ _ (gives_parseInfix_of_stops hstops)
  | single _ ih =>
    intro rest hrest v rest' h
    exact gives_parseExpr_iff.2 ⟨_, rest, ih rest hrest, h⟩
  | @binary _ _ c _ _ _ ts us _ hpower hleast _ ihl ihr =>
    intro rest hrest
    rw [List.append_assoc, List.cons_append]
    intro v rest' h
    -- the chain on the left goes on with this operator, and then as it is assumed to go on here
    exact ihl (.op c :: (us ++ rest)) rfl v rest'
      ((gives_parseInfix_op_iff hpower hleast).2 ⟨_, rest, ihr rest hrest, h⟩)
  | unary _ ih =>
    intro rest hrest
    exact gives_parseUnary_op_iff.2 ⟨_, ih rest hrest, rfl⟩
  | number =>
    intro rest _
    exact gives_parseUnary_of_parsePrimary (by simp) (gives_parsePrimary_number_iff.2 ⟨rfl, rfl⟩)
  | var hnext =>
    rintro rest rfl
    exact gives_parseUnary_of_parsePrimary (by simp) ((gives_parsePrimary_var_iff hnext).2 ⟨rfl, rfl⟩)
  | @parens _ _ ts _ ih =>
    intro rest _
    simp only [List.cons_append, List.append_assoc, List.nil_append]
    exact gives_parseUnary_of_parsePrimary (by simp) (gives_parseParens_iff.2 (ih _ rfl))
  | callEmpty =>
    intro rest _
    exact gives_parseUnary_of_parsePrimary (by simp) (gives_parseCall_iff.2 (.inl ⟨rfl, rfl⟩))
  | call _ ih =>
    intro rest _
    simp only [List.cons_append, List.append_assoc, List.nil_append]
    refine gives_parseUnary_of_parsePrimary (by simp) (gives_parseCall_iff.2 (.inr ?_))
    exact ⟨_, ih _ rfl rest rfl, rfl⟩
  | lastArg _ ih =>
    rintro rest hrest rest' rfl
    exact gives_parseArgs_iff.2 ⟨_, .inl ⟨ih _ hrest, rfl⟩⟩
  | moreArgs _ _ ihe ihes =>
    intro rest hrest
    rw [List.append_assoc, List.cons_append]
    rintro rest' rfl
    exact gives_parseArgs_iff.2 ⟨_, .inr ⟨_, _, ihe _ rfl, ihes _ hrest rest' rfl, rfl⟩⟩
  | ifThen _ _ hnext iht ihy =>
    rintro rest rfl
    simp only [List.cons_append, List.append_assoc]
    refine gives_parseUnary_of_parsePrimary (by simp) ?_
    rw [parsePrimary, gives_weaken_iff]
    exact gives_parseCond_iff.2 ⟨_, _, _, iht _ rfl, .inl ⟨ihy rest rfl, hnext, rfl⟩⟩
  | ifElse _ _ _ iht ihy ihn =>
    intro rest hrest
    simp only [List.cons_append, List.append_assoc]
    refine gives_parseUnary_of_parsePrimary (by simp) ?_
    rw [parsePrimary, gives_weaken_iff]
    exact gives_parseCond_iff.2 ⟨_, _, _, iht _ rfl, .inr ⟨_, _, ihy _ rfl, ihn rest hrest, rfl⟩⟩
  | loop _ _ _ ihs iht ihb =>
    intro rest hrest
    simp only [List.cons_append, List.append_assoc]
    refine gives_parseUnary_of_parsePrimary (by simp) ?_
    rw [parsePrimary, gives_weaken_iff, gives_parseLoop_iff]
    exact ⟨_, _, _, _, _, _, _, _, _, rfl, ihs _ rfl, iht _ rfl,
      gives_parseStep_iff.2 (.inr ⟨by simp, rfl, rfl⟩), ihb rest hrest, rfl⟩
  | loopStep _ _ _ _ ihs iht ihp ihb =>
    intro rest hrest
    simp only [List.cons_append, List.append_assoc]
    refine gives_parseUnary_of_parsePrimary (by simp) ?_
    rw [parsePrimary, gives_weaken_iff, gives_parseLoop_iff]
    exact ⟨_, _, _, _, _, _, _, _, _, rfl, ihs _ rfl, iht _ rfl,
      gives_parseStep_iff.2 (.inl ⟨_, rfl, ihp _ rfl⟩), ihb rest hrest, rfl⟩
  | declare _ _ ihv ihb =>
    intro rest hrest
    simp only [List.cons_append, List.append_assoc]
    refine gives_parseUnary_of_parsePrimary (by simp) (gives_parseDeclare_iff.2 ?_)
    exact ⟨_, _, _, ihv _ rfl, ihb rest hrest, rfl⟩
  | unset hnext =>
    rintro rest rfl
    exact ⟨rest, rfl, gives_parseInit_iff.2 (.inr ⟨hnext, rfl, rfl⟩)⟩
  | @set _ _ _ ts _ ih =>
    intro rest hrest
    exact ⟨.op '=' :: (ts ++ rest), rfl, gives_parseInit_iff.2 (.inl ⟨_, _, rfl, ih rest hrest, rfl⟩)⟩
  | lastBinding _ hnext ih =>
    rintro rest rfl
    obtain ⟨mid, htokens, hinit⟩ := ih rest rfl
    exact gives_parseVars_iff.2 ⟨_, mid, _, htokens, .inl ⟨hinit, hnext, rfl⟩⟩
  | @moreBindings _ _ _ _ _ us _ _ ihb ihv =>
    intro rest hrest
    obtain ⟨mid, htokens, hinit⟩ := ihb (.comma :: (us ++ rest)) rfl
    rw [List.append_assoc, List.cons_append]
    exact gives_parseVars_iff.2 ⟨_, mid, _, htokens, .inr ⟨_, _, hinit, ihv rest hrest, rfl⟩⟩

/-! ### What is accepted is spelled -/

/-- The tokens before `rest` spell the phrase. -/
def Phrase.Read (ops : Operators) (tokens rest : List Token) (p : Phrase) : Prop :=
  ∃ ts, tokens = ts ++ rest ∧ Spelled ops p rest.head? ts

section

variable {ops : Operators} {least : UInt32} {e : Expr} {tokens rest : List Token}

theorem read_stop {left : Expr} {ts : List Token} (hstops : ops.Stops least tokens.head?)
    (hts : Spelled ops (.chain least left) tokens.head? ts)
    (h : (parseInfix ops least left tokens).Gives e rest) :
    ∃ us, tokens = us ++ rest ∧ Spelled ops (.whole least e) rest.head? (ts ++ us) := by
  obtain ⟨rfl, rfl⟩ := (gives_parseInfix_of_stops hstops).unique h
  exact ⟨[], rfl, by simpa using Spelled.whole hts hstops⟩

theorem read_unset {n : Nat} {h : tokens.length < n} {init : Option Expr} {name : String}
    (hhead : tokens.head? ≠ some (.op '=')) (hinit : (parseInit ops tokens h).Gives init rest) :
    (Phrase.binding name init).Read ops (.ident name :: tokens) rest := by
  rcases gives_parseInit_iff.1 hinit with ⟨mid, value, rfl, -⟩ | ⟨-, rfl, rfl⟩
  · exact absurd rfl hhead
  · exact ⟨[.ident name], rfl, .unset hhead⟩

theorem read_args {es : List Expr}
    (harg : ∀ e rest, (parseExpr ops 0 tokens).Gives e rest → (Phrase.whole 0 e).Read ops tokens rest)
    (hmore : ∀ mid, (Token.comma :: mid).length < tokens.length → ∀ es rest,
      (parseArgs ops mid).Gives es rest → (Phrase.args es).Read ops mid (.closeParen :: rest))
    (h : (parseArgs ops tokens).Gives es rest) :
    (Phrase.args es).Read ops tokens (.closeParen :: rest) := by
  obtain ⟨arg, ⟨he, rfl⟩ | ⟨mid, more, he, hes, rfl⟩⟩ := gives_parseArgs_iff.1 h
  · obtain ⟨ts, rfl, hts⟩ := harg _ _ he
    exact ⟨ts, rfl, .lastArg hts⟩
  · obtain ⟨us, rfl, hus⟩ := hmore mid he.length_lt _ _ hes
    obtain ⟨ts, rfl, hts⟩ := harg _ _ he
    exact ⟨ts ++ .comma :: us, by simp, .moreArgs hts hus⟩

theorem read_cond
    (htest : ∀ e rest, (parseExpr ops 0 tokens).Gives e rest → (Phrase.whole 0 e).Read ops tokens rest)
    (hyes : ∀ mid, mid.length < tokens.length → ∀ e rest, (parseExpr ops 0 mid).Gives e rest →
      (Phrase.whole 0 e).Read ops mid rest)
    (h : (parseCond ops tokens).Gives e rest) : (Phrase.operand e).Read ops (.kwIf :: tokens) rest := by
  obtain ⟨test, mid, yes, ht, h⟩ := gives_parseCond_iff.1 h
  have hmid := Nat.lt_of_succ_lt ht.length_lt
  obtain ⟨ts, hts, hspelled⟩ := htest _ _ ht
  rcases h with ⟨hy, hnext, rfl⟩ | ⟨later, no, hy, hn, rfl⟩
  · obtain ⟨us, rfl, hus⟩ := hyes mid hmid _ _ hy
    exact ⟨.kwIf :: (ts ++ .kwThen :: us), by simp [hts], .ifThen hspelled hus hnext⟩
  · obtain ⟨vs, rfl, hvs⟩ := hyes later
      (Nat.lt_trans (Nat.lt_of_succ_lt hy.length_lt) hmid) _ _ hn
    obtain ⟨us, rfl, hus⟩ := hyes mid hmid _ _ hy
    exact ⟨.kwIf :: (ts ++ .kwThen :: (us ++ .kwElse :: vs)), by simp [hts],
      .ifElse hspelled hus hvs⟩

theorem read_loop
    (hexpr : ∀ mid, mid.length < tokens.length → ∀ e rest, (parseExpr ops 0 mid).Gives e rest →
      (Phrase.whole 0 e).Read ops mid rest)
    (h : (parseLoop ops tokens).Gives e rest) : (Phrase.operand e).Read ops (.kwFor :: tokens) rest := by
  obtain ⟨index, mid, start, mid₂, stop, mid₃, step, mid₄, body, rfl, hstart, hstop, hstep, hbody,
    rfl⟩ := gives_parseLoop_iff.1 h
  simp only [List.length_cons] at hexpr
  have h₂ := hstart.length_lt
  have h₃ := hstop.length_lt
  have h₄ := hstep.length_lt
  simp only [List.length_cons] at h₂ h₄
  obtain ⟨ts, rfl, hts⟩ := hexpr mid (by omega) _ _ hstart
  obtain ⟨vs, rfl, hvs⟩ := hexpr mid₄ (by omega) _ _ hbody
  rcases gives_parseStep_iff.1 hstep with ⟨mid₅, rfl, hgiven⟩ | ⟨-, rfl, rfl⟩
  · obtain ⟨ws, rfl, hws⟩ := hexpr mid₅ (by simp only [List.length_cons] at h₃; omega) _ _ hgiven
    obtain ⟨us, rfl, hus⟩ := hexpr mid₂ (by omega) _ _ hstop
    exact ⟨.kwFor :: .ident index :: .op '=' ::
      (ts ++ .comma :: (us ++ .comma :: (ws ++ .kwIn :: vs))), by simp, .loopStep hts hus hws hvs⟩
  · obtain ⟨us, rfl, hus⟩ := hexpr mid₂ (by omega) _ _ hstop
    exact ⟨.kwFor :: .ident index :: .op '=' :: (ts ++ .comma :: (us ++ .kwIn :: vs)), by simp,
      .loop hts hus hvs⟩

theorem read_vars {vars : List (String × Option Expr)}
    (hinit : ∀ (mid : List Token) (hlt : mid.length < tokens.length) init rest name,
      (parseInit ops mid hlt).Gives init rest →
      (Phrase.binding name init).Read ops (.ident name :: mid) rest)
    (hmore : ∀ mid, (Token.comma :: mid).length < tokens.length → ∀ vars rest,
      (parseVars ops mid).Gives vars rest → (Phrase.bindings vars).Read ops mid rest)
    (h : (parseVars ops tokens).Gives vars rest) : (Phrase.bindings vars).Read ops tokens rest := by
  obtain ⟨name, mid, init, rfl, ⟨hi, hnext, rfl⟩ | ⟨later, more, hi, hvars, rfl⟩⟩ :=
    gives_parseVars_iff.1 h
  · obtain ⟨ts, hts, hspelled⟩ := hinit mid (Nat.lt_succ_self _) _ _ name hi
    exact ⟨ts, hts, .lastBinding hspelled hnext⟩
  · obtain ⟨us, rfl, hus⟩ := hmore later hi.length_lt _ _ hvars
    obtain ⟨ts, hts, hspelled⟩ := hinit mid (Nat.lt_succ_self _) _ _ name hi
    exact ⟨ts ++ .comma :: us, by simp [hts], .moreBindings hspelled hus⟩

end

theorem read_of_gives {ops : Operators} {least : UInt32} {e : Expr} {tokens rest : List Token} :
    (parseExpr ops least tokens).Gives e rest → (Phrase.whole least e).Read ops tokens rest := by
  -- for infix operators the tokens `ts` of the left operand are carried along; a step needs nothing,
  -- since the loop looks into it
  refine parseExpr.induct ops
    (fun least tokens => ∀ e rest, (parseExpr ops least tokens).Gives e rest →
      (Phrase.whole least e).Read ops tokens rest)
    (fun least left tokens => ∀ ts, Spelled ops (.chain least left) tokens.head? ts →
      ∀ e rest, (parseInfix ops least left tokens).Gives e rest →
        ∃ us, tokens = us ++ rest ∧ Spelled ops (.whole least e) rest.head? (ts ++ us))
    (fun tokens => ∀ e rest, (parseUnary ops tokens).Gives e rest →
      (Phrase.operand e).Read ops tokens rest)
    (fun tokens => ∀ e rest, (parsePrimary ops tokens).Gives e rest →
      (Phrase.operand e).Read ops tokens rest)
    (fun tokens => ∀ vars rest, (parseVars ops tokens).Gives vars rest →
      (Phrase.bindings vars).Read ops tokens rest)
    (fun n tokens h => ∀ init rest name, (parseInit ops tokens h).Gives init rest →
      (Phrase.binding name init).Read ops (.ident name :: tokens) rest)
    (fun tokens => ∀ e rest, (parseLoop ops tokens).Gives e rest →
      (Phrase.operand e).Read ops (.kwFor :: tokens) rest)
    (fun n tokens h => True)
    (fun tokens => ∀ e rest, (parseCond ops tokens).Gives e rest →
      (Phrase.operand e).Read ops (.kwIf :: tokens) rest)
    (fun tokens => ∀ es rest, (parseArgs ops tokens).Gives es rest →
      (Phrase.args es).Read ops tokens (.closeParen :: rest))
    ?_ ?_ ?_ ?_ ?_ ?_ ?_ ?_ ?_ ?_ ?_ ?_ ?_ ?_ ?_ ?_
    (fun _ hinit hmore _ _ => read_vars hinit hmore) ?_ ?_ ?_
    (fun _ hstart _ _ _ _ _ => read_loop (hstart [])) ?_ ?_
    (fun _ htest hyes _ _ _ => read_cond htest (hyes []))
    (fun _ harg hmore _ _ => read_args harg hmore) least tokens e rest
  · intro least tokens hunary hlater e rest h
    obtain ⟨left, mid, hleft, hinfix⟩ := gives_parseExpr_iff.1 h
    obtain ⟨ts, rfl, hts⟩ := hunary left mid hleft
    obtain ⟨us, rfl, hus⟩ := hlater left mid hleft.length_lt ts (.single hts) e rest hinfix
    exact ⟨ts ++ us, by simp, hus⟩
  · intro least left c mid power hpower hleast hright hlater ts hts e rest h
    obtain ⟨right, mid', hr, hmore⟩ := (gives_parseInfix_op_iff hpower hleast).1 h
    obtain ⟨us, rfl, hus⟩ := hright right mid' hr
    obtain ⟨vs, rfl, hvs⟩ := hlater right mid' hr.length_lt _ (.binary hts hpower hleast hus) e rest
      hmore
    exact ⟨.op c :: (us ++ vs), by simp, by simpa using hvs⟩
  · intro least left c mid power hpower hleast ts hts e rest h
    refine read_stop (fun d power' hd hpower' => ?_) hts h
    cases hd
    rw [hpower] at hpower'
    cases hpower'
    exact UInt32.not_le.1 hleast
  · intro least left c mid hpower ts hts e rest h
    refine read_stop (fun d power hd hpower' => ?_) hts h
    cases hd
    rw [hpower] at hpower'
    cases hpower'
  · intro least left others hothers ts hts e rest h
    refine read_stop (.of_ne fun c hc => ?_) hts h
    obtain ⟨later, rfl⟩ := List.head?_eq_some_iff.1 hc
    exact hothers c later rfl
  · intro c mid ih e rest h
    obtain ⟨operand, hoperand, rfl⟩ := gives_parseUnary_op_iff.1 h
    obtain ⟨ts, rfl, hts⟩ := ih operand rest hoperand
    exact ⟨.op c :: ts, rfl, .unary hts⟩
  · intro others hothers ih e rest h
    rw [parseUnary] at h
    · exact ih e rest h
    · exact hothers
  · intro v mid e rest h
    obtain ⟨rfl, rfl⟩ := gives_parsePrimary_number_iff.1 h
    exact ⟨[.number v], rfl, .number⟩
  · intro name mid e rest h
    rw [parsePrimary] at h
    obtain ⟨rfl, rfl⟩ := gives_succeed_iff.1 h
    exact ⟨[.ident name, .openParen, .closeParen], rfl, .callEmpty⟩
  · intro name mid hmid hargs e rest h
    rw [parsePrimary, gives_weaken_iff] at h
    · obtain ⟨es, hes, rfl⟩ := gives_map_iff.1 h
      obtain ⟨ts, rfl, hts⟩ := hargs es rest hes
      exact ⟨.ident name :: .openParen :: (ts ++ [.closeParen]), by simp, .call hts⟩
    · exact hmid
  · intro name mid hcall hopen e rest h
    have hnext : mid.head? ≠ some .openParen := by
      intro hhead
      obtain ⟨later, rfl⟩ := List.head?_eq_some_iff.1 hhead
      exact hopen later rfl
    obtain ⟨rfl, rfl⟩ := (gives_parsePrimary_var_iff hnext).1 h
    exact ⟨[.ident name], rfl, .var hnext⟩
  · intro mid hinner e rest h
    obtain ⟨ts, rfl, hts⟩ := hinner e _ (gives_parseParens_iff.1 h)
    exact ⟨.openParen :: (ts ++ [.closeParen]), by simp, .parens hts⟩
  · intro mid hcond e rest h
    rw [parsePrimary, gives_weaken_iff] at h
    exact hcond e rest h
  · intro mid hloop e rest h
    rw [parsePrimary, gives_weaken_iff] at h
    exact hloop e rest h
  · intro mid hvars hbody e rest h
    obtain ⟨vars, mid', body, hv, hb, rfl⟩ := gives_parseDeclare_iff.1 h
    obtain ⟨us, rfl, hus⟩ := hbody [] mid' (Nat.lt_of_succ_lt hv.length_lt) body rest hb
    obtain ⟨ts, rfl, hts⟩ := hvars vars _ hv
    exact ⟨.kwVar :: (ts ++ .kwIn :: us), by simp, .declare hts hus⟩
  · intro refused _ _ _ _ _ _ _ _ e rest h
    rw [parsePrimary] at h
    · exact absurd h not_gives_fail
    all_goals assumption
  · intro n mid _ _ hvalue init rest name h
    rcases gives_parseInit_iff.1 h with ⟨_, value, htokens, hv, rfl⟩ | ⟨hhead, -⟩
    · cases htokens
      obtain ⟨ts, rfl, hts⟩ := hvalue value rest hv
      exact ⟨.ident name :: .op '=' :: ts, rfl, .set hts⟩
    · exact absurd rfl hhead
  · intro n c mid _ hc _ init rest name h
    exact read_unset (by simpa using hc) h
  · intro n others _ hothers hlt init rest name h
    refine read_unset (fun hhead => ?_) h
    obtain ⟨later, rfl⟩ := List.head?_eq_some_iff.1 hhead
    exact hothers _ later hlt rfl HEq.rfl
  · intros
    trivial
  · intros
    trivial

end ScalarLang
