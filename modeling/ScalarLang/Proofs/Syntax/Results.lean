import ScalarLang.Syntax.Program

/-! What the parsers accept. A parser gives a value and the tokens left over, or nothing; for each
parser it is said when it does, in terms of the parsers that it calls. -/

namespace ScalarLang

namespace ParseResult

variable {α β : Type} {m n : Nat} {v w : α} {rest rest' : List Token}

/-- The result is this value with these tokens left over. -/
def Gives (r : ParseResult α n) (value : α) (rest : List Token) : Prop :=
  ∃ h, r = .ok ⟨value, rest, h⟩

theorem Gives.length_lt {r : ParseResult α n} (h : r.Gives v rest) : rest.length < n := h.1

theorem gives_ok_iff {p : Parsed α n} :
    Gives (.ok p : ParseResult α n) v rest ↔ v = p.value ∧ rest = p.rest := by
  constructor
  · rintro ⟨_, h⟩
    cases h
    exact ⟨rfl, rfl⟩
  · rintro ⟨rfl, rfl⟩
    exact ⟨p.rest_lt, rfl⟩

theorem Gives.unique {r : ParseResult α n} (h : r.Gives v rest) (h' : r.Gives w rest') :
    v = w ∧ rest = rest' := by
  obtain ⟨_, rfl⟩ := h
  obtain ⟨hv, hrest⟩ := gives_ok_iff.1 h'
  exact ⟨hv.symm, hrest.symm⟩

theorem not_gives_error (f : Failure n) : ¬Gives (.error f : ParseResult α n) v rest := by
  rintro ⟨_, h⟩
  cases h

@[simp] theorem gives_succeed_iff {h : rest.length < n} :
    (succeed v rest h).Gives w rest' ↔ w = v ∧ rest' = rest := gives_ok_iff

@[simp] theorem not_gives_fail {cause : SyntaxCause} {tokens : List Token}
    {h : tokens.length ≤ n} : ¬(fail cause tokens h).Gives v rest := not_gives_error _

@[simp] theorem gives_weaken_iff {r : ParseResult α m} {h : m ≤ n} :
    (r.weaken h).Gives v rest ↔ r.Gives v rest := by
  cases r with
  | ok p => exact gives_ok_iff.trans (gives_ok_iff (p := p)).symm
  | error f => exact iff_of_false (not_gives_error _) (not_gives_error f)

theorem gives_andThen_iff {r : ParseResult α n} {u : β}
    {next : (value : α) → (rest : List Token) → rest.length < n → ParseResult β n} :
    (r.andThen next).Gives u rest ↔
      ∃ v mid, ∃ h : mid.length < n, r.Gives v mid ∧ (next v mid h).Gives u rest := by
  cases r with
  | ok p =>
    constructor
    · exact fun h => ⟨p.value, p.rest, p.rest_lt, gives_ok_iff.2 ⟨rfl, rfl⟩, h⟩
    · rintro ⟨v, mid, _, hv, h⟩
      obtain ⟨rfl, rfl⟩ := gives_ok_iff.1 hv
      exact h
  | error f =>
    refine iff_of_false (not_gives_error f) ?_
    rintro ⟨v, mid, _, hv, -⟩
    exact not_gives_error f hv

@[simp] theorem gives_map_iff {r : ParseResult α n} {f : α → β} {u : β} :
    (r.map f).Gives u rest ↔ ∃ v, r.Gives v rest ∧ u = f v := by
  rw [map, gives_andThen_iff]
  constructor
  · rintro ⟨v, mid, _, hv, h⟩
    obtain ⟨rfl, rfl⟩ := gives_succeed_iff.1 h
    exact ⟨v, hv, rfl⟩
  · rintro ⟨v, hv, rfl⟩
    exact ⟨v, rest, hv.length_lt, hv, gives_succeed_iff.2 ⟨rfl, rfl⟩⟩

end ParseResult

open ParseResult

/-! ### Single tokens -/

section

variable {tokens rest : List Token}

@[simp] theorem gives_expect_iff {t : Token} {u : Unit} :
    (expect t tokens).Gives u rest ↔ tokens = t :: rest := by
  cases tokens with
  | nil => simp [expect]
  | cons found later =>
    by_cases hfound : found = t
    · simp [expect, hfound, eq_comm]
    · simp [expect, hfound]

@[simp] theorem gives_expectAssign_iff {u : Unit} :
    (expectAssign tokens).Gives u rest ↔ tokens = .op '=' :: rest := by
  unfold expectAssign
  split
  · simp [eq_comm]
  · next hrefused =>
    refine iff_of_false not_gives_fail ?_
    rintro rfl
    exact hrefused rest rfl

@[simp] theorem gives_parseIdent_iff {name : String} :
    (parseIdent tokens).Gives name rest ↔ tokens = .ident name :: rest := by
  unfold parseIdent
  split
  · simp [eq_comm]
  · next hrefused =>
    refine iff_of_false not_gives_fail ?_
    rintro rfl
    exact hrefused name rest rfl

end

/-! ### Expressions -/

/-- Whether no infix operator that binds at least as tightly as `least` comes next. -/
def Operators.Stops (ops : Operators) (least : UInt32) (next : Option Token) : Prop :=
  ∀ c power, next = some (.op c) → ops.power? c = some power → power.left < least

theorem Operators.Stops.of_ne {ops : Operators} {least : UInt32} {next : Option Token}
    (h : ∀ c, next ≠ some (.op c)) : ops.Stops least next :=
  fun c _ hc _ => absurd hc (h c)

section

variable {ops : Operators} {least : UInt32} {e : Expr} {tokens rest : List Token}

theorem gives_parseExpr_iff : (parseExpr ops least tokens).Gives e rest ↔
    ∃ left mid, (parseUnary ops tokens).Gives left mid ∧
      (parseInfix ops least left mid).Gives e rest := by
  rw [parseExpr, gives_andThen_iff]
  simp only [gives_weaken_iff]
  constructor
  · rintro ⟨left, mid, -, h⟩
    exact ⟨left, mid, h⟩
  · rintro ⟨left, mid, hleft, h⟩
    exact ⟨left, mid, hleft.length_lt, hleft, h⟩

theorem gives_parseInfix_of_stops {left : Expr} (h : ops.Stops least tokens.head?) :
    (parseInfix ops least left tokens).Gives left tokens := by
  unfold parseInfix
  split
  · next c later =>
    split
    · next power hpower =>
      rw [if_neg (UInt32.not_le.2 (h c power rfl hpower))]
      exact gives_succeed_iff.2 ⟨rfl, rfl⟩
    · exact gives_succeed_iff.2 ⟨rfl, rfl⟩
  · exact gives_succeed_iff.2 ⟨rfl, rfl⟩

theorem gives_parseInfix_op_iff {left : Expr} {c : Char} {power : BindingPower}
    (hpower : ops.power? c = some power) (hleast : least ≤ power.left) :
    (parseInfix ops least left (.op c :: tokens)).Gives e rest ↔
      ∃ right mid, (parseExpr ops power.right tokens).Gives right mid ∧
        (parseInfix ops least (.binary c left right) mid).Gives e rest := by
  rw [parseInfix]
  simp only [hpower, if_pos hleast, gives_weaken_iff, gives_andThen_iff]
  constructor
  · rintro ⟨right, mid, -, h⟩
    exact ⟨right, mid, h⟩
  · rintro ⟨right, mid, hright, h⟩
    exact ⟨right, mid, hright.length_lt, hright, h⟩

theorem gives_parseUnary_op_iff {c : Char} : (parseUnary ops (.op c :: tokens)).Gives e rest ↔
    ∃ operand, (parseUnary ops tokens).Gives operand rest ∧ e = .unary c operand := by
  rw [parseUnary, gives_weaken_iff, gives_map_iff]

theorem parseUnary_eq_parsePrimary (h : ∀ c, tokens.head? ≠ some (.op c)) :
    parseUnary ops tokens = parsePrimary ops tokens := by
  rw [parseUnary]
  rintro c later rfl
  exact h c rfl

theorem gives_parsePrimary_number_iff {v : Float} :
    (parsePrimary ops (.number v :: tokens)).Gives e rest ↔ e = .number v ∧ rest = tokens := by
  rw [parsePrimary, gives_succeed_iff]

theorem gives_parsePrimary_var_iff {name : String} (h : tokens.head? ≠ some .openParen) :
    (parsePrimary ops (.ident name :: tokens)).Gives e rest ↔ e = .var name ∧ rest = tokens := by
  rw [parsePrimary, gives_succeed_iff]
  · rintro later rfl
    exact h rfl
  · rintro later rfl
    exact h rfl

theorem not_gives_parseExpr_closeParen :
    ¬(parseExpr ops least (.closeParen :: tokens)).Gives e rest := by
  rw [gives_parseExpr_iff]
  rintro ⟨left, mid, h, -⟩
  rw [parseUnary_eq_parsePrimary (by simp), parsePrimary] at h
  · exact not_gives_fail h
  all_goals simp

theorem gives_parseParens_iff : (parsePrimary ops (.openParen :: tokens)).Gives e rest ↔
    (parseExpr ops 0 tokens).Gives e (.closeParen :: rest) := by
  rw [parsePrimary, gives_weaken_iff, gives_andThen_iff]
  simp only [gives_weaken_iff, gives_map_iff, gives_expect_iff]
  constructor
  · rintro ⟨inner, mid, -, hinner, -, rfl, rfl⟩
    exact hinner
  · intro h
    exact ⟨e, _, h.length_lt, h, (), rfl, rfl⟩

theorem gives_parseDeclare_iff : (parsePrimary ops (.kwVar :: tokens)).Gives e rest ↔
    ∃ vars mid body, (parseVars ops tokens).Gives vars (.kwIn :: mid) ∧
      (parseExpr ops 0 mid).Gives body rest ∧ e = .declare vars body := by
  rw [parsePrimary, gives_weaken_iff, gives_andThen_iff]
  simp only [gives_andThen_iff, gives_weaken_iff, gives_map_iff, gives_expect_iff]
  constructor
  · rintro ⟨vars, _, -, hvars, -, mid, -, rfl, body, hbody⟩
    exact ⟨vars, mid, body, hvars, hbody⟩
  · rintro ⟨vars, mid, body, hvars, hbody⟩
    have hlt := hvars.length_lt
    exact ⟨vars, _, hlt, hvars, (), mid, Nat.lt_of_succ_lt hlt, rfl, body, hbody⟩

theorem gives_parseArgs_iff {args : List Expr} : (parseArgs ops tokens).Gives args rest ↔
    ∃ arg, ((parseExpr ops 0 tokens).Gives arg (.closeParen :: rest) ∧ args = [arg]) ∨
      ∃ mid more, (parseExpr ops 0 tokens).Gives arg (.comma :: mid) ∧
        (parseArgs ops mid).Gives more rest ∧ args = arg :: more := by
  rw [parseArgs, gives_andThen_iff]
  constructor
  · rintro ⟨arg, mid, hlt, harg, h⟩
    refine ⟨arg, ?_⟩
    split at h
    · obtain ⟨rfl, rfl⟩ := gives_succeed_iff.1 h
      exact .inl ⟨harg, rfl⟩
    · next later _ =>
      obtain ⟨more, hmore, rfl⟩ := gives_map_iff.1 (gives_weaken_iff.1 h)
      exact .inr ⟨later, more, harg, hmore, rfl⟩
    · exact absurd h not_gives_fail
  · rintro ⟨arg, ⟨harg, rfl⟩ | ⟨mid, more, harg, hmore, rfl⟩⟩
    · exact ⟨arg, _, harg.length_lt, harg, gives_succeed_iff.2 ⟨rfl, rfl⟩⟩
    · exact ⟨arg, _, harg.length_lt, harg, gives_weaken_iff.2 (gives_map_iff.2 ⟨more, hmore, rfl⟩)⟩

theorem gives_parseCall_iff {name : String} :
    (parsePrimary ops (.ident name :: .openParen :: tokens)).Gives e rest ↔
      (tokens = .closeParen :: rest ∧ e = .call name []) ∨
        ∃ args, (parseArgs ops tokens).Gives args rest ∧ e = .call name args := by
  by_cases hhead : tokens.head? = some .closeParen
  · obtain ⟨later, rfl⟩ := List.head?_eq_some_iff.1 hhead
    have hargs (args : List Expr) : ¬(parseArgs ops (.closeParen :: later)).Gives args rest := by
      rw [gives_parseArgs_iff]
      simp [not_gives_parseExpr_closeParen]
    simp [parsePrimary, hargs, and_comm, eq_comm]
  · rw [parsePrimary, gives_weaken_iff, gives_map_iff]
    · refine ⟨.inr, ?_⟩
      rintro (⟨rfl, -⟩ | h)
      · exact absurd rfl hhead
      · exact h
    · rintro later rfl
      exact hhead rfl

theorem gives_parseCond_iff : (parseCond ops tokens).Gives e rest ↔
    ∃ test mid yes, (parseExpr ops 0 tokens).Gives test (.kwThen :: mid) ∧
      (((parseExpr ops 0 mid).Gives yes rest ∧ rest.head? ≠ some .kwElse ∧
          e = .cond test yes none) ∨
        ∃ later no, (parseExpr ops 0 mid).Gives yes (.kwElse :: later) ∧
          (parseExpr ops 0 later).Gives no rest ∧ e = .cond test yes (some no)) := by
  rw [parseCond, gives_andThen_iff]
  simp only [gives_andThen_iff, gives_weaken_iff, gives_expect_iff]
  constructor
  · rintro ⟨test, _, -, htest, -, mid, -, rfl, yes, after, hlt, hyes, h⟩
    refine ⟨test, mid, yes, htest, ?_⟩
    split at h
    · next later _ =>
      obtain ⟨no, hno, rfl⟩ := gives_map_iff.1 (gives_weaken_iff.1 h)
      exact .inr ⟨later, no, hyes, hno, rfl⟩
    · next hothers =>
      obtain ⟨rfl, rfl⟩ := gives_succeed_iff.1 h
      refine .inl ⟨hyes, fun hhead => ?_, rfl⟩
      obtain ⟨later, rfl⟩ := List.head?_eq_some_iff.1 hhead
      exact hothers later hlt rfl HEq.rfl
  · rintro ⟨test, mid, yes, htest, h⟩
    have hmid := Nat.lt_of_succ_lt htest.length_lt
    refine ⟨test, _, htest.length_lt, htest, (), mid, hmid, rfl, yes, ?_⟩
    rcases h with ⟨hyes, hhead, rfl⟩ | ⟨later, no, hyes, hno, rfl⟩
    · refine ⟨rest, Nat.lt_trans hyes.length_lt hmid, hyes, ?_⟩
      split
      · exact absurd rfl hhead
      · exact gives_succeed_iff.2 ⟨rfl, rfl⟩
    · exact ⟨_, Nat.lt_trans hyes.length_lt hmid, hyes, gives_weaken_iff.2 (gives_map_iff.2 ⟨no, hno, rfl⟩)⟩

theorem gives_parseStep_iff {n : Nat} {h : tokens.length < n} :
    (parseStep ops tokens h).Gives e rest ↔
      (∃ mid, tokens = .comma :: mid ∧ (parseExpr ops 0 mid).Gives e rest) ∨
        (tokens.head? ≠ some .comma ∧ rest = tokens ∧ e = Expr.defaultStep) := by
  by_cases hhead : tokens.head? = some .comma
  · obtain ⟨mid, rfl⟩ := List.head?_eq_some_iff.1 hhead
    simp [parseStep]
  · have hstep : parseStep ops tokens h = succeed Expr.defaultStep tokens h := by
      rw [parseStep]
      rintro mid _ rfl -
      exact hhead rfl
    rw [hstep, gives_succeed_iff]
    constructor
    · rintro ⟨rfl, rfl⟩
      exact .inr ⟨hhead, rfl, rfl⟩
    · rintro (⟨mid, rfl, -⟩ | ⟨-, rfl, rfl⟩)
      · exact absurd rfl hhead
      · exact ⟨rfl, rfl⟩

theorem gives_parseLoop_iff : (parseLoop ops tokens).Gives e rest ↔
    ∃ index mid start mid₂ stop mid₃ step mid₄ body, tokens = .ident index :: .op '=' :: mid ∧
      (parseExpr ops 0 mid).Gives start (.comma :: mid₂) ∧
      (parseExpr ops 0 mid₂).Gives stop mid₃ ∧
      (parseStep ops mid₃ (Nat.lt_succ_self _)).Gives step (.kwIn :: mid₄) ∧
      (parseExpr ops 0 mid₄).Gives body rest ∧ e = .loop index start stop step body := by
  rw [parseLoop, gives_andThen_iff]
  simp only [gives_andThen_iff, gives_weaken_iff, gives_map_iff, gives_expect_iff,
    gives_expectAssign_iff, gives_parseIdent_iff, gives_parseStep_iff]
  constructor
  · rintro ⟨index, _, -, rfl, -, mid, -, rfl, start, _, -, hstart, -, mid₂, -, rfl, stop, mid₃, -,
      hstop, step, _, -, hstep, -, mid₄, -, rfl, body, hbody⟩
    exact ⟨index, mid, start, mid₂, stop, mid₃, step, mid₄, body, rfl, hstart, hstop, hstep, hbody⟩
  · rintro ⟨index, mid, start, mid₂, stop, mid₃, step, mid₄, body, rfl, hstart, hstop, hstep, hbody⟩
    have h₂ := hstart.length_lt
    have h₃ := hstop.length_lt
    have h₄ := (gives_parseStep_iff (h := Nat.lt_succ_self _)).2 hstep |>.length_lt
    simp only [List.length_cons] at h₂ h₄
    refine ⟨index, _, ?_, rfl, (), mid, ?_, rfl, start, _, ?_, hstart, (), mid₂, ?_, rfl, stop, mid₃,
      ?_, hstop, step, _, ?_, hstep, (), mid₄, ?_, rfl, body, hbody⟩
    all_goals simp only [List.length_cons]; omega

theorem gives_parseInit_iff {n : Nat} {h : tokens.length < n} {init : Option Expr} :
    (parseInit ops tokens h).Gives init rest ↔
      (∃ mid value, tokens = .op '=' :: mid ∧ (parseExpr ops 0 mid).Gives value rest ∧
          init = some value) ∨
        (tokens.head? ≠ some (.op '=') ∧ rest = tokens ∧ init = none) := by
  by_cases hhead : tokens.head? = some (.op '=')
  · obtain ⟨mid, rfl⟩ := List.head?_eq_some_iff.1 hhead
    simp [parseInit]
  · have hinit : parseInit ops tokens h = succeed none tokens h := by
      unfold parseInit
      split
      · rw [if_neg (by rintro rfl; exact hhead rfl)]
      · rfl
    rw [hinit, gives_succeed_iff]
    constructor
    · rintro ⟨rfl, rfl⟩
      exact .inr ⟨hhead, rfl, rfl⟩
    · rintro (⟨mid, value, rfl, -⟩ | ⟨-, rfl, rfl⟩)
      · exact absurd rfl hhead
      · exact ⟨rfl, rfl⟩

theorem gives_parseVars_iff {vars : List (String × Option Expr)} :
    (parseVars ops tokens).Gives vars rest ↔
      ∃ name mid init, tokens = .ident name :: mid ∧
        (((parseInit ops mid (Nat.lt_succ_self _)).Gives init rest ∧ rest.head? ≠ some .comma ∧
            vars = [(name, init)]) ∨
          ∃ later more, (parseInit ops mid (Nat.lt_succ_self _)).Gives init (.comma :: later) ∧
            (parseVars ops later).Gives more rest ∧ vars = (name, init) :: more) := by
  rw [parseVars, gives_andThen_iff]
  simp only [gives_andThen_iff, gives_parseIdent_iff]
  constructor
  · rintro ⟨name, mid, _, rfl, init, after, hlt, hinit, h⟩
    refine ⟨name, mid, init, rfl, ?_⟩
    rw [gives_parseInit_iff] at hinit
    split at h
    · next later _ =>
      obtain ⟨more, hmore, rfl⟩ := gives_map_iff.1 (gives_weaken_iff.1 h)
      exact .inr ⟨later, more, gives_parseInit_iff.2 hinit, hmore, rfl⟩
    · next hothers =>
      obtain ⟨rfl, rfl⟩ := gives_succeed_iff.1 h
      refine .inl ⟨gives_parseInit_iff.2 hinit, fun hhead => ?_, rfl⟩
      obtain ⟨later, rfl⟩ := List.head?_eq_some_iff.1 hhead
      exact hothers later hlt rfl HEq.rfl
  · rintro ⟨name, mid, init, rfl, h⟩
    refine ⟨name, mid, Nat.lt_succ_self _, rfl, init, ?_⟩
    rcases h with ⟨hinit, hhead, rfl⟩ | ⟨later, more, hinit, hmore, rfl⟩
    · refine ⟨rest, hinit.length_lt, hinit, ?_⟩
      split
      · exact absurd rfl hhead
      · exact gives_succeed_iff.2 ⟨rfl, rfl⟩
    · exact ⟨_, hinit.length_lt, hinit, gives_weaken_iff.2 (gives_map_iff.2 ⟨more, hmore, rfl⟩)⟩

end

/-! ### Boundaries -/

theorem isBoundary_iff {t : Token} :
    t.isBoundary = true ↔ t = .semi ∨ t = .kwDef ∨ t = .kwExtern := by
  cases t <;> simp [Token.isBoundary]

end ScalarLang
