import ScalarLang.Syntax.Program

/-! Parsers take tokens from the front. Whatever a parser accepts or refuses, the tokens that it
leaves are the last ones of those it was given; so each item of a program is read from tokens of the
text. A name in a text begins with a letter, hence no definition has the name under which top-level
expressions are compiled. -/

namespace ScalarLang

namespace ParseResult

variable {α β : Type} {m n : Nat} {tokens tokens' : List Token}

/-- The tokens that are left, or that begin with the one at fault, end the given tokens. -/
def Leaves (tokens : List Token) : ParseResult α n → Prop
  | .ok p => p.rest <:+ tokens
  | .error f => f.rest <:+ tokens

theorem Leaves.of_suffix {r : ParseResult α n} (h : r.Leaves tokens) (hs : tokens <:+ tokens') :
    r.Leaves tokens' := by
  cases r with
  | ok p => exact List.IsSuffix.trans h hs
  | error f => exact List.IsSuffix.trans h hs

theorem Leaves.cons {r : ParseResult α n} (h : r.Leaves tokens) (t : Token) :
    r.Leaves (t :: tokens) := h.of_suffix (List.suffix_cons t tokens)

theorem Leaves.weaken {r : ParseResult α m} (h : r.Leaves tokens) (hle : m ≤ n) :
    (r.weaken hle).Leaves tokens := by
  cases r <;> exact h

theorem Leaves.andThen {r : ParseResult α n}
    {next : (value : α) → (rest : List Token) → rest.length < n → ParseResult β n}
    (h : r.Leaves tokens)
    (hnext : ∀ value rest hlt, rest <:+ tokens → (next value rest hlt).Leaves tokens) :
    (r.andThen next).Leaves tokens := by
  cases r with
  | ok p => exact hnext p.value p.rest p.rest_lt h
  | error f => exact h

theorem Leaves.map {r : ParseResult α n} (h : r.Leaves tokens) (g : α → β) :
    (r.map g).Leaves tokens := h.andThen fun _ _ _ hrest => hrest

end ParseResult

open ParseResult

/-! ### Expressions -/

theorem leaves_expect (t : Token) (tokens : List Token) : (expect t tokens).Leaves tokens := by
  cases tokens with
  | nil => exact List.suffix_rfl
  | cons found rest =>
    simp only [expect]
    split
    · exact List.suffix_cons found rest
    · exact List.suffix_rfl

theorem leaves_expectAssign (tokens : List Token) : (expectAssign tokens).Leaves tokens := by
  unfold expectAssign
  split
  · exact List.suffix_cons _ _
  · exact List.suffix_rfl

theorem leaves_parseIdent (tokens : List Token) : (parseIdent tokens).Leaves tokens := by
  unfold parseIdent
  split
  · exact List.suffix_cons _ _
  · exact List.suffix_rfl

section

variable {ops : Operators} {least : UInt32} {tokens rest : List Token}

theorem leaves_infix {left : Expr} {c : Char} {power : BindingPower}
    (hpower : ops.power? c = some power) (hleast : least ≤ power.left)
    (hright : (parseExpr ops power.right rest).Leaves rest)
    (hlater : ∀ right rest', rest'.length < rest.length →
      (parseInfix ops least (.binary c left right) rest').Leaves rest') :
    (parseInfix ops least left (.op c :: rest)).Leaves (.op c :: rest) := by
  rw [parseInfix]
  simp only [hpower, if_pos hleast]
  refine ((hright.andThen fun right rest' hlt hrest => ?_).weaken _).cons _
  exact ((hlater right rest' hlt).weaken _).of_suffix hrest

theorem leaves_primary_vars (hvars : (parseVars ops rest).Leaves rest)
    (hbody : ∀ rest₂, rest₂.length < rest.length → (parseExpr ops 0 rest₂).Leaves rest₂) :
    (parsePrimary ops (.kwVar :: rest)).Leaves (.kwVar :: rest) := by
  rw [parsePrimary]
  refine ((hvars.andThen fun vars rest' _ hrest => ?_).weaken _).cons _
  refine (((leaves_expect .kwIn rest').weaken _).of_suffix hrest).andThen fun _ rest₂ hlt hrest₂ => ?_
  exact (((hbody rest₂ hlt).map _).weaken _).of_suffix hrest₂

theorem leaves_args (harg : (parseExpr ops 0 tokens).Leaves tokens)
    (hmore : ∀ rest', (Token.comma :: rest').length < tokens.length →
      (parseArgs ops rest').Leaves rest') : (parseArgs ops tokens).Leaves tokens := by
  rw [parseArgs]
  refine harg.andThen fun arg rest hlt hrest => ?_
  dsimp only
  split
  · exact (List.suffix_cons _ _).trans hrest
  · next rest' hlt =>
    exact (((hmore rest' hlt).map _).weaken _).of_suffix ((List.suffix_cons _ _).trans hrest)
  · exact hrest

theorem leaves_cond (htest : (parseExpr ops 0 tokens).Leaves tokens)
    (hyes : ∀ rest₂, rest₂.length < tokens.length → (parseExpr ops 0 rest₂).Leaves rest₂)
    (hno : ∀ rest₄, (Token.kwElse :: rest₄).length < tokens.length →
      (parseExpr ops 0 rest₄).Leaves rest₄) : (parseCond ops tokens).Leaves tokens := by
  rw [parseCond]
  refine htest.andThen fun test rest₁ _ hrest₁ => ?_
  refine (((leaves_expect .kwThen rest₁).weaken _).of_suffix hrest₁).andThen fun _ rest₂ hlt hrest₂ => ?_
  refine (((hyes rest₂ hlt).weaken _).of_suffix hrest₂).andThen fun yes rest₃ hlt₃ hrest₃ => ?_
  dsimp only
  split
  · next rest₄ hlt₃ =>
    exact (((hno rest₄ hlt₃).map _).weaken _).of_suffix ((List.suffix_cons _ _).trans hrest₃)
  · exact hrest₃

theorem leaves_loop
    (hexpr : ∀ rest₂, rest₂.length < tokens.length → (parseExpr ops 0 rest₂).Leaves rest₂)
    (hstep : ∀ (rest₅ : List Token) (h₅ : rest₅.length < tokens.length),
      (parseStep ops rest₅ h₅).Leaves rest₅) : (parseLoop ops tokens).Leaves tokens := by
  rw [parseLoop]
  refine (leaves_parseIdent tokens).andThen fun index rest₁ _ h₁ => ?_
  refine (((leaves_expectAssign rest₁).weaken _).of_suffix h₁).andThen fun _ rest₂ hlt₂ h₂ => ?_
  refine (((hexpr rest₂ hlt₂).weaken _).of_suffix h₂).andThen fun start rest₃ _ h₃ => ?_
  refine (((leaves_expect .comma rest₃).weaken _).of_suffix h₃).andThen fun _ rest₄ hlt₄ h₄ => ?_
  refine (((hexpr rest₄ hlt₄).weaken _).of_suffix h₄).andThen fun stop rest₅ hlt₅ h₅ => ?_
  refine ((hstep rest₅ hlt₅).of_suffix h₅).andThen fun step rest₆ _ h₆ => ?_
  refine (((leaves_expect .kwIn rest₆).weaken _).of_suffix h₆).andThen fun _ rest₇ hlt₇ h₇ => ?_
  exact (((hexpr rest₇ hlt₇).map _).weaken _).of_suffix h₇

theorem leaves_vars
    (hinit : ∀ (rest : List Token) (h : rest.length < tokens.length),
      (parseInit ops rest h).Leaves rest)
    (hmore : ∀ rest₂, (Token.comma :: rest₂).length < tokens.length →
      (parseVars ops rest₂).Leaves rest₂) : (parseVars ops tokens).Leaves tokens := by
  rw [parseVars]
  refine (leaves_parseIdent tokens).andThen fun name rest hlt hrest => ?_
  refine ((hinit rest hlt).of_suffix hrest).andThen fun init rest' hlt' hrest' => ?_
  dsimp only
  split
  · next rest₂ hlt' =>
    exact (((hmore rest₂ hlt').map _).weaken _).of_suffix ((List.suffix_cons _ _).trans hrest')
  · exact hrest'

end

theorem leaves_parseExpr (ops : Operators) (least : UInt32) (tokens : List Token) :
    (parseExpr ops least tokens).Leaves tokens := by
  refine parseExpr.induct ops (fun least tokens => (parseExpr ops least tokens).Leaves tokens)
    (fun least left tokens => (parseInfix ops least left tokens).Leaves tokens)
    (fun tokens => (parseUnary ops tokens).Leaves tokens)
    (fun tokens => (parsePrimary ops tokens).Leaves tokens)
    (fun tokens => (parseVars ops tokens).Leaves tokens)
    (fun n tokens h => (parseInit ops tokens h).Leaves tokens)
    (fun tokens => (parseLoop ops tokens).Leaves tokens)
    (fun n tokens h => (parseStep ops tokens h).Leaves tokens)
    (fun tokens => (parseCond ops tokens).Leaves tokens)
    (fun tokens => (parseArgs ops tokens).Leaves tokens)
    ?_ (fun _ _ _ _ _ => leaves_infix) ?_ ?_ ?_ ?_ ?_ ?_ ?_ ?_ ?_ ?_ ?_ ?_
    (fun _ hvars hbody => leaves_primary_vars hvars fun rest₂ => hbody [] rest₂) ?_
    (fun _ => leaves_vars) ?_ ?_ ?_
    (fun _ hstart _ hstep _ => leaves_loop (hstart []) (hstep [] [] [] [])) ?_ ?_
    (fun _ htest hyes hno => leaves_cond htest (hyes []) (hno [] [] []))
    (fun _ => leaves_args) least tokens
  · intro least tokens hunary hlater
    rw [parseExpr]
    exact hunary.andThen fun left rest hlt hrest =>
      ((hlater left rest hlt).weaken _).of_suffix hrest
  · intro least left c rest power hpower hleast
    simp only [parseInfix, hpower, if_neg hleast]
    exact List.suffix_rfl
  · intro least left c rest hpower
    simp only [parseInfix, hpower]
    exact List.suffix_rfl
  · intro least left others hothers
    rw [parseInfix]
    · exact List.suffix_rfl
    · exact hothers
  · intro c rest hrest
    rw [parseUnary]
    exact ((hrest.map _).weaken _).cons _
  · intro others hothers hprimary
    rw [parseUnary]
    · exact hprimary
    · exact hothers
  · intro v rest
    rw [parsePrimary]
    exact List.suffix_cons _ _
  · intro name rest
    rw [parsePrimary]
    exact ⟨[_, _, _], rfl⟩
  · intro name rest hrest hargs
    rw [parsePrimary]
    · exact (((hargs.map _).weaken _).cons _).cons _
    · exact hrest
  · intro name rest hcall hopen
    rw [parsePrimary]
    · exact List.suffix_cons _ _
    · exact hcall
    · exact hopen
  · intro rest hinner
    rw [parsePrimary]
    refine ((hinner.andThen fun inner rest' _ hrest => ?_).weaken _).cons _
    exact (((leaves_expect .closeParen rest').map _).weaken _).of_suffix hrest
  · intro rest hcond
    rw [parsePrimary]
    exact (hcond.weaken _).cons _
  · intro rest hloop
    rw [parsePrimary]
    exact (hloop.weaken _).cons _
  · intro refused _ _ _ _ _ _ _ _
    rw [parsePrimary]
    · exact List.suffix_rfl
    all_goals assumption
  · intro n rest h _ hrest
    rw [parseInit, if_pos rfl]
    exact ((hrest.map _).weaken _).cons _
  · intro n c rest h hc _
    rw [parseInit, if_neg hc]
    exact List.suffix_rfl
  · intro n others h hothers _
    rw [parseInit]
    · exact List.suffix_rfl
    · exact hothers
  · intro n rest h _ hrest
    rw [parseStep]
    exact (hrest.weaken _).cons _
  · intro n others h hothers _
    rw [parseStep]
    · exact List.suffix_rfl
    · exact hothers

/-! ### Items -/

theorem leaves_parseSymbol (tokens : List Token) : (parseSymbol tokens).Leaves tokens := by
  unfold parseSymbol
  split
  · exact List.suffix_cons _ _
  · exact List.suffix_rfl

theorem leaves_parsePrecedence {n : Nat} (tokens : List Token) (h : tokens.length < n) :
    (parsePrecedence tokens h).Leaves tokens := by
  unfold parsePrecedence
  split
  · split
    · exact List.suffix_cons _ _
    · exact List.suffix_rfl
  · exact List.suffix_rfl

theorem leaves_parseHead (tokens : List Token) : (parseHead tokens).Leaves tokens := by
  unfold parseHead
  split
  · exact List.suffix_cons _ _
  · exact (((leaves_parseSymbol _).map _).weaken _).cons _
  · refine (((leaves_parseSymbol _).andThen fun op rest' hlt hrest => ?_).weaken _).cons _
    exact ((leaves_parsePrecedence rest' hlt).map _).of_suffix hrest
  · exact List.suffix_rfl

theorem suffix_takeParams (tokens : List Token) : (takeParams tokens).2 <:+ tokens := by
  fun_induction takeParams tokens with
  | case1 name rest ih => exact ih.trans ⟨[_, _], rfl⟩
  | case2 name rest _ ih => exact ih.trans (List.suffix_cons _ _)
  | case3 => exact List.suffix_rfl

theorem leaves_parseParams (tokens : List Token) : (parseParams tokens).Leaves tokens := by
  refine (leaves_expect .openParen tokens).andThen fun _ rest _ hrest => ?_
  exact (((leaves_expect .closeParen _).map _).weaken _).of_suffix
    ((suffix_takeParams rest).trans hrest)

theorem leaves_parsePrototype (tokens : List Token) : (parsePrototype tokens).Leaves tokens := by
  refine (leaves_parseHead tokens).andThen fun head rest hlt hrest => ?_
  refine (((leaves_parseParams rest).weaken _).of_suffix hrest).andThen fun params rest' _ hrest' => ?_
  split <;> exact hrest'

theorem leaves_parseDefinition (ops : Operators) (tokens : List Token) :
    (parseDefinition ops tokens).2.Leaves tokens := by
  have hproto := leaves_parsePrototype tokens
  unfold parseDefinition
  split
  · next f hf =>
    rw [hf] at hproto
    exact hproto
  · next proto hp =>
    rw [hp] at hproto
    exact (((leaves_parseExpr _ 0 proto.rest).map _).weaken
      (Nat.le_of_lt proto.rest_lt)).of_suffix hproto

theorem leaves_parseItem (ops : Operators) (tokens : List Token) :
    (parseItem ops tokens).2.Leaves tokens := by
  unfold parseItem
  split
  · exact ((leaves_parseDefinition ops _).weaken (Nat.le_succ _)).cons _
  · next rest =>
    have hproto := leaves_parsePrototype rest
    split
    · next f hf =>
      rw [hf] at hproto
      exact (hproto.weaken (Nat.le_succ _)).cons _
    · next proto hp =>
      rw [hp] at hproto
      exact List.IsSuffix.trans hproto (List.suffix_cons _ _)
  · exact (leaves_parseExpr ops 0 _).map _

theorem suffix_resume {rest tokens : List Token} {f : Failure (rest.length + 1)}
    (hf : f.rest <:+ tokens) (hrest : rest <:+ tokens) : resume rest f <:+ tokens := by
  unfold resume synchronize
  split
  · exact (List.dropWhile_suffix _).trans hf
  · exact (List.dropWhile_suffix _).trans hrest

/-- Each item of a program is read from the last tokens. -/
theorem exists_parseItem {ops : Operators} {tokens : List Token} {item : Item}
    (h : item ∈ (parseProgram ops tokens).items) :
    ∃ ops' tokens' p, tokens' <:+ tokens ∧ (parseItem ops' tokens').2 = .ok p ∧ p.value = item := by
  fun_induction parseProgram ops tokens with
  | case1 => cases h
  | case2 ops rest ih =>
    obtain ⟨ops', tokens', p, hs, hp⟩ := ih h
    exact ⟨ops', tokens', p, hs.trans (List.suffix_cons _ _), hp⟩
  | case3 ops t rest _ ops₁ parsed hparsed ih =>
    have hleaves := leaves_parseItem ops (t :: rest)
    rw [hparsed] at hleaves
    rcases List.mem_cons.1 h with rfl | h
    · exact ⟨ops, t :: rest, parsed, List.suffix_rfl, by rw [hparsed], rfl⟩
    · obtain ⟨ops', tokens', p, hs, hp⟩ := ih h
      exact ⟨ops', tokens', p, hs.trans hleaves, hp⟩
  | case4 ops t rest _ ops₁ f hf ih =>
    have hleaves := leaves_parseItem ops (t :: rest)
    rw [hf] at hleaves
    obtain ⟨ops', tokens', p, hs, hp⟩ := ih h
    exact ⟨ops', tokens', p, hs.trans (suffix_resume hleaves (List.suffix_cons _ _)), hp⟩

/-! ### Names -/

theorem andThen_eq_ok {α β : Type} {n : Nat} {r : ParseResult α n} {q : Parsed β n}
    {next : (value : α) → (rest : List Token) → rest.length < n → ParseResult β n}
    (h : r.andThen next = .ok q) : ∃ p, r = .ok p ∧ next p.value p.rest p.rest_lt = .ok q := by
  cases r with
  | ok p => exact ⟨p, rfl, h⟩
  | error f => cases h

theorem unaryName_ne (op : Char) : Prototype.unaryName op ≠ Prototype.anonymousName := by
  intro h
  have := congrArg String.toList h
  simp [Prototype.unaryName, Prototype.anonymousName] at this

theorem binaryName_ne (op : Char) : Prototype.binaryName op ≠ Prototype.anonymousName := by
  intro h
  have := congrArg String.toList h
  simp [Prototype.binaryName, Prototype.anonymousName] at this

theorem map_eq_ok {α β : Type} {n : Nat} {r : ParseResult α n} {q : Parsed β n} {g : α → β}
    (h : r.map g = .ok q) : ∃ p, r = .ok p ∧ q.value = g p.value := by
  obtain ⟨p, hp, hq⟩ := andThen_eq_ok h
  cases hq
  exact ⟨p, hp, rfl⟩

theorem weaken_eq_ok {α : Type} {m n : Nat} {r : ParseResult α m} {q : Parsed α n} (hle : m ≤ n)
    (h : r.weaken hle = .ok q) : ∃ p, r = .ok p ∧ q.value = p.value := by
  cases r with
  | ok p =>
    cases h
    exact ⟨p, rfl, rfl⟩
  | error f => cases h

theorem parseHead_eq_plain {tokens : List Token} {p : Parsed Head tokens.length} {name : String}
    (h : parseHead tokens = .ok p) (hp : p.value = .plain name) : .ident name ∈ tokens := by
  unfold parseHead at h
  split at h
  · cases h
    cases hp
    exact List.mem_cons_self
  · obtain ⟨q, hq, hvalue⟩ := weaken_eq_ok _ h
    obtain ⟨symbol, -, hhead⟩ := map_eq_ok hq
    rw [hvalue, hhead] at hp
    cases hp
  · obtain ⟨q, hq, hvalue⟩ := weaken_eq_ok _ h
    obtain ⟨symbol, -, hq⟩ := andThen_eq_ok hq
    obtain ⟨precedence, -, hhead⟩ := map_eq_ok hq
    rw [hvalue, hhead] at hp
    cases hp
  · cases h

/-- A prototype has the name of top-level expressions only if it is written. -/
theorem ident_mem_of_parsePrototype {tokens : List Token} {q : Parsed Prototype tokens.length}
    (h : parsePrototype tokens = .ok q) (hname : q.value.name = Prototype.anonymousName) :
    .ident Prototype.anonymousName ∈ tokens := by
  obtain ⟨head, hhead, h⟩ := andThen_eq_ok h
  obtain ⟨params, -, h⟩ := andThen_eq_ok h
  split at h
  · next proto hproto =>
    cases h
    replace hname : proto.name = Prototype.anonymousName := hname
    unfold Head.toPrototype at hproto
    split at hproto
    · next name hplain =>
      cases hproto
      obtain rfl : name = Prototype.anonymousName := hname
      exact parseHead_eq_plain hhead hplain
    · split at hproto
      · cases hproto
        exact absurd hname (unaryName_ne _)
      · cases hproto
    · split at hproto
      · cases hproto
        exact absurd hname (binaryName_ne _)
      · cases hproto
  · cases h

theorem keyword?_ne_ident {word name : String} : Token.keyword? word ≠ some (.ident name) := by
  unfold Token.keyword?
  split <;> nofun

/-- A name begins with a letter. -/
theorem ofPiece_eq_ident {c : Char} {text : List Char} {name : String}
    (h : Token.ofPiece c text = some (.ident name)) :
    c.isAlpha = true ∧ name = String.ofList text := by
  unfold Token.ofPiece at h
  split at h
  · cases h
  · split at h
    · cases hread : Token.readNumber text <;> simp [hread] at h
    · split at h
      · next halpha =>
        replace h : (Token.keyword? (String.ofList text)).getD (.ident (String.ofList text)) =
          .ident name := Option.some.inj h
        cases hword : Token.keyword? (String.ofList text) with
        | some t =>
          rw [hword, Option.getD_some] at h
          exact absurd (h ▸ hword) keyword?_ne_ident
        | none =>
          rw [hword, Option.getD_none] at h
          exact ⟨halpha, (Token.ident.inj h).symm⟩
      · (repeat' split at h) <;> cases h

theorem ofPiece_ne (c : Char) (cs : List Char) :
    Token.ofPiece c (c :: cs) ≠ some (.ident Prototype.anonymousName) := by
  intro h
  obtain ⟨halpha, hname⟩ := ofPiece_eq_ident h
  have hchars := congrArg String.toList hname.symm
  rw [String.toList_ofList] at hchars
  have hc : c = '_' := (List.cons.inj (hchars.trans (by decide :
    Prototype.anonymousName.toList = '_' :: "_anon_expr".toList))).1
  rw [hc] at halpha
  exact absurd halpha (by decide)

theorem split_ne {text : List Char} {p : Piece} (h : p ∈ Piece.split text) :
    p.token? ≠ some (.ident Prototype.anonymousName) := by
  fun_induction Piece.split text with
  | case1 => cases h
  | case2 c cs text ih =>
    rcases List.mem_cons.1 h with rfl | h
    · exact ofPiece_ne c _
    · exact ih h

theorem ofPieces_ne {start : Nat} {ps : List Piece}
    (hps : ∀ p ∈ ps, p.token? ≠ some (.ident Prototype.anonymousName)) {l : Lexeme}
    (h : l ∈ Lexeme.ofPieces start ps) : l.token ≠ .ident Prototype.anonymousName := by
  fun_induction Lexeme.ofPieces start ps with
  | case1 => cases h
  | case2 start p ps stop token htoken ih =>
    rcases List.mem_cons.1 h with rfl | h
    · exact fun ht => hps p List.mem_cons_self (htoken.trans (congrArg some ht))
    · exact ih (fun p hp => hps p (List.mem_cons_of_mem _ hp)) h
  | case3 start p ps stop htoken ih => exact ih (fun p hp => hps p (List.mem_cons_of_mem _ hp)) h

theorem lex_ne {text : String} {l : Lexeme} (h : l ∈ lex text) :
    l.token ≠ .ident Prototype.anonymousName := ofPieces_ne (fun _ => split_ne) h

/-- The item is read from a text. -/
def Item.Written (item : Item) : Prop := ∃ ops text, item ∈ (readProgram ops text).program.items

/-- In a text only top-level expressions are anonymous, and these have no parameters. -/
theorem Item.Written.params_of_anonymous {proto : Prototype} {body : Expr}
    (h : (Item.function proto body).Written) (hproto : proto.isAnonymous = true) :
    proto.params = [] := by
  obtain ⟨ops, text, hmem⟩ := h
  obtain ⟨ops', tokens, p, hsuffix, hparse, hvalue⟩ := exists_parseItem hmem
  unfold parseItem at hparse
  split at hparse
  · next rest =>
    obtain ⟨q, hq, hqvalue⟩ := weaken_eq_ok (Nat.le_succ _) hparse
    unfold parseDefinition at hq
    split at hq
    · cases hq
    · next parsed hparsed =>
      obtain ⟨q', hq', hvalue'⟩ := weaken_eq_ok (Nat.le_of_lt parsed.rest_lt) hq
      obtain ⟨e, -, hitem⟩ := map_eq_ok hq'
      rw [hvalue] at hqvalue
      rw [← hqvalue, hitem] at hvalue'
      cases hvalue'
      have hident := ident_mem_of_parsePrototype hparsed
        (by simpa [Prototype.isAnonymous] using hproto)
      obtain ⟨l, hl, htoken⟩ := List.mem_map.1 (hsuffix.subset (List.mem_cons_of_mem _ hident))
      exact absurd htoken (lex_ne hl)
  · next rest =>
    split at hparse
    · cases hparse
    · cases hparse
      cases hvalue
  · obtain ⟨e, -, hitem⟩ := map_eq_ok hparse
    rw [hvalue] at hitem
    cases hitem
    rfl

end ScalarLang
