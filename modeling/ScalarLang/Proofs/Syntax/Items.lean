import ScalarLang.Proofs.Syntax.Grammar

/-! The grammar of prototypes and items. A comma can follow each parameter, and the precedence of an
infix operator can be left out if it is the default. The body of a definition is spelled with the
operators that are known after its prototype. An item is accepted exactly if it is spelled by the
tokens that were taken. -/

namespace ScalarLang

/-- Parameters, each with or without a comma after it. -/
inductive ParamsSpelled : List String → List Token → Prop
  | nil : ParamsSpelled [] []
  | cons {name names ts} : ParamsSpelled names ts →
      ParamsSpelled (name :: names) (.ident name :: ts)
  | comma {name names ts} : ParamsSpelled names ts →
      ParamsSpelled (name :: names) (.ident name :: .comma :: ts)

/-- The precedence of a declared infix operator. -/
inductive PrecedenceSpelled : UInt32 → List Token → Prop
  | given {p} : 1 ≤ p → p ≤ 100 → PrecedenceSpelled p [.number p.toFloat]
  | omitted : PrecedenceSpelled Operators.defaultPrecedence []

inductive Prototype.Spelled : Prototype → List Token → Prop
  | plain {name params ts} : ParamsSpelled params ts →
      Spelled ⟨name, params, .plain⟩ (.ident name :: .openParen :: (ts ++ [.closeParen]))
  | unary {op params ts} : ParamsSpelled params ts → params.length = 1 →
      Spelled ⟨unaryName op, params, .unary⟩
        (.kwUnary :: .op op :: .openParen :: (ts ++ [.closeParen]))
  | binary {op p params us ts} : PrecedenceSpelled p us → ParamsSpelled params ts →
      params.length = 2 → Spelled ⟨binaryName op, params, .binary p⟩
        (.kwBinary :: .op op :: (us ++ .openParen :: (ts ++ [.closeParen])))

/-- The tokens spell the item in front of `next`. -/
inductive Item.Spelled (ops : Operators) : Item → (next : Option Token) → List Token → Prop
  | function {proto body next ts us} : proto.Spelled ts →
      Phrase.Spelled (ops.extend proto) (.whole 0 body) next us →
      Spelled ops (.function proto body) next (.kwDef :: (ts ++ us))
  | foreign {proto next ts} : proto.Spelled ts →
      Spelled ops (.foreign proto) next (.kwExtern :: ts)
  | expr {e next ts} : Phrase.Spelled ops (.whole 0 e) next ts →
      Spelled ops (.ofExpr e) next ts

open ParseResult

/-! ### Prototypes -/

theorem toUInt32_toFloat {p : UInt32} (h : p ≤ 100) : p.toFloat.toUInt32 = p := by
  have hall : ∀ k : Fin 101, (UInt32.ofNat k).toFloat.toUInt32 = UInt32.ofNat k := by
    decide +kernel
  have hlt : p.toNat < 101 := Nat.lt_succ_of_le (UInt32.le_iff_toNat_le.1 h)
  have hp : UInt32.ofNat p.toNat = p := UInt32.ofNat_toNat
  simpa only [hp] using hall ⟨p.toNat, hlt⟩

/-- The numbers that give a precedence are the precedences themselves. -/
theorem precedenceOf_eq_some_iff {v : Float} {p : UInt32} :
    precedenceOf v = some p ↔ v = p.toFloat ∧ 1 ≤ p ∧ p ≤ 100 := by
  simp only [precedenceOf, Option.ite_none_right_eq_some, Option.some.injEq]
  constructor
  · rintro ⟨⟨hv, h₁, h₂⟩, rfl⟩
    exact ⟨hv.symm, h₁, h₂⟩
  · rintro ⟨rfl, h₁, h₂⟩
    rw [toUInt32_toFloat h₂]
    exact ⟨⟨rfl, h₁, h₂⟩, rfl⟩

section

variable {tokens rest : List Token}

theorem gives_parseSymbol_iff {op : Char} :
    (parseSymbol tokens).Gives op rest ↔ tokens = .op op :: rest := by
  unfold parseSymbol
  split
  · simp [eq_comm]
  · next hrefused =>
    refine iff_of_false not_gives_fail ?_
    rintro rfl
    exact hrefused op rest rfl

theorem gives_parsePrecedence_iff {n : Nat} {h : tokens.length < n} {p : UInt32} :
    (parsePrecedence tokens h).Gives p (.openParen :: rest) ↔
      ∃ us, tokens = us ++ .openParen :: rest ∧ PrecedenceSpelled p us := by
  constructor
  · intro hp
    unfold parsePrecedence at hp
    split at hp
    · split at hp
      · next v later _ q hq =>
        obtain ⟨rfl, rfl⟩ := gives_succeed_iff.1 hp
        obtain ⟨rfl, h₁, h₂⟩ := precedenceOf_eq_some_iff.1 hq
        exact ⟨[.number p.toFloat], rfl, .given h₁ h₂⟩
      · exact absurd hp not_gives_fail
    · obtain ⟨rfl, rfl⟩ := gives_succeed_iff.1 hp
      exact ⟨[], rfl, .omitted⟩
  · rintro ⟨us, rfl, hus⟩
    cases hus with
    | given h₁ h₂ => simp [parsePrecedence, precedenceOf_eq_some_iff.2 ⟨rfl, h₁, h₂⟩]
    | omitted => simp [parsePrecedence]

theorem takeParams_spelled (tokens : List Token) :
    ∃ ts, tokens = ts ++ (takeParams tokens).2 ∧ ParamsSpelled (takeParams tokens).1 ts := by
  fun_induction takeParams tokens with
  | case1 name rest ih =>
    obtain ⟨ts, hts, hspelled⟩ := ih
    exact ⟨.ident name :: .comma :: ts, by simp [← hts], .comma hspelled⟩
  | case2 name rest _ ih =>
    obtain ⟨ts, hts, hspelled⟩ := ih
    exact ⟨.ident name :: ts, by simp [← hts], .cons hspelled⟩
  | case3 rest => exact ⟨[], rfl, .nil⟩

theorem ParamsSpelled.takeParams_append {names : List String} {ts : List Token}
    (h : ParamsSpelled names ts) :
    takeParams (ts ++ .closeParen :: rest) = (names, .closeParen :: rest) := by
  induction h with
  | nil => rw [List.nil_append, takeParams] <;> simp
  | @cons name names ts hnames ih =>
    rw [List.cons_append, takeParams, ih]
    rintro later hlater
    cases hnames <;> simp at hlater
  | comma _ ih => rw [List.cons_append, List.cons_append, takeParams, ih]

theorem gives_parseParams_iff {names : List String} : (parseParams tokens).Gives names rest ↔
    ∃ ts, tokens = .openParen :: (ts ++ .closeParen :: rest) ∧ ParamsSpelled names ts := by
  rw [parseParams, gives_andThen_iff]
  simp only [gives_weaken_iff, gives_map_iff, gives_expect_iff]
  constructor
  · rintro ⟨-, mid, -, rfl, -, hrest, rfl⟩
    obtain ⟨ts, hts, hspelled⟩ := takeParams_spelled mid
    exact ⟨ts, by rw [← hrest, ← hts], hspelled⟩
  · rintro ⟨ts, rfl, hspelled⟩
    refine ⟨(), _, Nat.lt_succ_self _, rfl, (), ?_⟩
    rw [hspelled.takeParams_append]
    exact ⟨rfl, rfl⟩

/-- The tokens of what a prototype begins with. -/
def Head.Spelled : Head → List Token → Prop
  | plain name, ts => ts = [.ident name]
  | unary op, ts => ts = [.kwUnary, .op op]
  | binary op p, ts => ∃ us, ts = .kwBinary :: .op op :: us ∧ PrecedenceSpelled p us

theorem gives_parseHead_iff {head : Head} : (parseHead tokens).Gives head (.openParen :: rest) ↔
    ∃ ts, tokens = ts ++ .openParen :: rest ∧ head.Spelled ts := by
  constructor
  · intro h
    unfold parseHead at h
    split at h
    · obtain ⟨rfl, rfl⟩ := gives_succeed_iff.1 h
      exact ⟨[.ident _], rfl, rfl⟩
    · obtain ⟨op, hop, rfl⟩ := gives_map_iff.1 (gives_weaken_iff.1 h)
      obtain rfl := gives_parseSymbol_iff.1 hop
      exact ⟨[.kwUnary, .op op], rfl, rfl⟩
    · obtain ⟨op, mid, _, hop, hhead⟩ := gives_andThen_iff.1 (gives_weaken_iff.1 h)
      obtain rfl := gives_parseSymbol_iff.1 hop
      obtain ⟨p, hp, rfl⟩ := gives_map_iff.1 hhead
      obtain ⟨us, rfl, hus⟩ := gives_parsePrecedence_iff.1 hp
      exact ⟨.kwBinary :: .op op :: us, rfl, us, rfl, hus⟩
    · exact absurd h not_gives_fail
  · rintro ⟨ts, rfl, hts⟩
    cases head with
    | plain name =>
      obtain rfl := hts
      simp [parseHead]
    | unary op =>
      obtain rfl := hts
      simp [parseHead, gives_parseSymbol_iff]
    | binary op p =>
      obtain ⟨us, rfl, hus⟩ := hts
      rw [List.cons_append, List.cons_append, parseHead, gives_weaken_iff, gives_andThen_iff]
      exact ⟨op, _, Nat.lt_succ_self _, gives_parseSymbol_iff.2 rfl,
        gives_map_iff.2 ⟨p, gives_parsePrecedence_iff.2 ⟨us, rfl, hus⟩, rfl⟩⟩

theorem Prototype.spelled_iff {proto : Prototype} {tokens : List Token} :
    proto.Spelled tokens ↔ ∃ head params ts us,
      tokens = ts ++ .openParen :: (us ++ [.closeParen]) ∧ Head.Spelled head ts ∧
        ParamsSpelled params us ∧ head.toPrototype params = .ok proto := by
  constructor
  · intro h
    cases h with
    | plain hparams => exact ⟨.plain _, _, _, _, rfl, rfl, hparams, rfl⟩
    | @unary op params ts hparams hlength =>
      exact ⟨.unary op, params, [.kwUnary, .op op], ts, rfl, rfl, hparams,
        by simp [Head.toPrototype, hlength]⟩
    | @binary op p params us ts hp hparams hlength =>
      exact ⟨.binary op p, params, .kwBinary :: .op op :: us, ts, rfl, ⟨us, rfl, hp⟩, hparams,
        by simp [Head.toPrototype, hlength]⟩
  · rintro ⟨head, params, ts, us, rfl, hts, hparams, hproto⟩
    cases head with
    | plain name =>
      obtain rfl := hts
      cases hproto
      exact .plain hparams
    | unary op =>
      obtain rfl := hts
      simp only [Head.toPrototype] at hproto
      split at hproto
      · cases hproto
        exact .unary hparams ‹_›
      · cases hproto
    | binary op p =>
      obtain ⟨ps, rfl, hp⟩ := hts
      simp only [Head.toPrototype] at hproto
      split at hproto
      · cases hproto
        exact .binary hp hparams ‹_›
      · cases hproto

theorem gives_parsePrototype_iff {proto : Prototype} :
    (parsePrototype tokens).Gives proto rest ↔ ∃ ts, tokens = ts ++ rest ∧ proto.Spelled ts := by
  rw [parsePrototype, gives_andThen_iff]
  simp only [gives_andThen_iff, gives_weaken_iff, gives_parseParams_iff]
  constructor
  · rintro ⟨head, _, _, hhead, params, mid, _, ⟨us, rfl, hus⟩, h⟩
    obtain ⟨ts, rfl, hts⟩ := gives_parseHead_iff.1 hhead
    split at h
    · next found hfound =>
      obtain ⟨rfl, rfl⟩ := gives_succeed_iff.1 h
      exact ⟨ts ++ .openParen :: (us ++ [.closeParen]), by simp,
        Prototype.spelled_iff.2 ⟨head, params, ts, us, rfl, hts, hus, hfound⟩⟩
    · exact absurd h not_gives_fail
  · rintro ⟨_, rfl, hproto⟩
    obtain ⟨head, params, ts, us, rfl, hts, hus, hok⟩ := Prototype.spelled_iff.1 hproto
    have hhead : (parseHead (ts ++ .openParen :: (us ++ [.closeParen]) ++ rest)).Gives head
        (.openParen :: (us ++ .closeParen :: rest)) :=
      gives_parseHead_iff.2 ⟨ts, by simp, hts⟩
    have hlt := hhead.length_lt
    refine ⟨head, _, hlt, hhead, params, rest, ?_, ⟨us, rfl, hus⟩, ?_⟩
    · simp only [List.length_cons, List.length_append] at hlt ⊢
      omega
    · rw [hok]
      exact gives_succeed_iff.2 ⟨rfl, rfl⟩

end

/-! ### Items -/

section

variable {ops : Operators} {tokens rest : List Token}

theorem gives_parseDefinition_iff {item : Item} : (parseDefinition ops tokens).2.Gives item rest ↔
    ∃ proto mid body, (parsePrototype tokens).Gives proto mid ∧
      (parseExpr (ops.extend proto) 0 mid).Gives body rest ∧ item = .function proto body := by
  unfold parseDefinition
  split
  · next f hf =>
    refine iff_of_false (not_gives_error f) ?_
    rintro ⟨proto, mid, body, hproto, -⟩
    rw [hf] at hproto
    exact not_gives_error f hproto
  · next p hp =>
    simp only [gives_weaken_iff, gives_map_iff, hp, gives_ok_iff]
    constructor
    · rintro ⟨body, hbody, rfl⟩
      exact ⟨_, _, body, ⟨rfl, rfl⟩, hbody, rfl⟩
    · rintro ⟨proto, mid, body, ⟨rfl, rfl⟩, hbody, rfl⟩
      exact ⟨body, hbody, rfl⟩

theorem gives_parseItem_def_iff {item : Item} :
    (parseItem ops (.kwDef :: tokens)).2.Gives item rest ↔
      (parseDefinition ops tokens).2.Gives item rest := by
  simp only [parseItem, gives_weaken_iff]

theorem gives_parseItem_extern_iff {item : Item} :
    (parseItem ops (.kwExtern :: tokens)).2.Gives item rest ↔
      ∃ proto, (parsePrototype tokens).Gives proto rest ∧ item = .foreign proto := by
  simp only [parseItem]
  split
  · next f hf => simp [hf, not_gives_error]
  · next p hp =>
    simp only [gives_succeed_iff, hp, gives_ok_iff]
    constructor
    · rintro ⟨rfl, rfl⟩
      exact ⟨_, ⟨rfl, rfl⟩, rfl⟩
    · rintro ⟨proto, ⟨rfl, rfl⟩, rfl⟩
      exact ⟨rfl, rfl⟩

theorem parseItem_eq_parseExpr (hdef : tokens.head? ≠ some .kwDef)
    (hforeign : tokens.head? ≠ some .kwExtern) :
    parseItem ops tokens = (ops, (parseExpr ops 0 tokens).map .ofExpr) := by
  rw [parseItem]
  · rintro mid rfl
    exact hdef rfl
  · rintro mid rfl
    exact hforeign rfl

/-- No expression begins where an item ends or another kind of item begins. -/
theorem not_gives_parseExpr {t : Token} {e : Expr} (ht : t.isBoundary = true) :
    ¬(parseExpr ops 0 (t :: tokens)).Gives e rest := by
  rw [gives_parseExpr_iff]
  rintro ⟨left, mid, h, -⟩
  rcases isBoundary_iff.1 ht with rfl | rfl | rfl
  all_goals
    rw [parseUnary_eq_parsePrimary (by simp), parsePrimary] at h
    · exact not_gives_fail h
    all_goals simp

theorem Item.Spelled.gives {item : Item} {ts : List Token}
    (h : item.Spelled ops rest.head? ts) : (parseItem ops (ts ++ rest)).2.Gives item rest := by
  cases h with
  | @function proto body _ ts us hproto hbody =>
    rw [List.cons_append, List.append_assoc, gives_parseItem_def_iff, gives_parseDefinition_iff]
    exact ⟨proto, us ++ rest, body, gives_parsePrototype_iff.2 ⟨ts, rfl, hproto⟩,
      hbody.accepted rest rfl, rfl⟩
  | @foreign proto _ ts hproto =>
    rw [List.cons_append, gives_parseItem_extern_iff]
    exact ⟨proto, gives_parsePrototype_iff.2 ⟨ts, rfl, hproto⟩, rfl⟩
  | @expr e _ ts he =>
    have hgives : (parseExpr ops 0 (ts ++ rest)).Gives e rest := he.accepted rest rfl
    -- an expression that is accepted does not begin like another item
    have hhead (t : Token) (ht : t.isBoundary = true) : (ts ++ rest).head? ≠ some t := by
      intro hhead
      obtain ⟨mid, hmid⟩ := List.head?_eq_some_iff.1 hhead
      rw [hmid] at hgives
      exact not_gives_parseExpr ht hgives
    rw [parseItem_eq_parseExpr (hhead _ rfl) (hhead _ rfl)]
    exact gives_map_iff.2 ⟨e, hgives, rfl⟩

theorem spelled_of_gives_parseItem {item : Item} (h : (parseItem ops tokens).2.Gives item rest) :
    ∃ ts, tokens = ts ++ rest ∧ item.Spelled ops rest.head? ts := by
  by_cases hdef : tokens.head? = some .kwDef
  · obtain ⟨mid, rfl⟩ := List.head?_eq_some_iff.1 hdef
    rw [gives_parseItem_def_iff, gives_parseDefinition_iff] at h
    obtain ⟨proto, later, body, hproto, hbody, rfl⟩ := h
    obtain ⟨us, rfl, hus⟩ := read_of_gives hbody
    obtain ⟨ts, rfl, hts⟩ := gives_parsePrototype_iff.1 hproto
    exact ⟨.kwDef :: (ts ++ us), by simp, .function hts hus⟩
  by_cases hforeign : tokens.head? = some .kwExtern
  · obtain ⟨mid, rfl⟩ := List.head?_eq_some_iff.1 hforeign
    obtain ⟨proto, hproto, rfl⟩ := gives_parseItem_extern_iff.1 h
    obtain ⟨ts, rfl, hts⟩ := gives_parsePrototype_iff.1 hproto
    exact ⟨.kwExtern :: ts, rfl, .foreign hts⟩
  · rw [parseItem_eq_parseExpr hdef hforeign] at h
    obtain ⟨e, he, rfl⟩ := gives_map_iff.1 h
    obtain ⟨ts, rfl, hts⟩ := read_of_gives he
    exact ⟨ts, rfl, .expr hts⟩

/-- An accepted item leaves the operators that its prototype adds to. -/
theorem operators_of_gives_parseItem {item : Item}
    (h : (parseItem ops tokens).2.Gives item rest) :
    (parseItem ops tokens).1 = ops.extend item.proto := by
  by_cases hdef : tokens.head? = some .kwDef
  · obtain ⟨mid, rfl⟩ := List.head?_eq_some_iff.1 hdef
    rw [gives_parseItem_def_iff, gives_parseDefinition_iff] at h
    obtain ⟨proto, later, body, ⟨_, hproto⟩, -, rfl⟩ := h
    simp [parseItem, parseDefinition, hproto, Item.proto]
  by_cases hforeign : tokens.head? = some .kwExtern
  · obtain ⟨mid, rfl⟩ := List.head?_eq_some_iff.1 hforeign
    obtain ⟨proto, ⟨_, hproto⟩, rfl⟩ := gives_parseItem_extern_iff.1 h
    simp [parseItem, hproto, Item.proto]
  · rw [parseItem_eq_parseExpr hdef hforeign] at h ⊢
    obtain ⟨e, -, rfl⟩ := gives_map_iff.1 h
    rfl

end

/-! ### Cursors -/

theorem Cursor.advance_eq_some_iff {α : Type} {n : Nat} {c c' : Cursor} {ops : Operators}
    {r : ParseResult α n} {v : α} : c.advance ops r = (some v, c') ↔
      r.Gives v c'.tokens ∧ c'.operators = ops ∧ c'.errors = c.errors := by
  obtain ⟨tokens', ops', errors'⟩ := c'
  cases r with
  | ok p => simp [advance, gives_ok_iff, eq_comm, and_assoc]
  | error f => simp [advance, not_gives_error]

/-- A cursor moves over an item exactly if the tokens that it passes spell the item with the
operators known there. It then knows those of the prototype, and records no error. -/
theorem Cursor.item_eq_some_iff {c c' : Cursor} {item : Item} : c.item = (some item, c') ↔
    ∃ taken, c.tokens = taken ++ c'.tokens ∧
      item.Spelled c.operators c'.tokens.head? taken ∧
      c'.operators = c.operators.extend item.proto ∧ c'.errors = c.errors := by
  have hitem : c.item = c.advance (parseItem c.operators c.tokens).1
      (parseItem c.operators c.tokens).2 := rfl
  rw [hitem, advance_eq_some_iff]
  constructor
  · rintro ⟨hgives, hops, herrors⟩
    obtain ⟨taken, htokens, hspelled⟩ := spelled_of_gives_parseItem hgives
    exact ⟨taken, htokens, hspelled, hops.trans (operators_of_gives_parseItem hgives), herrors⟩
  · rintro ⟨taken, htokens, hspelled, hops, herrors⟩
    have hgives := hspelled.gives
    rw [← htokens] at hgives
    exact ⟨hgives, hops.trans (operators_of_gives_parseItem hgives).symm, herrors⟩

end ScalarLang
