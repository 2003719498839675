import ScalarLang.Proofs.Syntax.Results
import ScalarLang.Proofs.Syntax.Suffixes
import ScalarLang.Proofs.Token.Pieces

/-! Going on after errors. A program is read by attempts at items. One that succeeds takes tokens
and records nothing; one that fails records one error, at the token where it stops, and together
with the tokens that are skipped after it takes tokens too. So the reading comes to its end, each
failed attempt has its error, and each error lies after the one before it. -/

namespace ScalarLang

open ParseResult

/-! ### Attempts -/

namespace Cursor

/-- A token is left, and it is not one that separates items. -/
def AtItem (c : Cursor) : Prop := ∃ t rest, c.tokens = t :: rest ∧ t ≠ .semi

theorem AtItem.ne_nil {c : Cursor} (h : c.AtItem) : c.tokens ≠ [] := by
  obtain ⟨t, rest, htokens, -⟩ := h
  rw [htokens]
  exact List.cons_ne_nil t rest

theorem AtItem.ne_semi {c : Cursor} (h : c.AtItem) {rest : List Token} :
    c.tokens ≠ .semi :: rest := by
  obtain ⟨t, rest', htokens, ht⟩ := h
  rw [htokens]
  exact fun heq => ht (List.cons.inj heq).1

/-- An item takes tokens, and nothing is recorded. -/
theorem of_item_eq_some {c c' : Cursor} {item : Item} (h : c.item = (some item, c')) :
    c'.tokens <:+ c.tokens ∧ c'.tokens.length < c.tokens.length ∧ c'.errors = c.errors := by
  have hleaves := leaves_parseItem c.operators c.tokens
  unfold Cursor.item at h
  generalize parseItem c.operators c.tokens = r at h hleaves
  obtain ⟨ops, f | p⟩ := r
  · cases h
  · cases h
    exact ⟨hleaves, p.rest_lt, rfl⟩

theorem exists_failure {c c' : Cursor} (h : c.item = (none, c')) :
    ∃ f, (parseItem c.operators c.tokens).2 = .error f ∧ c'.tokens = f.rest ∧
      c'.errors = c.errors ++ [f.toError] := by
  unfold Cursor.item at h
  generalize parseItem c.operators c.tokens = r at h ⊢
  obtain ⟨ops, f | p⟩ := r
  · cases h
    exact ⟨f, rfl, rfl, rfl⟩
  · cases h

/-- A refused item records one error, at the token where the cursor stops. -/
theorem of_item_eq_none {c c' : Cursor} (h : c.item = (none, c')) :
    (∃ cause, c'.errors = c.errors ++ [⟨cause, c'.tokens⟩]) ∧ c'.tokens <:+ c.tokens := by
  obtain ⟨f, hf, htokens, herrors⟩ := exists_failure h
  have hleaves := leaves_parseItem c.operators c.tokens
  rw [hf] at hleaves
  rw [htokens]
  exact ⟨⟨f.cause, herrors⟩, hleaves⟩

end Cursor

/-- The word that begins a definition or a declaration is taken even if the item is refused. -/
theorem length_lt_of_isBoundary {ops : Operators} {tokens : List Token} {t : Token}
    {f : Failure tokens.length} (hhead : tokens.head? = some t) (ht : t.isBoundary = true)
    (hsemi : t ≠ .semi) (h : (parseItem ops tokens).2 = .error f) :
    f.rest.length < tokens.length := by
  obtain ⟨rest, rfl⟩ := List.head?_eq_some_iff.1 hhead
  rcases isBoundary_iff.1 ht with rfl | rfl | rfl
  · exact absurd rfl hsemi
  · simp only [parseItem] at h
    generalize (parseDefinition ops rest).2 = r at h
    cases r with
    | ok p => cases h
    | error g =>
      cases h
      exact Nat.lt_succ_of_le g.rest_le
  · simp only [parseItem] at h
    generalize parsePrototype rest = r at h
    cases r with
    | ok p => cases h
    | error g =>
      cases h
      exact Nat.lt_succ_of_le g.rest_le

theorem synchronize_of_isBoundary {t : Token} (ht : t.isBoundary = false) (rest : List Token) :
    synchronize (t :: rest) = synchronize rest :=
  List.dropWhile_cons_of_pos (by rw [ht]; rfl)

/-- After an error that is found at once, at a token where no item can begin, that token is the
first to be skipped. -/
theorem resume_eq_synchronize {ops : Operators} {t : Token} {rest : List Token}
    {f : Failure (rest.length + 1)} (hsemi : t ≠ .semi)
    (h : (parseItem ops (t :: rest)).2 = .error f) : resume rest f = synchronize f.rest := by
  unfold resume
  by_cases hle : f.rest.length ≤ rest.length
  · rw [if_pos hle]
  · have hleaves := leaves_parseItem ops (t :: rest)
    rw [h] at hleaves
    have hrest : f.rest = t :: rest :=
      hleaves.eq_of_length (Nat.le_antisymm hleaves.length_le (Nat.lt_of_not_le hle))
    have ht : t.isBoundary = false := by
      rw [← Bool.not_eq_true]
      exact fun ht => hle (Nat.le_of_lt_succ (length_lt_of_isBoundary rfl ht hsemi h))
    rw [if_neg hle, hrest, synchronize_of_isBoundary ht]

namespace Cursor

theorem length_lt_of_head {c c' : Cursor} (hc : c.AtItem) (h : c.item = (none, c'))
    (hhead : ∀ t ∈ c.tokens.head?, t.isBoundary = true) :
    c'.tokens.length < c.tokens.length := by
  obtain ⟨t, rest, htokens, hsemi⟩ := hc
  obtain ⟨f, hf, hrest, -⟩ := exists_failure h
  have ht : c.tokens.head? = some t := by rw [htokens, List.head?_cons]
  rw [hrest]
  exact length_lt_of_isBoundary ht (hhead t ht) hsemi hf

/-- A refused item and what is skipped after it are at least one token. -/
theorem length_synchronize_lt {c c' : Cursor} (hc : c.AtItem) (h : c.item = (none, c')) :
    (synchronize c'.tokens).length < c.tokens.length := by
  have hsync := synchronize_length_le c'.tokens
  have hsuffix := (of_item_eq_none h).2
  by_cases hlt : c'.tokens.length < c.tokens.length
  · exact Nat.lt_of_le_of_lt hsync hlt
  · -- nothing was taken, so the first token is no boundary, and it is skipped
    have hsame := hsuffix.eq_of_length (Nat.le_antisymm hsuffix.length_le (Nat.le_of_not_lt hlt))
    obtain ⟨t, rest, htokens, -⟩ := id hc
    have ht : t.isBoundary = false := by
      rw [← Bool.not_eq_true]
      intro ht
      refine hlt (length_lt_of_head hc h fun t' ht' => ?_)
      rw [htokens] at ht'
      cases ht'
      exact ht
    rw [hsame, htokens, synchronize_of_isBoundary ht]
    exact Nat.lt_succ_of_le (synchronize_length_le rest)

end Cursor

/-- One try to read an item: where it began, what it gave and where it stopped. -/
structure Attempt where
  start : Cursor
  item? : Option Item
  stop : Cursor

/-- An item takes tokens and leaves no error. If there is none, one error was recorded at the token
where the attempt stopped, what follows up to the next boundary is skipped, and this took tokens. -/
def Attempt.Exact (a : Attempt) : Prop :=
  match a.item? with
  | some _ =>
    a.stop.tokens <:+ a.start.tokens ∧ a.stop.tokens.length < a.start.tokens.length ∧
      a.stop.errors = a.start.errors
  | none =>
    (∃ cause, a.stop.errors = a.start.errors ++ [⟨cause, a.stop.tokens⟩]) ∧
      a.stop.tokens <:+ a.start.tokens ∧
      ∃ skipped, a.stop.tokens = skipped ++ synchronize a.stop.tokens ∧
        (∀ t ∈ skipped, t ≠ .semi ∧ t ≠ .kwDef ∧ t ≠ .kwExtern) ∧
        (∀ t ∈ (synchronize a.stop.tokens).head?, t = .semi ∨ t = .kwDef ∨ t = .kwExtern) ∧
        (synchronize a.stop.tokens).length < a.start.tokens.length

theorem isBoundary_of_mem_head? {tokens : List Token} {t : Token}
    (h : t ∈ (synchronize tokens).head?) : t.isBoundary = true := by
  have hhead := List.head?_dropWhile_not (!·.isBoundary) tokens
  rw [← synchronize, Option.mem_def.1 h] at hhead
  simpa using hhead

/-! ### Sweeps -/

namespace Cursor

/-- The attempts by which the items are read up to the end of the tokens. Semicolons between items
are passed over, and after a refused item all tokens up to the next boundary. -/
inductive Sweep : Cursor → List Attempt → Cursor → Prop
  | finish {c} : c.tokens = [] → Sweep c [] c
  | separator {c rest attempts last} : c.tokens = .semi :: rest →
      Sweep { c with tokens := rest } attempts last → Sweep c attempts last
  | accept {c item c' attempts last} : c.AtItem → c.item = (some item, c') →
      Sweep c' attempts last → Sweep c (⟨c, some item, c'⟩ :: attempts) last
  | refuse {c c' attempts last} : c.AtItem → c.item = (none, c') →
      Sweep { c' with tokens := synchronize c'.tokens } attempts last →
      Sweep c (⟨c, none, c'⟩ :: attempts) last

variable {c last : Cursor} {attempts : List Attempt}

theorem exact_of_item_eq_none {c c' : Cursor} (hc : c.AtItem) (h : c.item = (none, c')) :
    Attempt.Exact ⟨c, none, c'⟩ := by
  obtain ⟨hcause, hsuffix⟩ := of_item_eq_none h
  refine ⟨hcause, hsuffix, c'.tokens.takeWhile (!·.isBoundary), ?_, fun t ht => ?_,
    fun t ht => isBoundary_iff.1 (isBoundary_of_mem_head? ht), length_synchronize_lt hc h⟩
  · exact List.takeWhile_append_dropWhile.symm
  · have hskipped : ¬t.isBoundary = true := by simpa using List.mem_takeWhile_imp ht
    simpa only [isBoundary_iff, not_or] using hskipped

theorem Sweep.exact (h : Sweep c attempts last) : ∀ a ∈ attempts, a.Exact := by
  induction h with
  | finish => exact List.forall_mem_nil _
  | separator _ _ ih => exact ih
  | accept _ hitem _ ih => exact List.forall_mem_cons.2 ⟨of_item_eq_some hitem, ih⟩
  | refuse hc hitem _ ih => exact List.forall_mem_cons.2 ⟨exact_of_item_eq_none hc hitem, ih⟩

theorem Sweep.unique (h : Sweep c attempts last) {attempts' : List Attempt} {last' : Cursor}
    (h' : Sweep c attempts' last') : attempts' = attempts ∧ last' = last := by
  induction h generalizing attempts' last' with
  | finish hnil =>
    cases h' with
    | finish => exact ⟨rfl, rfl⟩
    | separator hsemi => exact absurd (hnil.symm.trans hsemi) (by simp)
    | accept hc => exact absurd hnil hc.ne_nil
    | refuse hc => exact absurd hnil hc.ne_nil
  | separator hsemi _ ih =>
    cases h' with
    | finish hnil => exact absurd (hnil.symm.trans hsemi) (by simp)
    | separator hsemi' h' =>
      cases hsemi.symm.trans hsemi'
      exact ih h'
    | accept hc => exact absurd hsemi hc.ne_semi
    | refuse hc => exact absurd hsemi hc.ne_semi
  | accept hc hitem _ ih =>
    cases h' with
    | finish hnil => exact absurd hnil hc.ne_nil
    | separator hsemi => exact absurd hsemi hc.ne_semi
    | accept _ hitem' h' =>
      cases hitem.symm.trans hitem'
      obtain ⟨rfl, rfl⟩ := ih h'
      exact ⟨rfl, rfl⟩
    | refuse _ hitem' => cases hitem.symm.trans hitem'
  | refuse hc hitem _ ih =>
    cases h' with
    | finish hnil => exact absurd hnil hc.ne_nil
    | separator hsemi => exact absurd hsemi hc.ne_semi
    | accept _ hitem' => cases hitem.symm.trans hitem'
    | refuse _ hitem' h' =>
      cases hitem.symm.trans hitem'
      obtain ⟨rfl, rfl⟩ := ih h'
      exact ⟨rfl, rfl⟩

theorem Sweep.length_errors (h : Sweep c attempts last) :
    last.errors.length = c.errors.length + attempts.countP (·.item?.isNone) := by
  induction h with
  | finish => rfl
  | separator _ _ ih => exact ih
  | accept _ hitem _ ih =>
    rw [ih, (of_item_eq_some hitem).2.2]
    rfl
  | refuse _ hitem _ ih =>
    obtain ⟨cause, herrors⟩ := (of_item_eq_none hitem).1
    rw [ih, herrors, List.length_append, List.countP_cons_of_pos rfl, List.length_singleton]
    omega

/-- The error is at one of these tokens or at their end, and not at the first one if that is a
boundary. -/
def Within (tokens : List Token) (e : SyntaxError) : Prop :=
  e.rest.length ≤ tokens.length ∧
    ((∀ t ∈ tokens.head?, t.isBoundary = true) → e.rest.length < tokens.length)

theorem within_of_length_lt {tokens : List Token} {e : SyntaxError}
    (h : e.rest.length < tokens.length) : Within tokens e := ⟨Nat.le_of_lt h, fun _ => h⟩

theorem within_of_item_eq_none {c' : Cursor} {cause : SyntaxCause} (hc : c.AtItem)
    (h : c.item = (none, c')) : Within c.tokens ⟨cause, c'.tokens⟩ :=
  ⟨(of_item_eq_none h).2.length_le, length_lt_of_head hc h⟩

/-- Each error that a sweep adds is at a later token than those before it. -/
theorem Sweep.exists_errors (h : Sweep c attempts last) :
    ∃ added, last.errors = c.errors ++ added ∧
      added.Pairwise (fun e e' => e'.rest.length < e.rest.length) ∧
      ∀ e ∈ added, Within c.tokens e := by
  induction h with
  | finish => exact ⟨[], (List.append_nil _).symm, .nil, List.forall_mem_nil _⟩
  | @separator c rest _ _ hsemi _ ih =>
    obtain ⟨added, herrors, hpairwise, hwithin⟩ := ih
    refine ⟨added, herrors, hpairwise, fun e he => within_of_length_lt ?_⟩
    rw [hsemi]
    exact Nat.lt_succ_of_le (hwithin e he).1
  | accept _ hitem _ ih =>
    obtain ⟨added, herrors, hpairwise, hwithin⟩ := ih
    obtain ⟨-, hlt, hsame⟩ := of_item_eq_some hitem
    rw [hsame] at herrors
    exact ⟨added, herrors, hpairwise, fun e he =>
      within_of_length_lt (Nat.lt_of_le_of_lt (hwithin e he).1 hlt)⟩
  | @refuse c c' _ _ hc hitem _ ih =>
    obtain ⟨added, herrors, hpairwise, hwithin⟩ := ih
    obtain ⟨cause, hadded⟩ := (of_item_eq_none hitem).1
    -- the sweep goes on at a boundary, which is taken before another error can be found
    have hlater : ∀ e ∈ added, e.rest.length < (synchronize c'.tokens).length := fun e he =>
      (hwithin e he).2 fun t => isBoundary_of_mem_head?
    refine ⟨⟨cause, c'.tokens⟩ :: added, ?_, .cons (fun e he => ?_) hpairwise,
      List.forall_mem_cons.2 ⟨within_of_item_eq_none hc hitem, fun e he => ?_⟩⟩
    · rw [herrors, hadded, List.append_assoc, List.singleton_append]
    · exact Nat.lt_of_lt_of_le (hlater e he) (synchronize_length_le _)
    · exact within_of_length_lt ((hlater e he).trans (length_synchronize_lt hc hitem))

/-- Parsing a program is a sweep. -/
theorem exists_sweep (ops : Operators) (tokens : List Token) (errors : List SyntaxError) :
    ∃ attempts, Sweep ⟨tokens, ops, errors⟩ attempts
        ⟨[], (parseProgram ops tokens).operators, errors ++ (parseProgram ops tokens).errors⟩ ∧
      attempts.filterMap (·.item?) = (parseProgram ops tokens).items := by
  fun_induction parseProgram ops tokens generalizing errors with
  | case1 ops =>
    refine ⟨[], ?_, rfl⟩
    rw [Program.empty, List.append_nil]
    exact .finish rfl
  | case2 ops rest ih =>
    obtain ⟨attempts, hsweep, hitems⟩ := ih errors
    exact ⟨attempts, .separator rfl hsweep, hitems⟩
  | case3 ops t rest hsemi ops₁ parsed hparsed ih =>
    obtain ⟨attempts, hsweep, hitems⟩ := ih errors
    have hitem : Cursor.item ⟨t :: rest, ops, errors⟩ =
        (some parsed.value, ⟨parsed.rest, ops₁, errors⟩) := by
      simp only [item, hparsed, advance]
    exact ⟨_ :: attempts, .accept ⟨t, rest, rfl, hsemi⟩ hitem hsweep,
      congrArg (parsed.value :: ·) hitems⟩
  | case4 ops t rest hsemi ops₁ f hf ih =>
    rw [resume_eq_synchronize hsemi (by rw [hf])] at ih ⊢
    obtain ⟨attempts, hsweep, hitems⟩ := ih (errors ++ [f.toError])
    have hitem : Cursor.item ⟨t :: rest, ops, errors⟩ =
        (none, ⟨f.rest, ops₁, errors ++ [f.toError]⟩) := by
      simp only [item, hf, advance]
    rw [List.append_assoc] at hsweep
    exact ⟨_ :: attempts, .refuse ⟨t, rest, rfl, hsemi⟩ hitem hsweep, hitems⟩

end Cursor

/-! ### Places -/

theorem locate_of_lt {lexemes : List Lexeme} {size : Nat} {e : SyntaxError}
    (h : lexemes.length - e.rest.length < lexemes.length) :
    (e.locate lexemes size).start = lexemes[lexemes.length - e.rest.length].start := by
  unfold SyntaxError.locate
  rw [List.drop_eq_getElem_cons h]

theorem locate_of_rest_eq_nil {lexemes : List Lexeme} {size : Nat} {e : SyntaxError}
    (h : e.rest = []) : (e.locate lexemes size).start = size := by
  unfold SyntaxError.locate
  rw [h, List.length_nil, Nat.sub_zero, List.drop_length]

/-- An error at a later token of a text, or at its end, is at a greater offset. -/
theorem locate_start_lt {text : String} {e e' : SyntaxError}
    (h : e'.rest.length < e.rest.length) (hle : e.rest.length ≤ (lex text).length) :
    (e.locate (lex text) text.utf8ByteSize).start <
      (e'.locate (lex text) text.utf8ByteSize).start := by
  have hlt : (lex text).length - e.rest.length < (lex text).length := by omega
  rw [locate_of_lt hlt]
  by_cases hnil : e'.rest = []
  · rw [locate_of_rest_eq_nil hnil]
    exact start_lt_of_mem_lex (List.getElem_mem hlt)
  · have hpos := List.length_pos_iff.2 hnil
    have hlt' : (lex text).length - e'.rest.length < (lex text).length := by omega
    rw [locate_of_lt hlt']
    exact List.pairwise_iff_getElem.1 (pairwise_lex text) _ _ hlt hlt'
      (Nat.sub_lt_sub_left (by omega) h)

/-- The errors of a text are recorded in the order of their offsets. -/
theorem pairwise_start_readProgram (ops : Operators) (text : String) :
    ((readProgram ops text).source.errors.map (·.start)).Pairwise (· < ·) := by
  obtain ⟨_, hsweep, -⟩ := Cursor.exists_sweep ops ((lex text).map (·.token)) []
  obtain ⟨added, herrors, hpairwise, hwithin⟩ := hsweep.exists_errors
  have hadded : (parseProgram ops ((lex text).map (·.token))).errors = added := herrors
  simp only [readProgram, Source.ofErrors, hadded, List.map_map, List.pairwise_map]
  refine hpairwise.imp_of_mem fun he _ hlt => locate_start_lt hlt ?_
  simpa using (hwithin _ he).1

/-- A text is read by one sweep, which comes to the end of the text. Every attempt of it is exact;
the errors are as many as the attempts that failed, and each begins after the one before. -/
theorem readProgram_sweep (ops : Operators) (text : String) :
    ∃ attempts last, Cursor.Sweep ⟨(lex text).map (·.token), ops, []⟩ attempts last ∧
      (∀ attempts' last', Cursor.Sweep ⟨(lex text).map (·.token), ops, []⟩ attempts' last' →
        attempts' = attempts ∧ last' = last) ∧
      last.tokens = [] ∧
      (readProgram ops text).program =
        ⟨attempts.filterMap (·.item?), last.errors, last.operators⟩ ∧
      (∀ a ∈ attempts, a.Exact) ∧
      (readProgram ops text).source.errors.length = attempts.countP (·.item?.isNone) ∧
      ((readProgram ops text).source.errors.map (·.start)).Pairwise (· < ·) ∧
      ((readProgram ops text).source.isClean = true ↔ ∀ a ∈ attempts, a.item?.isSome = true) := by
  obtain ⟨attempts, hsweep, hitems⟩ := Cursor.exists_sweep ops ((lex text).map (·.token)) []
  have hlength : (readProgram ops text).source.errors.length =
      attempts.countP (·.item?.isNone) := by
    rw [← Nat.zero_add (attempts.countP _)]
    exact List.length_map _ |>.trans hsweep.length_errors
  refine ⟨attempts, _, hsweep, fun _ _ => hsweep.unique, rfl, ?_, hsweep.exact, hlength,
    pairwise_start_readProgram ops text, ?_⟩
  · rw [hitems]
    rfl
  · rw [Source.isClean, List.isEmpty_iff_length_eq_zero, hlength, List.countP_eq_zero]
    simp only [Bool.not_eq_true, Option.isNone_eq_false_iff]

end ScalarLang
