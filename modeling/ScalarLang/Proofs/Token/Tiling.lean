import ScalarLang.Proofs.Token.Pieces

/-! The tokens of a text as the pieces of a tiling. What lies between them are blanks and comments,
each token is spelled by its piece, which is as long as it can be, and there is only one such tiling.
So tokens that are written with spaces between them are read again. -/

namespace ScalarLang

namespace Token

/-! ### Spellings -/

/-- Characters of one kind, followed by none of that kind. -/
structure Run (p : Char → Bool) (word rest : List Char) : Prop where
  all : ∀ c ∈ word, p c = true
  stops : ∀ c ∈ rest.head?, p c = false

/-- A word, which is a letter with letters, digits and underscores, ends where the text ends. -/
def EndsWord (text : List Char) : Prop :=
  ∃ front c cs, text = front ++ c :: cs ∧ c.isAlpha = true ∧ ∀ d ∈ cs, isWordChar d = true

/-- A run of digits and points that is as long as it can be: only digits that belong to a word can
stand right before it. -/
structure NumberRun (before word rest : List Char) : Prop where
  ne_nil : word ≠ []
  run : Run isNumeral word rest
  first : ∀ c ∈ before.getLast?, isNumeral c = true → EndsWord before

/-- A word that is as long as it can be. -/
structure WordRun (before word rest : List Char) : Prop where
  letter : ∀ c ∈ word.head?, c.isAlpha = true
  ne_nil : word ≠ []
  run : Run isWordChar word rest
  first : ¬EndsWord before

/-- The tokens of other characters than operators. -/
def punctuation : List (Char × Token) :=
  [('(', openParen), (')', closeParen), (',', comma), (';', semi)]

/-- The character does not begin a blank, a comment, a number or a word. -/
structure Single (c : Char) : Prop where
  blank : isBlank c = false
  comment : c ≠ '#'
  numeral : isNumeral c = false
  letter : c.isAlpha = false

/-- The character belongs to no token. -/
structure Stray (c : Char) : Prop extends Single c where
  operator : c ∉ operators
  punctuation : ∀ t, (c, t) ∉ punctuation

/-- The token that a piece of a text spells. -/
inductive Reads : Token → (before word rest : List Char) → Prop where
  | number {before word rest : List Char} {v : Float} (h : NumberRun before word rest)
      (hv : readNumber word = some v) : Reads (number v) before word rest
  | malformed {before word rest : List Char} (h : NumberRun before word rest)
      (hv : readNumber word = none) : Reads error before word rest
  | keyword {before word rest : List Char} {t : Token} (h : WordRun before word rest)
      (ht : keyword? (String.ofList word) = some t) : Reads t before word rest
  | ident {before word rest : List Char} (h : WordRun before word rest)
      (ht : keyword? (String.ofList word) = none) :
      Reads (ident (String.ofList word)) before word rest
  | op {before rest : List Char} {c : Char} (h : c ∈ operators) : Reads (op c) before [c] rest
  | punctuation {before rest : List Char} {c : Char} {t : Token} (h : (c, t) ∈ punctuation) :
      Reads t before [c] rest
  | stray {before rest : List Char} {c : Char} (h : Stray c) : Reads error before [c] rest

/-- Blanks and comments in front of `rest`. A comment goes to the end of its line. -/
inductive Gap : (text rest : List Char) → Prop where
  | nil {rest : List Char} : Gap [] rest
  | blank {c : Char} {text rest : List Char} (hc : isBlank c = true) (h : Gap text rest) :
      Gap (c :: text) rest
  | comment {body text rest : List Char} (hbody : '\n' ∉ body)
      (hend : ∀ c ∈ (text ++ rest).head?, c = '\n') (h : Gap text rest) :
      Gap ('#' :: (body ++ text)) rest

end Token

/-- The lexemes of a text that goes on after `before`, with gaps around them. -/
inductive Lexeme.Tile : (before text : List Char) → List Lexeme → Prop where
  | done {before gap : List Char} (hgap : Token.Gap gap []) : Tile before gap []
  | lexeme {before gap word rest : List Char} {l : Lexeme} {ls : List Lexeme}
      (hgap : Token.Gap gap (word ++ rest)) (hreads : l.token.Reads (before ++ gap) word rest)
      (hstart : l.start = String.utf8Len (before ++ gap))
      (hstop : l.stop = String.utf8Len (before ++ gap ++ word))
      (hrest : Tile (before ++ gap ++ word) rest ls) : Tile before (gap ++ (word ++ rest)) (l :: ls)

namespace Token

/-! ### Kinds of characters -/

theorem isBlank_iff {c : Char} : isBlank c = true ↔ c ∈ [' ', '\t', '\n', '\r', '\x0c'] := by
  simp [isBlank, or_assoc]

/-- A blank is of no other kind. -/
theorem kinds_of_isBlank {c : Char} (h : isBlank c = true) :
    c ≠ '#' ∧ isNumeral c = false ∧ c.isAlpha = false ∧ isWordChar c = false := by
  have hc := isBlank_iff.1 h
  simp only [List.mem_cons, List.not_mem_nil, or_false] at hc
  rcases hc with rfl | rfl | rfl | rfl | rfl <;> decide

theorem isAlpha_of_isNumeral {c : Char} (h : isNumeral c = true) : c.isAlpha = false := by
  rcases Bool.or_eq_true_iff.1 h with h | h
  · have hrange : 48 ≤ c.toNat ∧ c.toNat ≤ 57 := by
      simpa [Char.isDigit, UInt32.le_iff_toNat_le] using h
    have hupper : c.isUpper = false := by
      refine decide_eq_false fun hc => ?_
      have hle : 65 ≤ c.toNat := UInt32.le_iff_toNat_le.1 hc.1
      omega
    have hlower : c.isLower = false := by
      refine Bool.and_eq_false_iff.2 (.inl (decide_eq_false fun hc => ?_))
      have hle : 97 ≤ c.toNat := UInt32.le_iff_toNat_le.1 hc
      omega
    exact Bool.or_eq_false_iff.2 ⟨hupper, hlower⟩
  · rw [beq_iff_eq] at h
    subst h
    decide

theorem isBlank_of_isNumeral {c : Char} (h : isNumeral c = true) : isBlank c = false := by
  by_contra hblank
  rw [(kinds_of_isBlank (by simpa using hblank)).2.1] at h
  cases h

theorem isBlank_of_isAlpha {c : Char} (h : c.isAlpha = true) : isBlank c = false := by
  by_contra hblank
  rw [(kinds_of_isBlank (by simpa using hblank)).2.2.1] at h
  cases h

theorem isNumeral_of_isAlpha {c : Char} (h : c.isAlpha = true) : isNumeral c = false := by
  by_contra hnumeral
  rw [isAlpha_of_isNumeral (by simpa using hnumeral)] at h
  cases h

theorem isWordChar_of_isAlpha {c : Char} (h : c.isAlpha = true) : isWordChar c = true := by
  simp [isWordChar, Char.isAlphanum, h]

theorem single_of_mem_operators {c : Char} (h : c ∈ operators) : Single c := by
  have hall : operators.all fun c =>
      isBlank c = false ∧ c ≠ '#' ∧ isNumeral c = false ∧ c.isAlpha = false := by decide +kernel
  have hc := of_decide_eq_true (List.all_eq_true.1 hall c h)
  exact ⟨hc.1, hc.2.1, hc.2.2.1, hc.2.2.2⟩

theorem single_of_mem_punctuation {c : Char} {t : Token} (h : (c, t) ∈ punctuation) : Single c :=
  have hall : ∀ p ∈ punctuation,
    isBlank p.1 = false ∧ p.1 ≠ '#' ∧ isNumeral p.1 = false ∧ p.1.isAlpha = false := by decide +kernel
  have hc := hall _ h
  ⟨hc.1, hc.2.1, hc.2.2.1, hc.2.2.2⟩

/-! ### Pieces -/

theorem ne_comment_of_isNumeral {c : Char} (h : isNumeral c = true) : c ≠ '#' := by
  rintro rfl
  cases h

theorem ne_comment_of_isAlpha {c : Char} (h : c.isAlpha = true) : c ≠ '#' := by
  rintro rfl
  cases h

theorem continues_numeral {c : Char} (h : isNumeral c = true) : continues c = isNumeral := by
  simp [continues, isBlank_of_isNumeral h, ne_comment_of_isNumeral h, h]

theorem continues_letter {c : Char} (h : c.isAlpha = true) : continues c = isWordChar := by
  simp [continues, isBlank_of_isAlpha h, ne_comment_of_isAlpha h, isNumeral_of_isAlpha h, h]

theorem ofPiece_numeral {c : Char} (h : isNumeral c = true) (text : List Char) :
    ofPiece c text = some ((readNumber text).elim error number) := by
  simp [ofPiece, isBlank_of_isNumeral h, ne_comment_of_isNumeral h, h]

theorem ofPiece_letter {c : Char} (h : c.isAlpha = true) (text : List Char) : ofPiece c text =
    some ((keyword? (String.ofList text)).getD (ident (String.ofList text))) := by
  simp [ofPiece, isBlank_of_isAlpha h, ne_comment_of_isAlpha h, isNumeral_of_isAlpha h, h]

theorem continues_single {c : Char} (h : Single c) : continues c = fun _ => false := by
  simp [continues, h.blank, h.comment, h.numeral, h.letter]

theorem ofPiece_operator {c : Char} (h : c ∈ operators) (text : List Char) :
    ofPiece c text = some (op c) := by
  have hc := single_of_mem_operators h
  simp [ofPiece, hc.blank, hc.comment, hc.numeral, hc.letter, h]

theorem ofPiece_punctuation {c : Char} {t : Token} (h : (c, t) ∈ punctuation) (text : List Char) :
    ofPiece c text = some t := by
  have hc := single_of_mem_punctuation h
  have hop : c ∉ operators := by
    have hall : ∀ p ∈ punctuation, p.1 ∉ operators := by decide +kernel
    exact hall _ h
  simp only [punctuation, List.mem_cons, Prod.mk.injEq, List.not_mem_nil, or_false] at h
  simp only [ofPiece, hc.blank, hc.numeral, hc.letter, hop, beq_eq_false_iff_ne.2 hc.comment]
  rcases h with ⟨rfl, rfl⟩ | ⟨rfl, rfl⟩ | ⟨rfl, rfl⟩ | ⟨rfl, rfl⟩ <;> rfl

theorem ofPiece_stray {c : Char} (h : Stray c) (text : List Char) : ofPiece c text = some error := by
  have hparen := h.punctuation openParen
  have hparen' := h.punctuation closeParen
  have hcomma := h.punctuation comma
  have hsemi := h.punctuation semi
  simp [punctuation] at hparen hparen' hcomma hsemi
  simp [ofPiece, h.blank, h.comment, h.numeral, h.letter, h.operator, hparen, hparen', hcomma, hsemi]

/-- The kinds of characters that a piece begins with. -/
theorem kinds (c : Char) : isBlank c = true ∨ c = '#' ∨ isNumeral c = true ∨ c.isAlpha = true ∨
    c ∈ operators ∨ (∃ t, (c, t) ∈ punctuation) ∨ Stray c := by
  by_contra h
  simp only [not_or, not_exists, Bool.not_eq_true] at h
  obtain ⟨hblank, hcomment, hnumeral, hletter, hop, hpunctuation, hstray⟩ := h
  exact hstray ⟨⟨hblank, hcomment, hnumeral, hletter⟩, hop, hpunctuation⟩

theorem Run.takeWhile {p : Char → Bool} {word rest : List Char} (h : Run p word rest) :
    (word ++ rest).takeWhile p = word := by
  rw [List.takeWhile_append_of_pos h.all]
  cases rest with
  | nil => simp
  | cons c cs => simp [h.stops c rfl]

theorem Run.dropWhile {p : Char → Bool} {word rest : List Char} (h : Run p word rest) :
    (word ++ rest).dropWhile p = rest := by
  rw [List.dropWhile_append_of_pos h.all]
  cases rest with
  | nil => simp
  | cons c cs => simp [h.stops c rfl]

/-- What is taken from a text is a run. -/
theorem run_takeWhile (p : Char → Bool) (text : List Char) :
    Run p (text.takeWhile p) (text.dropWhile p) where
  all _ hc := List.mem_takeWhile_imp hc
  stops c hc := by
    have := List.head?_dropWhile_not p text
    rw [Option.mem_def.1 hc] at this
    simpa using this

end Token

namespace Piece

open Token (Run continues ofPiece)

theorem split_run {c : Char} {cs rest : List Char} (h : Run (continues c) cs rest) :
    split (c :: (cs ++ rest)) = ⟨c :: cs, ofPiece c (c :: cs)⟩ :: split rest := by
  rw [split, h.takeWhile, h.dropWhile]

theorem split_single {c : Char} (h : Token.Single c) {t : Token} (ht : ofPiece c [c] = some t)
    (rest : List Char) : split ([c] ++ rest) = ⟨[c], some t⟩ :: split rest := by
  have hrun : Run (continues c) [] rest := by
    rw [Token.continues_single h]
    exact ⟨fun _ h => absurd h List.not_mem_nil, fun _ _ => rfl⟩
  rw [← ht]
  exact split_run hrun

/-- What spells a token is one piece. -/
theorem split_of_reads {t : Token} {before word rest : List Char} (h : t.Reads before word rest) :
    split (word ++ rest) = ⟨word, some t⟩ :: split rest := by
  have number (h : Token.NumberRun before word rest) : split (word ++ rest) =
      ⟨word, some ((Token.readNumber word).elim .error .number)⟩ :: split rest := by
    obtain ⟨c, cs, rfl⟩ := List.exists_cons_of_ne_nil h.ne_nil
    have hc := h.run.all c (List.mem_cons_self ..)
    have hrun : Run (continues c) cs rest := by
      rw [Token.continues_numeral hc]
      exact ⟨fun d hd => h.run.all d (List.mem_cons_of_mem _ hd), h.run.stops⟩
    rw [List.cons_append, split_run hrun, Token.ofPiece_numeral hc]
  have word (h : Token.WordRun before word rest) : split (word ++ rest) = ⟨word, some
      ((Token.keyword? (String.ofList word)).getD (.ident (String.ofList word)))⟩ :: split rest := by
    obtain ⟨c, cs, rfl⟩ := List.exists_cons_of_ne_nil h.ne_nil
    have hc := h.letter c rfl
    have hrun : Run (continues c) cs rest := by
      rw [Token.continues_letter hc]
      exact ⟨fun d hd => h.run.all d (List.mem_cons_of_mem _ hd), h.run.stops⟩
    rw [List.cons_append, split_run hrun, Token.ofPiece_letter hc]
  cases h with
  | number h hv => rw [number h, hv, Option.elim_some]
  | malformed h hv => rw [number h, hv, Option.elim_none]
  | keyword h ht => rw [word h, ht, Option.getD_some]
  | ident h ht => rw [word h, ht, Option.getD_none]
  | op h => exact split_single (Token.single_of_mem_operators h) (Token.ofPiece_operator h _) rest
  | punctuation h =>
    exact split_single (Token.single_of_mem_punctuation h) (Token.ofPiece_punctuation h _) rest
  | stray h => exact split_single h.toSingle (Token.ofPiece_stray h _) rest

end Piece

namespace Lexeme

theorem ofPieces_skip {p : Piece} (h : p.token? = none) (n : Nat) (ps : List Piece) :
    ofPieces n (p :: ps) = ofPieces (n + String.utf8Len p.text) ps := by
  simp only [ofPieces, h, Piece.size_eq]

theorem ofPieces_token {p : Piece} {t : Token} (h : p.token? = some t) (n : Nat)
    (ps : List Piece) : ofPieces n (p :: ps) =
      ⟨t, n, n + String.utf8Len p.text⟩ :: ofPieces (n + String.utf8Len p.text) ps := by
  simp only [ofPieces, h, Piece.size_eq]

theorem ofPieces_dropWhile_isBlank (n : Nat) (cs : List Char) :
    ofPieces n (Piece.split cs) = ofPieces (n + String.utf8Len (cs.takeWhile Token.isBlank))
      (Piece.split (cs.dropWhile Token.isBlank)) := by
  cases cs with
  | nil => rfl
  | cons c cs =>
    by_cases hc : Token.isBlank c = true
    · rw [List.takeWhile_cons_of_pos hc, List.dropWhile_cons_of_pos hc, Piece.split,
        Piece.continues_of_isBlank hc]
      exact ofPieces_skip (Piece.ofPiece_of_isBlank hc _) n _
    · rw [List.takeWhile_cons_of_neg hc, List.dropWhile_cons_of_neg hc]
      rfl

theorem ofPieces_blank {c : Char} (hc : Token.isBlank c = true) (n : Nat) (cs : List Char) :
    ofPieces n (Piece.split (c :: cs)) = ofPieces (n + c.utf8Size) (Piece.split cs) := by
  rw [ofPieces_dropWhile_isBlank n, ofPieces_dropWhile_isBlank (n + c.utf8Size),
    List.takeWhile_cons_of_pos hc, List.dropWhile_cons_of_pos hc]
  congr 1
  simp only [String.utf8Len]
  omega

/-- No lexeme comes from a gap. -/
theorem ofPieces_gap {gap rest : List Char} (h : Token.Gap gap rest) (n : Nat) :
    ofPieces n (Piece.split (gap ++ rest)) =
      ofPieces (n + String.utf8Len gap) (Piece.split rest) := by
  induction h generalizing n with
  | nil => rfl
  | @blank c gap rest hc h ih =>
    rw [List.cons_append, ofPieces_blank hc, ih, String.utf8Len, Nat.add_assoc,
      Nat.add_comm c.utf8Size]
  | @comment body gap rest hbody hend h ih =>
    have hrun : Token.Run (Token.continues '#') body (gap ++ rest) := by
      have hcomment : Token.continues '#' = (· != '\n') := rfl
      rw [hcomment]
      refine ⟨fun c hc => bne_iff_ne.2 ?_, fun c hc => by simp [hend c hc]⟩
      rintro rfl
      exact hbody hc
    rw [List.cons_append, List.append_assoc, Piece.split_run hrun,
      ofPieces_skip (p := ⟨'#' :: body, Token.ofPiece '#' ('#' :: body)⟩) rfl, ih,
      ← List.cons_append, String.utf8Len_append, Nat.add_assoc]

/-- There is only one tiling. -/
theorem Tile.eq_ofPieces {before text : List Char} {ls : List Lexeme} (h : Tile before text ls) :
    ls = ofPieces (String.utf8Len before) (Piece.split text) := by
  induction h with
  | @done before gap hgap =>
    have := ofPieces_gap hgap (String.utf8Len before)
    rw [List.append_nil] at this
    rw [this, Piece.split]
    rfl
  | @lexeme before gap word rest l ls hgap hreads hstart hstop hrest ih =>
    rw [ofPieces_gap hgap, Piece.split_of_reads hreads, ofPieces_token (p := ⟨_, _⟩) rfl,
      ← String.utf8Len_append, ← String.utf8Len_append, ← ih, ← hstart, ← hstop]

end Lexeme

/-! ### Cutting a text gives a tiling -/

namespace Token

/-- The text may be cut here: no word goes on, and no number unless a word ends. -/
structure Boundary (before rest : List Char) : Prop where
  word : EndsWord before → ∀ c ∈ rest.head?, isWordChar c = false
  numeral : ∀ d ∈ before.getLast?, isNumeral d = true →
    EndsWord before ∨ ∀ c ∈ rest.head?, isNumeral c = false

theorem boundary_nil (rest : List Char) : Boundary [] rest where
  word h := by
    obtain ⟨front, c, cs, h, -⟩ := h
    simp at h
  numeral d hd := by cases hd

/-- A word that ends a piece begins in it, unless one could go on from before. -/
theorem Boundary.endsWord {before word rest : List Char} (h : Boundary before (word ++ rest))
    (hne : word ≠ []) (hends : EndsWord (before ++ word)) : EndsWord word := by
  obtain ⟨front, c, cs, heq, hc, hcs⟩ := hends
  rcases List.append_eq_append_iff.1 heq with ⟨xs, rfl, rfl⟩ | ⟨xs, rfl, hxs⟩
  · exact ⟨xs, c, cs, rfl, hc, hcs⟩
  · cases xs with
    | nil => exact ⟨[], c, cs, hxs.symm, hc, hcs⟩
    | cons d xs =>
      rw [List.cons_append, List.cons.injEq] at hxs
      obtain ⟨rfl, rfl⟩ := hxs
      obtain ⟨e, es, rfl⟩ := List.exists_cons_of_ne_nil hne
      have hword := h.word ⟨front, c, xs, rfl, hc, fun d hd => hcs d (List.mem_append_left _ hd)⟩ e rfl
      rw [hcs e (List.mem_append_right _ (List.mem_cons_self ..))] at hword
      cases hword

theorem not_endsWord_of_all {word : List Char} (h : ∀ c ∈ word, c.isAlpha = false) :
    ¬EndsWord word := by
  rintro ⟨front, c, cs, rfl, hc, -⟩
  rw [h c (by simp)] at hc
  cases hc

theorem Boundary.append {before word rest : List Char} (h : Boundary before (word ++ rest))
    (hne : word ≠ []) (hword : EndsWord word → ∀ c ∈ rest.head?, isWordChar c = false)
    (hnumeral : ∀ d ∈ word.getLast?, isNumeral d = true →
      EndsWord word ∨ ∀ c ∈ rest.head?, isNumeral c = false) : Boundary (before ++ word) rest where
  word hends := hword (h.endsWord hne hends)
  numeral d hd hdn := by
    rw [List.getLast?_append_of_ne_nil _ hne] at hd
    refine (hnumeral d hd hdn).imp_left ?_
    rintro ⟨front, c, cs, rfl, hc, hcs⟩
    exact ⟨before ++ front, c, cs, (List.append_assoc ..).symm, hc, hcs⟩

/-- Where no word can end and no number go on, a piece may end. -/
theorem Boundary.append_of_all {before word rest : List Char} (h : Boundary before (word ++ rest))
    (hne : word ≠ []) (hall : ∀ c ∈ word, c.isAlpha = false ∧ isNumeral c = false) :
    Boundary (before ++ word) rest := by
  refine h.append hne (fun hends => absurd hends ?_) fun d hd hdn => ?_
  · exact not_endsWord_of_all fun c hc => (hall c hc).1
  · rw [(hall d (List.mem_of_getLast? hd)).2] at hdn
    cases hdn

end Token

namespace Lexeme

/-- A piece without a token lengthens the gap. -/
theorem Tile.skip {before piece rest : List Char} {ls : List Lexeme}
    (h : Tile (before ++ piece) rest ls) (hpiece : ∀ {gap tail : List Char}, rest = gap ++ tail →
      Token.Gap gap tail → Token.Gap (piece ++ gap) tail) : Tile before (piece ++ rest) ls := by
  cases h with
  | done hgap => exact .done (hpiece (List.append_nil _).symm hgap)
  | @lexeme _ gap word rest l ls hgap hreads hstart hstop hrest =>
    rw [← List.append_assoc]
    rw [List.append_assoc before] at hreads hstart hstop hrest
    exact .lexeme (hpiece rfl hgap) hreads hstart hstop hrest

theorem Tile.cons {before word rest : List Char} {t : Token} {ls : List Lexeme}
    (hreads : t.Reads before word rest) (hrest : Tile (before ++ word) rest ls) :
    Tile before (word ++ rest) (⟨t, String.utf8Len before, String.utf8Len (before ++ word)⟩ :: ls) := by
  have hbefore : before ++ [] = before := List.append_nil _
  have hgap : Token.Gap [] (word ++ rest) := .nil
  exact .lexeme hgap (by rwa [hbefore]) (by rw [hbefore]) (by rw [hbefore]) (by rwa [hbefore])

end Lexeme

namespace Token

theorem Gap.blanks {xs gap rest : List Char} (hxs : ∀ c ∈ xs, isBlank c = true)
    (h : Gap gap rest) : Gap (xs ++ gap) rest := by
  induction xs with
  | nil => exact h
  | cons c xs ih =>
    rw [List.forall_mem_cons] at hxs
    exact .blank hxs.1 (ih hxs.2)

/-- What the first piece of a text is: part of a gap, or it spells a token. -/
inductive Cut (before word rest : List Char) : Option Token → Prop where
  | gap (h : ∀ {gap tail : List Char}, rest = gap ++ tail → Gap gap tail → Gap (word ++ gap) tail) :
      Cut before word rest none
  | token {t : Token} (h : t.Reads before word rest) : Cut before word rest (some t)

section

variable {before xs rest : List Char} {c : Char} (h : Boundary before (c :: xs ++ rest))
  (hrun : Run (continues c) xs rest)
include h hrun

theorem Boundary.blank (hc : isBlank c = true) :
    Boundary (before ++ c :: xs) rest ∧ Cut before (c :: xs) rest (ofPiece c (c :: xs)) := by
  rw [Piece.continues_of_isBlank hc] at hrun
  rw [Piece.ofPiece_of_isBlank hc]
  have hall : ∀ d ∈ c :: xs, isBlank d = true := List.forall_mem_cons.2 ⟨hc, hrun.all⟩
  refine ⟨h.append_of_all (List.cons_ne_nil c xs) fun d hd => ?_, .gap fun _ => .blanks hall⟩
  have := kinds_of_isBlank (hall d hd)
  exact ⟨this.2.2.1, this.2.1⟩

theorem Boundary.comment (hc : c = '#') :
    Boundary (before ++ c :: xs) rest ∧ Cut before (c :: xs) rest (ofPiece c (c :: xs)) := by
  subst hc
  have hrun : Run (· != '\n') xs rest := hrun
  have hend : ∀ d ∈ rest.head?, d = '\n' := fun d hd => by simpa using hrun.stops d hd
  have hbody : '\n' ∉ xs := fun hmem => by simpa using hrun.all _ hmem
  have hstops (p : Char → Bool) (hp : p '\n' = false) : ∀ d ∈ rest.head?, p d = false :=
    fun d hd => hend d hd ▸ hp
  refine ⟨h.append (List.cons_ne_nil _ _) ?_ ?_, .gap ?_⟩
  · exact fun _ => hstops isWordChar (by decide)
  · exact fun _ _ _ => .inr (hstops isNumeral (by decide))
  · rintro gap tail rfl hgap
    exact .comment hbody hend hgap

theorem Boundary.number (hc : isNumeral c = true) :
    Boundary (before ++ c :: xs) rest ∧ Cut before (c :: xs) rest (ofPiece c (c :: xs)) := by
  rw [continues_numeral hc] at hrun
  have hall : ∀ d ∈ c :: xs, isNumeral d = true := List.forall_mem_cons.2 ⟨hc, hrun.all⟩
  have hnumber : NumberRun before (c :: xs) rest := by
    refine ⟨List.cons_ne_nil _ _, ⟨hall, hrun.stops⟩, fun d hd hdn => ?_⟩
    exact (h.numeral d hd hdn).resolve_right fun hstop => by cases hc.symm.trans (hstop c rfl)
  refine ⟨h.append (List.cons_ne_nil _ _) (fun hends => ?_) fun _ _ _ => .inr hrun.stops, ?_⟩
  · exact absurd hends (not_endsWord_of_all fun d hd => isAlpha_of_isNumeral (hall d hd))
  · rw [ofPiece_numeral hc]
    cases hv : readNumber (c :: xs) with
    | none => exact .token (.malformed hnumber hv)
    | some v => exact .token (.number hnumber hv)

theorem Boundary.letter (hc : c.isAlpha = true) :
    Boundary (before ++ c :: xs) rest ∧ Cut before (c :: xs) rest (ofPiece c (c :: xs)) := by
  rw [continues_letter hc] at hrun
  have hchar := isWordChar_of_isAlpha hc
  have hends : EndsWord (c :: xs) := ⟨[], c, xs, rfl, hc, hrun.all⟩
  have hword : WordRun before (c :: xs) rest := by
    refine ⟨fun d hd => ?_, List.cons_ne_nil _ _, ⟨?_, hrun.stops⟩, fun hends => ?_⟩
    · cases hd
      exact hc
    · exact List.forall_mem_cons.2 ⟨hchar, hrun.all⟩
    · cases hchar.symm.trans (h.word hends c rfl)
  refine ⟨h.append (List.cons_ne_nil _ _) (fun _ => hrun.stops) fun _ _ _ => .inl hends, ?_⟩
  rw [ofPiece_letter hc]
  cases ht : keyword? (String.ofList (c :: xs)) with
  | none => exact .token (.ident hword ht)
  | some t => exact .token (.keyword hword ht)

theorem Boundary.single (hc : Single c) : xs = [] ∧ Boundary (before ++ c :: xs) rest := by
  rw [continues_single hc] at hrun
  obtain rfl : xs = [] := List.eq_nil_iff_forall_not_mem.2 fun d hd => by cases hrun.all d hd
  refine ⟨rfl, h.append_of_all (List.cons_ne_nil _ _) fun d hd => ?_⟩
  rw [List.mem_singleton.1 hd]
  exact ⟨hc.letter, hc.numeral⟩

/-- After the first piece the text may be cut again. -/
theorem Boundary.piece :
    Boundary (before ++ c :: xs) rest ∧ Cut before (c :: xs) rest (ofPiece c (c :: xs)) := by
  rcases kinds c with hc | hc | hc | hc | hc | ⟨t, hc⟩ | hc
  · exact h.blank hrun hc
  · exact h.comment hrun hc
  · exact h.number hrun hc
  · exact h.letter hrun hc
  · obtain ⟨rfl, hnext⟩ := h.single hrun (single_of_mem_operators hc)
    exact ⟨hnext, ofPiece_operator hc [c] ▸ .token (.op hc)⟩
  · obtain ⟨rfl, hnext⟩ := h.single hrun (single_of_mem_punctuation hc)
    exact ⟨hnext, ofPiece_punctuation hc [c] ▸ .token (.punctuation hc)⟩
  · obtain ⟨rfl, hnext⟩ := h.single hrun hc.toSingle
    exact ⟨hnext, ofPiece_stray hc [c] ▸ .token (.stray hc)⟩

end

end Token

namespace Lexeme

open Token (Boundary)

/-- The lexemes of a text are a tiling of it. -/
theorem tile_ofPieces {before text : List Char} (h : Boundary before text) :
    Tile before text (ofPieces (String.utf8Len before) (Piece.split text)) := by
  induction text using Piece.split.induct generalizing before with
  | case1 =>
    rw [Piece.split]
    exact .done .nil
  | case2 c cs ih =>
    have hrun := Token.run_takeWhile (Token.continues c) cs
    have hcs : cs = cs.takeWhile (Token.continues c) ++ cs.dropWhile (Token.continues c) :=
      List.takeWhile_append_dropWhile.symm
    generalize cs.takeWhile (Token.continues c) = xs at hrun hcs
    generalize cs.dropWhile (Token.continues c) = rest at hrun hcs ih
    subst hcs
    obtain ⟨hnext, hcut⟩ := Boundary.piece h hrun
    have ih := ih hnext
    rw [String.utf8Len_append] at ih
    rw [Piece.split_run hrun, ← List.cons_append]
    generalize Token.ofPiece c (c :: xs) = token? at hcut
    cases hcut with
    | gap hgap =>
      rw [ofPieces_skip (p := ⟨c :: xs, none⟩) rfl]
      exact ih.skip hgap
    | @token t hreads =>
      rw [ofPieces_token (p := ⟨c :: xs, some t⟩) rfl]
      have := Tile.cons hreads ih
      rwa [String.utf8Len_append] at this

/-! ### Places -/

theorem reads_ne_nil {t : Token} {before word rest : List Char} (h : t.Reads before word rest) :
    word ≠ [] := by
  cases h with
  | number h | malformed h => exact h.ne_nil
  | keyword h | ident h => exact h.ne_nil
  | op | punctuation | stray => exact List.cons_ne_nil _ _

theorem utf8Len_pos {word : List Char} (h : word ≠ []) : 0 < String.utf8Len word := by
  obtain ⟨c, cs, rfl⟩ := List.exists_cons_of_ne_nil h
  exact Nat.add_pos_right _ (Char.utf8Size_pos c)

/-- A lexeme is spelled by the characters between its start and its stop. -/
structure Spelled (text : List Char) (l : Lexeme) (front word back : List Char) : Prop where
  text : text = front ++ (word ++ back)
  start : l.start = String.utf8Len front
  stop : l.stop = String.utf8Len (front ++ word)
  reads : l.token.Reads front word back

theorem Spelled.start_lt_stop {text front word back : List Char} {l : Lexeme}
    (h : l.Spelled text front word back) : l.start < l.stop := by
  rw [h.start, h.stop, String.utf8Len_append]
  exact Nat.lt_add_of_pos_right (utf8Len_pos (reads_ne_nil h.reads))

theorem Tile.le_start {before text : List Char} {ls : List Lexeme} (h : Tile before text ls)
    {l : Lexeme} (hl : l ∈ ls) : String.utf8Len before ≤ l.start := by
  induction h with
  | done => cases hl
  | @lexeme before gap word rest l' ls hgap hreads hstart hstop hrest ih =>
    rcases List.mem_cons.1 hl with rfl | hl
    · rw [hstart, String.utf8Len_append]
      exact Nat.le_add_right _ _
    · have := ih hl
      simp only [String.utf8Len_append] at this
      omega

theorem Tile.pairwise {before text : List Char} {ls : List Lexeme} (h : Tile before text ls) :
    ls.Pairwise fun l l' => l.stop ≤ l'.start := by
  induction h with
  | done => exact .nil
  | lexeme hgap hreads hstart hstop hrest ih =>
    exact .cons (fun l hl => hstop ▸ hrest.le_start hl) ih

theorem Tile.exists_spelled {before text : List Char} {ls : List Lexeme} (h : Tile before text ls)
    {l : Lexeme} (hl : l ∈ ls) : ∃ front word back, l.Spelled (before ++ text) front word back := by
  induction h with
  | done => cases hl
  | @lexeme before gap word rest l' ls hgap hreads hstart hstop hrest ih =>
    rcases List.mem_cons.1 hl with rfl | hl
    · exact ⟨before ++ gap, word, rest, (List.append_assoc ..).symm, hstart, hstop, hreads⟩
    · have := ih hl
      simpa only [List.append_assoc] using this

end Lexeme

/-! ### Words with spaces between them -/

namespace Token

theorem not_endsWord {text : List Char} (h : ∀ d ∈ text.getLast?, d = ' ') : ¬EndsWord text := by
  rintro ⟨front, c, cs, rfl, hc, hcs⟩
  have hlast : (c :: cs).getLast (List.cons_ne_nil c cs) = ' ' := by
    refine h _ ?_
    rw [List.getLast?_append_of_ne_nil _ (List.cons_ne_nil c cs)]
    exact List.getLast?_eq_getLast_of_ne_nil _
  have hchar : isWordChar ((c :: cs).getLast (List.cons_ne_nil c cs)) = true := by
    rcases List.mem_cons.1 (List.getLast_mem (List.cons_ne_nil c cs)) with hd | hd
    · rw [hd]
      exact isWordChar_of_isAlpha hc
    · exact hcs _ hd
  rw [hlast] at hchar
  exact absurd hchar (by decide)

/-- What spells a token alone does so between spaces. -/
theorem Reads.between_spaces {t : Token} {before word rest : List Char} (h : t.Reads [] word [])
    (hbefore : ∀ d ∈ before.getLast?, d = ' ') (hrest : ∀ d ∈ rest.head?, d = ' ') :
    t.Reads before word rest := by
  have run {p : Char → Bool} (hp : p ' ' = false) (h : Run p word []) : Run p word rest :=
    ⟨h.all, fun d hd => hrest d hd ▸ hp⟩
  have number (h : NumberRun [] word []) : NumberRun before word rest := by
    refine ⟨h.ne_nil, run (by decide) h.run, fun d hd hdn => ?_⟩
    rw [hbefore d hd] at hdn
    exact absurd hdn (by decide)
  have word (h : WordRun [] word []) : WordRun before word rest :=
    ⟨h.letter, h.ne_nil, run (by decide) h.run, not_endsWord hbefore⟩
  cases h with
  | number h hv => exact .number (number h) hv
  | malformed h hv => exact .malformed (number h) hv
  | keyword h ht => exact .keyword (word h) ht
  | ident h ht => exact .ident (word h) ht
  | op h => exact .op h
  | punctuation h => exact .punctuation h
  | stray h => exact .stray h

end Token

namespace Lexeme

/-- Words with spaces between them are a tiling. -/
theorem exists_tile_intercalate {spelled : List (Token × List Char)}
    (h : ∀ s ∈ spelled, s.1.Reads [] s.2 []) {before : List Char}
    (hbefore : ∀ d ∈ before.getLast?, d = ' ') :
    ∃ ls, Tile before ([' '].intercalate (spelled.map (·.2))) ls ∧
      ls.map (·.token) = spelled.map (·.1) := by
  induction spelled generalizing before with
  | nil => exact ⟨[], .done .nil, rfl⟩
  | cons s spelled ih =>
    obtain ⟨hs, h⟩ := List.forall_mem_cons.1 h
    cases spelled with
    | nil =>
      have hreads : s.1.Reads before s.2 [] := hs.between_spaces hbefore fun d hd => by cases hd
      have htile := Tile.cons hreads (.done .nil)
      exact ⟨_, by simpa [List.intercalate] using htile, rfl⟩
    | cons s' spelled =>
      have hspace : ∀ d ∈ (before ++ s.2 ++ [' ']).getLast?, d = ' ' := by simp
      obtain ⟨ls, htile, hmap⟩ := ih h hspace
      have hskip := htile.skip fun _ hgap => .blank (by decide) hgap
      have hreads : s.1.Reads before s.2
          ([' '] ++ [' '].intercalate ((s' :: spelled).map (·.2))) :=
        hs.between_spaces hbefore (by simp)
      have hwords : [' '].intercalate ((s :: s' :: spelled).map (·.2)) =
          s.2 ++ ([' '] ++ [' '].intercalate ((s' :: spelled).map (·.2))) := by
        simp [List.intercalate]
      rw [hwords]
      exact ⟨_, .cons hreads hskip, congrArg (s.1 :: ·) hmap⟩

end Lexeme

theorem isValid_utf8Len {text : String} {front back : List Char}
    (h : text.toList = front ++ back) :
    String.Pos.Raw.IsValid text ⟨String.utf8Len front⟩ := by
  rw [String.Pos.Raw.isValid_iff_exists_append]
  refine ⟨String.ofList front, String.ofList back, ?_, ?_⟩
  · rw [← String.ofList_append, ← h, String.ofList_toList]
  · rw [String.Pos.Raw.ext_iff]
    simp

/-- Lexing tiles the text. Its lexemes are the only ones that are spelled by pieces of the text with
nothing but gaps around them; they lie one behind the other on the boundaries of characters, none is
empty, and the last gap reaches the end. Any words that are written with spaces between them are read
again. -/
theorem lex_tile (text : String) :
    (∀ ls, Lexeme.Tile [] text.toList ls ↔ ls = lex text) ∧
    (lex text).Pairwise (fun l l' => l.stop ≤ l'.start) ∧
    (∀ l ∈ lex text, l.start < l.stop ∧ String.Pos.Raw.IsValid text ⟨l.start⟩ ∧
      String.Pos.Raw.IsValid text ⟨l.stop⟩ ∧
      ∃ front word back, l.Spelled text.toList front word back) ∧
    ∀ spelled : List (Token × List Char), (∀ s ∈ spelled, s.1.Reads [] s.2 []) →
      (lex (" ".intercalate (spelled.map fun s => String.ofList s.2))).map (·.token) =
        spelled.map (·.1) := by
  have htile : Lexeme.Tile [] text.toList (lex text) :=
    Lexeme.tile_ofPieces (Token.boundary_nil text.toList)
  refine ⟨fun ls => ⟨fun h => h.eq_ofPieces, fun h => h ▸ htile⟩, htile.pairwise, ?_, ?_⟩
  · intro l hl
    obtain ⟨front, word, back, h⟩ := htile.exists_spelled hl
    refine ⟨h.start_lt_stop, ?_, ?_, front, word, back, h⟩
    · rw [h.start]
      exact isValid_utf8Len h.text
    · rw [h.stop]
      exact isValid_utf8Len (h.text.trans (List.append_assoc ..).symm)
  · intro spelled hspelled
    have hempty : ∀ d ∈ ([] : List Char).getLast?, d = ' ' := fun d hd => by cases hd
    obtain ⟨ls, hls, hmap⟩ := Lexeme.exists_tile_intercalate hspelled hempty
    rw [← hmap, hls.eq_ofPieces, lex, String.toList_intercalate, List.map_map]
    simp [Function.comp_def]

/-- A digit that ends a word does not belong to the number behind it, so that number is not the whole
run of digits and points that it lies in. -/
theorem lex_number_behind_word :
    (lex "a1.5").map (fun l => (l.token, l.start, l.stop)) =
      [(.ident "a1", 0, 2), (.number 0.5, 2, 4)] ∧
    "a1.5".toList = ['a'] ++ ['1', '.', '5'] ∧ ['1', '.', '5'].all Token.isNumeral = true := by
  decide +kernel

/-- A piece that is the whole text spells its token. -/
theorem Token.reads_alone {c : Char} {cs : List Char} {t : Token}
    (hcs : cs.all (continues c)) (ht : ofPiece c (c :: cs) = some t) :
    t.Reads [] (c :: cs) [] := by
  have hrun : Run (continues c) cs [] := ⟨List.all_eq_true.1 hcs, fun d hd => by cases hd⟩
  have hcut := ((boundary_nil _).piece hrun).2
  rw [ht] at hcut
  cases hcut with
  | token h => exact h

/-- A keyword, a word that only begins like it, runs of digits and points, and other characters. -/
def Token.samples : List (Token × List Char) :=
  [(.kwDef, ['d', 'e', 'f']), (.ident "define", ['d', 'e', 'f', 'i', 'n', 'e']), (.openParen, ['(']),
    (.error, ['1', '.', '2', '.', '3']), (.number 1.5, ['1', '.', '5']), (.op '|', ['|']),
    (.error, ['_'])]

theorem Token.reads_samples : ∀ s ∈ samples, s.1.Reads [] s.2 [] := by
  simp only [samples, List.forall_mem_cons]
  refine ⟨?_, ?_, ?_, ?_, ?_, ?_, ?_, fun s hs => absurd hs List.not_mem_nil⟩ <;>
    exact reads_alone (by decide) (by decide +kernel)

theorem lex_tile_samples : (∀ s ∈ Token.samples, s.1.Reads [] s.2 []) ∧
    (lex (" ".intercalate (Token.samples.map fun s => String.ofList s.2))).map (·.token) =
      Token.samples.map (·.1) :=
  ⟨Token.reads_samples, (lex_tile "").2.2.2 Token.samples Token.reads_samples⟩

end ScalarLang
