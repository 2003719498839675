import Mathlib.Data.List.TakeWhile
import Mathlib.Data.String.Basic
import ScalarLang.Token.Lexer

/-! How a text is cut into pieces. A line break ends the piece before it or belongs to a blank, so
texts that are joined by one keep their tokens. No piece is empty, so each token begins after the
one before it and before the end of the text. -/

namespace ScalarLang

namespace Piece

/-- The tokens of a text without their places. -/
def tokens (text : List Char) : List Token := (split text).filterMap (·.token?)

theorem tokens_nil : tokens [] = [] := by
  rw [tokens, split, List.filterMap_nil]

theorem tokens_cons (c : Char) (cs : List Char) :
    tokens (c :: cs) = (Token.ofPiece c (c :: cs.takeWhile (Token.continues c))).toList ++
      tokens (cs.dropWhile (Token.continues c)) := by
  rw [tokens, split, List.filterMap_cons]
  cases Token.ofPiece c (c :: cs.takeWhile (Token.continues c)) <;> rfl

/-! ### Joined texts -/

theorem continues_of_isBlank {c : Char} (hc : Token.isBlank c = true) :
    Token.continues c = Token.isBlank := by
  rw [Token.continues, if_pos hc]

theorem ofPiece_of_isBlank {c : Char} (hc : Token.isBlank c = true) (text : List Char) :
    Token.ofPiece c text = none := by
  rw [Token.ofPiece, hc, Bool.true_or, if_pos rfl]

/-- Of all pieces only blanks go over the end of a line. -/
theorem isBlank_of_continues_newline {c : Char} (h : Token.continues c '\n' = true) :
    Token.isBlank c = true := by
  unfold Token.continues at h
  split at h
  · assumption
  · split at h
    · simp at h
    · split at h
      · exact absurd h (by decide)
      · split at h
        · exact absurd h (by decide)
        · exact absurd h (by decide)

theorem tokens_blank {c : Char} (hc : Token.isBlank c = true) (cs : List Char) :
    tokens (c :: cs) = tokens (cs.dropWhile Token.isBlank) := by
  rw [tokens_cons, ofPiece_of_isBlank hc, continues_of_isBlank hc, Option.toList_none,
    List.nil_append]

theorem tokens_dropWhile_isBlank (cs : List Char) :
    tokens (cs.dropWhile Token.isBlank) = tokens cs := by
  cases cs with
  | nil => rfl
  | cons c cs =>
    by_cases hc : Token.isBlank c = true
    · rw [List.dropWhile_cons_of_pos hc, tokens_blank hc]
    · rw [List.dropWhile_cons_of_neg hc]

theorem tokens_newline (cs : List Char) : tokens ('\n' :: cs) = tokens cs := by
  rw [tokens_blank (by decide), tokens_dropWhile_isBlank]

theorem tokens_append_newline (cs ds : List Char) :
    tokens (cs ++ '\n' :: ds) = tokens cs ++ tokens ds := by
  induction cs using split.induct with
  | case1 => rw [List.nil_append, tokens_newline, tokens_nil, List.nil_append]
  | case2 c cs ih =>
    rw [List.cons_append, tokens_cons, tokens_cons c cs]
    by_cases hrest : cs.dropWhile (Token.continues c) = []
    · -- the piece reaches the end of the first text
      have hall : cs.takeWhile (Token.continues c) = cs :=
        List.takeWhile_eq_self_iff.2 (List.dropWhile_eq_nil_iff.1 hrest)
      by_cases hnewline : Token.continues c '\n' = true
      · have hc := isBlank_of_continues_newline hnewline
        rw [ofPiece_of_isBlank hc, ofPiece_of_isBlank hc, List.dropWhile_append, hrest,
          continues_of_isBlank hc, List.dropWhile_cons_of_pos (by decide), tokens_nil]
        simp [tokens_dropWhile_isBlank]
      · rw [List.takeWhile_append, List.dropWhile_append, hall, hrest,
          List.takeWhile_cons_of_neg hnewline, List.dropWhile_cons_of_neg hnewline, tokens_nil]
        simp [tokens_newline]
    · have hpart : (cs.takeWhile (Token.continues c)).length ≠ cs.length := by
        intro hlength
        have hall := (List.takeWhile_prefix (Token.continues c)).eq_of_length hlength
        exact hrest (List.dropWhile_eq_nil_iff.2 (List.takeWhile_eq_self_iff.1 hall))
      rw [List.takeWhile_append, if_neg hpart, List.dropWhile_append,
        if_neg (by simpa using hrest), ih, List.append_assoc]

end Piece

theorem Lexeme.map_token_ofPieces (start : Nat) (ps : List Piece) :
    (ofPieces start ps).map (·.token) = ps.filterMap (·.token?) := by
  fun_induction ofPieces start ps with
  | case1 => rfl
  | case2 start p ps stop token htoken ih => rw [List.map_cons, ih, List.filterMap_cons, htoken]
  | case3 start p ps stop htoken ih => rw [ih, List.filterMap_cons, htoken]

theorem map_token_lex (text : String) : (lex text).map (·.token) = Piece.tokens text.toList :=
  Lexeme.map_token_ofPieces 0 _

/-- A semicolon on a line of its own is one token between those of the two texts. -/
theorem map_token_lex_append (first second : String) :
    (lex (first ++ "\n;\n" ++ second)).map (·.token) =
      (lex first).map (·.token) ++ .semi :: (lex second).map (·.token) := by
  have hchars : (first ++ "\n;\n" ++ second).toList =
      first.toList ++ '\n' :: ([';'] ++ '\n' :: second.toList) := by
    simp
  have hsemi : Piece.tokens [';'] = [.semi] := by decide +kernel
  rw [map_token_lex, hchars, Piece.tokens_append_newline, Piece.tokens_append_newline, hsemi,
    map_token_lex, map_token_lex, List.singleton_append]

/-! ### Places -/

namespace Piece

theorem size_eq (p : Piece) : p.size = String.utf8Len p.text := by
  unfold size
  induction p.text with
  | nil => rfl
  | cons c cs ih => rw [List.foldr_cons, ih, String.utf8Len, Nat.add_comm]

theorem size_pos_of_mem_split {text : List Char} {p : Piece} (h : p ∈ split text) :
    0 < p.size := by
  fun_induction split text with
  | case1 => exact absurd h List.not_mem_nil
  | case2 c cs text ih =>
    rcases List.mem_cons.1 h with rfl | h
    · exact Nat.add_pos_left (Char.utf8Size_pos c) _
    · exact ih h

/-- Nothing of a text is lost when it is cut. -/
theorem flatMap_text_split (text : List Char) : (split text).flatMap (·.text) = text := by
  fun_induction split text with
  | case1 => rfl
  | case2 c cs text ih =>
    rw [List.flatMap_cons, ih]
    simp only [text, List.cons_append, List.takeWhile_append_dropWhile]

end Piece

theorem Lexeme.start_mem_ofPieces {start : Nat} {ps : List Piece} (hps : ∀ p ∈ ps, 0 < p.size)
    {l : Lexeme} (h : l ∈ ofPieces start ps) :
    start ≤ l.start ∧ l.start < start + String.utf8Len (ps.flatMap (·.text)) := by
  fun_induction ofPieces start ps with
  | case1 => exact absurd h List.not_mem_nil
  | case2 start p ps stop token htoken ih =>
    obtain ⟨hp, hps⟩ := List.forall_mem_cons.1 hps
    rw [List.flatMap_cons, String.utf8Len_append, ← Piece.size_eq]
    rcases List.mem_cons.1 h with rfl | h
    · exact ⟨Nat.le_refl _, by simp only; omega⟩
    · have := ih hps h
      omega
  | case3 start p ps stop htoken ih =>
    obtain ⟨-, hps⟩ := List.forall_mem_cons.1 hps
    have := ih hps h
    rw [List.flatMap_cons, String.utf8Len_append, ← Piece.size_eq]
    omega

theorem Lexeme.pairwise_ofPieces {start : Nat} {ps : List Piece} (hps : ∀ p ∈ ps, 0 < p.size) :
    (ofPieces start ps).Pairwise (·.start < ·.start) := by
  fun_induction ofPieces start ps with
  | case1 => exact .nil
  | case2 start p ps stop token htoken ih =>
    obtain ⟨hp, hps⟩ := List.forall_mem_cons.1 hps
    refine .cons (fun l hl => ?_) (ih hps)
    have := (start_mem_ofPieces hps hl).1
    simp only
    omega
  | case3 start p ps stop htoken ih => exact ih (List.forall_mem_cons.1 hps).2

theorem start_lt_of_mem_lex {text : String} {l : Lexeme} (h : l ∈ lex text) :
    l.start < text.utf8ByteSize := by
  have := (Lexeme.start_mem_ofPieces (fun _ => Piece.size_pos_of_mem_split) h).2
  rwa [Piece.flatMap_text_split, String.utf8Len_toList, Nat.zero_add] at this

theorem pairwise_lex (text : String) : (lex text).Pairwise (·.start < ·.start) :=
  Lexeme.pairwise_ofPieces fun _ => Piece.size_pos_of_mem_split

end ScalarLang
