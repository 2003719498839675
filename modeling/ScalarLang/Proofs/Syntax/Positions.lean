import ScalarLang.Proofs.Token.Tiling
import ScalarLang.Syntax.Program

/-! Where errors are said to be. An offset between two characters has a line, counted by the line
breaks before it, and a column, counted in bytes from the start of the line, and both together give
the offset back. Errors begin where tokens begin or at the end of the text, so each has a position
and all can be reported. -/

namespace ScalarLang

namespace Position

/-- The position behind a character. -/
def next (here : Position) (c : Char) : Position :=
  if c = '\n' then ⟨here.line + 1, 1⟩ else ⟨here.line, here.column + c.utf8Size⟩

/-- The order in which positions are read. -/
def Before (p q : Position) : Prop := p.line < q.line ∨ p.line = q.line ∧ p.column < q.column

/-- How many bytes a text has up to its `n`-th line break and with it: the offset at which the line
behind that begins. -/
def lineStart : (text : List Char) → (n : Nat) → Nat
  | _, 0 => 0
  | [], _ + 1 => 0
  | c :: cs, n + 1 => c.utf8Size + if c = '\n' then lineStart cs n else lineStart cs (n + 1)

/-- Offsets between characters and positions say the same. -/
structure Faithful (text : String) : Prop where
  /-- The line counts the line breaks before the offset, the column the bytes since the last. -/
  at_boundary {offset : Nat} : String.Pos.Raw.IsValid text ⟨offset⟩ →
    ∃ before after p, text = before ++ after ∧ offset = before.utf8ByteSize ∧
      ofOffset text offset = some p ∧ p.line - 1 = before.toList.count '\n' ∧ 1 ≤ p.line ∧
      lineStart text.toList (p.line - 1) + (p.column - 1) = offset ∧ 1 ≤ p.column
  increasing {offset offset' : Nat} {p p' : Position} : String.Pos.Raw.IsValid text ⟨offset⟩ →
    String.Pos.Raw.IsValid text ⟨offset'⟩ → offset < offset' → ofOffset text offset = some p →
    ofOffset text offset' = some p' → p.Before p'
  injective {offset offset' : Nat} : String.Pos.Raw.IsValid text ⟨offset⟩ →
    String.Pos.Raw.IsValid text ⟨offset'⟩ → ofOffset text offset = ofOffset text offset' →
    offset = offset'
  past_end {offset : Nat} : text.utf8ByteSize ≤ offset →
    ofOffset text offset = ofOffset text text.utf8ByteSize

/-! ### Walking -/

theorem walk_zero (here : Position) (text : List Char) : here.walk text 0 = some here := by
  cases text <;> rfl

/-- A step goes over a whole character. -/
theorem walk_cons (here : Position) (c : Char) (rest : List Char) (n : Nat) :
    here.walk (c :: rest) (c.utf8Size + n) = (here.next c).walk rest n := by
  obtain ⟨k, hk⟩ : ∃ k, c.utf8Size + n = k + 1 :=
    ⟨c.utf8Size + n - 1, by have := c.utf8Size_pos; omega⟩
  have hlt : ¬k + 1 < c.utf8Size := by omega
  have hsub : k + 1 - c.utf8Size = n := by omega
  rw [hk, walk, if_neg hlt, hsub]
  rfl

theorem walk_append (here : Position) (before after : List Char) (n : Nat) :
    here.walk (before ++ after) (String.utf8Len before + n) =
      (before.foldl next here).walk after n := by
  induction before generalizing here with
  | nil => rw [List.nil_append, String.utf8Len, Nat.zero_add, List.foldl_nil]
  | cons c before ih =>
    have hlen : String.utf8Len (c :: before) + n = c.utf8Size + (String.utf8Len before + n) := by
      rw [String.utf8Len]
      omega
    rw [List.cons_append, hlen, walk_cons, ih, List.foldl_cons]

/-- Behind the end there are no more characters to go over. -/
theorem walk_nil (here : Position) (n : Nat) : here.walk [] n = some here := by
  cases n <;> rfl

theorem walk_past (here : Position) (text : List Char) (n : Nat) :
    here.walk text (String.utf8Len text + n) = some (text.foldl next here) := by
  have h := walk_append here text [] n
  rwa [List.append_nil, walk_nil] at h

/-! ### Lines and columns -/

theorem line_foldl (here : Position) (before : List Char) :
    (before.foldl next here).line = here.line + before.count '\n' := by
  induction before generalizing here with
  | nil => rfl
  | cons c before ih =>
    rw [List.foldl_cons, ih, List.count_cons, next]
    by_cases hc : c = '\n'
    · simp only [hc, if_true, beq_self_eq_true]
      omega
    · simp [hc]

/-- The column counts on from the start, or from the last line break. -/
theorem column_foldl (here : Position) (before after : List Char) :
    lineStart (before ++ after) (before.count '\n') + (before.foldl next here).column =
      String.utf8Len before + if before.count '\n' = 0 then here.column else 1 := by
  induction before generalizing here with
  | nil => simp [lineStart, String.utf8Len]
  | cons c before ih =>
    have ih := ih (here.next c)
    rw [List.foldl_cons, List.cons_append, List.count_cons, String.utf8Len]
    by_cases hc : c = '\n'
    · have hcolumn : (here.next c).column = 1 := by rw [next, if_pos hc]
      rw [hcolumn, ite_self] at ih
      have hbreak : (c == '\n') = true := by simp [hc]
      rw [if_pos hbreak, lineStart, if_pos hc, if_neg (Nat.succ_ne_zero _)]
      omega
    · have hcolumn : (here.next c).column = here.column + c.utf8Size := by rw [next, if_neg hc]
      have hbreak : ¬(c == '\n') = true := by simp [hc]
      rw [if_neg hbreak, Nat.add_zero]
      rw [hcolumn] at ih
      cases hn : before.count '\n' with
      | zero =>
        rw [hn, lineStart, if_pos rfl] at ih
        rw [lineStart, if_pos rfl]
        omega
      | succ n =>
        rw [hn, if_neg (Nat.succ_ne_zero n)] at ih
        rw [lineStart, if_neg hc, if_neg (Nat.succ_ne_zero n)]
        omega

theorem column_pos (here : Position) (before : List Char) (h : 1 ≤ here.column) :
    1 ≤ (before.foldl next here).column := by
  induction before generalizing here with
  | nil => exact h
  | cons c before ih =>
    apply ih
    unfold next
    split
    · exact Nat.le_refl 1
    · exact Nat.le_add_right_of_le h

theorem Before.trans {p q r : Position} (h : p.Before q) (h' : q.Before r) : p.Before r := by
  unfold Before at *
  omega

theorem Before.ne {p q : Position} (h : p.Before q) : p ≠ q := by
  rintro rfl
  unfold Before at h
  omega

theorem before_next (here : Position) (c : Char) : here.Before (here.next c) := by
  have hpos := c.utf8Size_pos
  unfold Before next
  split
  · left
    exact Nat.lt_succ_self _
  · right
    exact ⟨rfl, Nat.lt_add_of_pos_right hpos⟩

theorem before_foldl (here : Position) {between : List Char} (h : between ≠ []) :
    here.Before (between.foldl next here) := by
  induction between generalizing here with
  | nil => exact absurd rfl h
  | cons c between ih =>
    rw [List.foldl_cons]
    by_cases hrest : between = []
    · rw [hrest]
      exact before_next here c
    · exact (before_next here c).trans (ih (here.next c) hrest)

/-! ### Offsets -/

variable {text : String} {offset offset' : Nat}

theorem exists_split (h : String.Pos.Raw.IsValid text ⟨offset⟩) :
    ∃ before after : String, text = before ++ after ∧ offset = before.utf8ByteSize := by
  obtain ⟨before, after, htext, hoffset⟩ := String.Pos.Raw.isValid_iff_exists_append.1 h
  exact ⟨before, after, htext, congrArg String.Pos.Raw.byteIdx hoffset⟩

theorem ofOffset_append (before after : String) :
    ofOffset (before ++ after) before.utf8ByteSize = some (before.toList.foldl next ⟨1, 1⟩) := by
  rw [ofOffset, String.toList_append, ← String.utf8Len_toList, ← Nat.add_zero (String.utf8Len _),
    walk_append, walk_zero]

theorem exists_ofOffset (h : String.Pos.Raw.IsValid text ⟨offset⟩) :
    ∃ p, ofOffset text offset = some p := by
  obtain ⟨before, after, rfl, rfl⟩ := exists_split h
  exact ⟨_, ofOffset_append before after⟩

theorem ofOffset_before {p p' : Position} (h : String.Pos.Raw.IsValid text ⟨offset⟩)
    (h' : String.Pos.Raw.IsValid text ⟨offset'⟩) (hlt : offset < offset')
    (hp : ofOffset text offset = some p) (hp' : ofOffset text offset' = some p') : p.Before p' := by
  obtain ⟨before, after, rfl, rfl⟩ := exists_split h
  obtain ⟨before', after', htext, rfl⟩ := exists_split h'
  rw [ofOffset_append, Option.some.injEq] at hp
  rw [htext, ofOffset_append, Option.some.injEq] at hp'
  have hlist : before.toList ++ after.toList = before'.toList ++ after'.toList := by
    rw [← String.toList_append, htext, String.toList_append]
  rw [← String.utf8Len_toList, ← String.utf8Len_toList] at hlt
  rcases List.append_eq_append_iff.1 hlist with ⟨between, hbefore, -⟩ | ⟨between, hbefore, -⟩
  · rw [hbefore, String.utf8Len_append] at hlt
    have hne : between ≠ [] := by
      rintro rfl
      exact absurd hlt (by simp [String.utf8Len])
    rw [hbefore, List.foldl_append, hp] at hp'
    rw [← hp']
    exact before_foldl p hne
  · rw [hbefore, String.utf8Len_append] at hlt
    omega

theorem faithful (text : String) : Faithful text where
  at_boundary {offset} h := by
    obtain ⟨before, after, rfl, rfl⟩ := exists_split h
    refine ⟨before, after, _, rfl, rfl, ofOffset_append before after, ?_⟩
    have hline := line_foldl ⟨1, 1⟩ before.toList
    have hcolumn := column_foldl ⟨1, 1⟩ before.toList after.toList
    have hpos := column_pos ⟨1, 1⟩ before.toList (Nat.le_refl 1)
    rw [ite_self, String.utf8Len_toList, ← String.toList_append] at hcolumn
    dsimp only at hline hcolumn
    have hcount : (before.toList.foldl next ⟨1, 1⟩).line - 1 = before.toList.count '\n' := by omega
    refine ⟨hcount, by omega, ?_, hpos⟩
    rw [hcount]
    omega
  increasing h h' hlt hp hp' := ofOffset_before h h' hlt hp hp'
  injective {offset offset'} h h' he := by
    obtain ⟨p, hp⟩ := exists_ofOffset h
    have hp' := he.symm.trans hp
    rcases Nat.lt_trichotomy offset offset' with hlt | rfl | hlt
    · exact absurd rfl (ofOffset_before h h' hlt hp hp').ne
    · rfl
    · exact absurd rfl (ofOffset_before h' h hlt hp' hp).ne
  past_end {offset} h := by
    obtain ⟨n, rfl⟩ := Nat.exists_eq_add_of_le h
    have hend := walk_past ⟨1, 1⟩ text.toList 0
    have hpast := walk_past ⟨1, 1⟩ text.toList n
    rw [Nat.add_zero, String.utf8Len_toList] at hend
    rw [String.utf8Len_toList] at hpast
    exact hpast.trans hend.symm

end Position

/-! ### Errors -/

theorem isValid_start_of_mem_lex {text : String} {l : Lexeme} (h : l ∈ lex text) :
    String.Pos.Raw.IsValid text ⟨l.start⟩ := by
  have htile : Lexeme.Tile [] text.toList (lex text) :=
    Lexeme.tile_ofPieces (Token.boundary_nil text.toList)
  obtain ⟨front, word, back, hspelled⟩ := htile.exists_spelled h
  rw [hspelled.start]
  exact isValid_utf8Len hspelled.text

/-- An error is at the start of a token or at the end of the text. -/
theorem isValid_start_of_mem_errors {ops : Operators} {text : String} {d : Diagnostic}
    (h : d ∈ (readProgram ops text).source.errors) : String.Pos.Raw.IsValid text ⟨d.start⟩ := by
  obtain ⟨e, -, rfl⟩ := List.mem_map.1 h
  unfold SyntaxError.locate
  split
  · next lexeme rest hdrop =>
    have hmem : lexeme ∈ (lex text).drop ((lex text).length - e.rest.length) := by
      rw [hdrop]
      exact List.mem_cons_self ..
    exact isValid_start_of_mem_lex (List.mem_of_mem_drop hmem)
  · have := isValid_utf8Len (List.append_nil text.toList).symm
    rwa [String.utf8Len_toList] at this

theorem byPosition_eq {text : String} {d : Diagnostic} {p : Position}
    (hp : Position.ofOffset text d.start = some p) :
    d.byPosition text = some s!"ERROR: {d.message} at {p.line}:{p.column}\n" := by
  have hline : "ERROR: " ++ d.message ++ " at " ++
      (toString p.line ++ ":" ++ toString p.column) ++ "\n" =
      "ERROR: " ++ d.message ++ " at " ++ toString p.line ++ ":" ++ toString p.column ++ "\n" := by
    simp only [String.append_assoc]
  rw [Diagnostic.byPosition, hp]
  exact congrArg some hline

/-- Errors between characters have their lines in the report. -/
theorem exists_places {text : String} {errors : List Diagnostic}
    (h : ∀ d ∈ errors, String.Pos.Raw.IsValid text ⟨d.start⟩) :
    ∃ places, List.Forall₂ (fun d p => Position.ofOffset text d.start = some p) errors places ∧
      errors.mapM (Diagnostic.byPosition text) = some (List.zipWith (fun d p =>
        s!"ERROR: {d.message} at {p.line}:{p.column}\n") errors places) := by
  induction errors with
  | nil => exact ⟨[], .nil, rfl⟩
  | cons d errors ih =>
    obtain ⟨hd, h⟩ := List.forall_mem_cons.1 h
    obtain ⟨p, hp⟩ := Position.exists_ofOffset hd
    obtain ⟨places, hplaces, hlines⟩ := ih h
    refine ⟨p :: places, .cons hp hplaces, ?_⟩
    rw [List.mapM_cons, byPosition_eq hp, hlines]
    rfl

/-- Every error of a text that was read lies between characters, so the report gives each of them
its line and column; and of any text the lines and columns of all places between characters are
faithful. -/
theorem readProgram_positions (ops : Operators) (text : String) :
    (∀ d ∈ (readProgram ops text).source.errors,
      String.Pos.Raw.IsValid text ⟨d.start⟩ ∧ d.start ≤ text.utf8ByteSize) ∧
    (∃ places, List.Forall₂ (fun d p => Position.ofOffset text d.start = some p)
        (readProgram ops text).source.errors places ∧
      (readProgram ops text).source.report = some (String.join (List.zipWith (fun d p =>
        s!"ERROR: {d.message} at {p.line}:{p.column}\n")
          (readProgram ops text).source.errors places))) ∧
    Position.Faithful text := by
  have hvalid (d : Diagnostic) (hd : d ∈ (readProgram ops text).source.errors) :
      String.Pos.Raw.IsValid text ⟨d.start⟩ := isValid_start_of_mem_errors hd
  refine ⟨fun d hd => ⟨hvalid d hd, (hvalid d hd).le_rawEndPos⟩, ?_, Position.faithful text⟩
  obtain ⟨places, hplaces, hlines⟩ := exists_places hvalid
  refine ⟨places, hplaces, ?_⟩
  rw [Source.report, show (readProgram ops text).source.text = text from rfl, hlines]
  rfl

/-- A text with a character of two bytes and errors on two lines, the last at its end. -/
def broken : String := "λ;\n1 +\n);2*"

theorem readProgram_positions_broken :
    (readProgram .standard broken).source.errors.map (·.start) = [0, 8, 12] ∧
    String.Pos.Raw.IsValid broken ⟨8⟩ ∧ String.Pos.Raw.IsValid broken ⟨12⟩ ∧
    Position.ofOffset broken 8 = some ⟨3, 1⟩ ∧ Position.ofOffset broken 12 = some ⟨3, 5⟩ ∧
    Position.Before ⟨3, 1⟩ ⟨3, 5⟩ ∧ Position.ofOffset broken 99 = some ⟨3, 5⟩ := by
  have hstarts : (readProgram .standard broken).source.errors.map (·.start) = [0, 8, 12] := by
    decide +kernel
  obtain ⟨herrors, -, hfaithful⟩ := readProgram_positions .standard broken
  have hvalid {n : Nat} (hn : n ∈ [0, 8, 12]) : String.Pos.Raw.IsValid broken ⟨n⟩ := by
    rw [← hstarts] at hn
    obtain ⟨d, hd, rfl⟩ := List.mem_map.1 hn
    exact (herrors d hd).1
  have hclose : Position.ofOffset broken 8 = some ⟨3, 1⟩ := by decide +kernel
  have hend : Position.ofOffset broken 12 = some ⟨3, 5⟩ := by decide +kernel
  have hsize : broken.utf8ByteSize = 12 := by decide +kernel
  refine ⟨hstarts, hvalid (by simp), hvalid (by simp), hclose, hend, ?_, ?_⟩
  · exact hfaithful.increasing (hvalid (by simp)) (hvalid (by simp)) (by decide) hclose hend
  · rw [hfaithful.past_end (by rw [hsize]; decide), hsize, hend]

end ScalarLang
