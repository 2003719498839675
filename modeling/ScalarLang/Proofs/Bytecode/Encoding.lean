import Mathlib.Data.List.Basic
import ScalarLang.Bytecode.Lower

/-! Code as bytes. An instruction that was written is the one that is read back, and lines of code
are found at the offsets that the sizes of the lines before them give. -/

namespace ScalarLang.Bytecode

/-! ### Words -/

/-- The two bytes of a word make up the word. -/
theorem combine_wordBytes (w : UInt16) :
    ((w >>> 8).toUInt8.toUInt16 <<< 8) ||| w.toUInt8.toUInt16 = w := by
  have hw := w.toNat_lt
  have hhigh : (w >>> 8).toUInt8.toNat = w.toNat / 2 ^ 8 := by
    simp [Nat.shiftRight_eq_div_pow]
    omega
  have hshift : (w.toNat / 2 ^ 8) <<< 8 % 2 ^ 16 = (w.toNat / 2 ^ 8) <<< 8 := by
    rw [Nat.shiftLeft_eq]
    omega
  apply UInt16.toNat_inj.1
  rw [UInt16.toNat_or, UInt16.toNat_shiftLeft, UInt8.toNat_toUInt16, UInt8.toNat_toUInt16, hhigh,
    UInt16.toNat_toUInt8]
  change (w.toNat / 2 ^ 8) <<< 8 % 2 ^ 16 ||| w.toNat % 2 ^ 8 = w.toNat
  rw [hshift, ← Nat.shiftLeft_add_eq_or_of_lt (Nat.mod_lt _ (by decide)), Nat.shiftLeft_eq,
    Nat.div_add_mod']

theorem wordAt?_eq {code : Array UInt8} {before after : List UInt8} {w : UInt16}
    (h : code.toList = before ++ wordBytes w ++ after) :
    wordAt? code before.length = some w := by
  have hhigh : code[before.length]? = some (w >>> 8).toUInt8 := by
    simp [← Array.getElem?_toList, h, wordBytes]
  have hlow : code[before.length + 1]? = some w.toUInt8 := by
    simp [← Array.getElem?_toList, h, wordBytes]
  simp only [wordAt?, hhigh, hlow, Option.bind_eq_bind, Option.bind_some, Option.pure_def,
    combine_wordBytes]

theorem wordAt?_operand {code : Array UInt8} {before after : List UInt8} {ws : List UInt16}
    (h : code.toList = before ++ ws.flatMap wordBytes ++ after) {k : Nat} {w : UInt16}
    (hk : ws[k]? = some w) : wordAt? code (before.length + 2 * k) = some w := by
  induction k generalizing before ws with
  | zero =>
    cases ws with
    | nil => cases hk
    | cons v ws =>
      cases hk
      have h : code.toList = before ++ wordBytes w ++ (ws.flatMap wordBytes ++ after) := by
        simpa using h
      exact wordAt?_eq h
  | succ k ih =>
    cases ws with
    | nil => cases hk
    | cons v ws =>
      have h : code.toList = (before ++ wordBytes v) ++ ws.flatMap wordBytes ++ after := by
        simpa using h
      have hlength : before.length + 2 * (k + 1) = (before ++ wordBytes v).length + 2 * k := by
        simp only [List.length_append, wordBytes, List.length_cons, List.length_nil]
        omega
      rw [hlength]
      exact ih h hk

/-! ### Instructions -/

theorem length_bytes (i : Instr) : i.bytes.length = i.size := by
  rcases i with _ | _ | ⟨_ | _⟩ | ⟨_ | _⟩ | _ | _ | _ | _ <;> rfl

/-- The machine reads the operands that the instruction has. -/
theorem readInstr?_eq {code : Array UInt8} {offset : Nat} {i : Instr}
    (h : ∀ {k w}, i.operands[k]? = some w → wordAt? code (offset + 1 + 2 * k) = some w) :
    readInstr? code offset i.opcode = some i := by
  have h₀ {w : UInt16} (hw : i.operands[0]? = some w) : wordAt? code (offset + 1) = some w := h hw
  have h₁ {w : UInt16} (hw : i.operands[1]? = some w) : wordAt? code (offset + 3) = some w := h hw
  have h₂ {w : UInt16} (hw : i.operands[2]? = some w) : wordAt? code (offset + 5) = some w := h hw
  rcases i with _ | _ | ⟨_ | _⟩ | ⟨_ | _⟩ | _ | _ | _ | _
  all_goals simp_all [readInstr?, Instr.opcode, Instr.operands]

/-- The instruction that was written at an offset is read there. -/
theorem fetch_eq {code : Array UInt8} {before after : List UInt8} {i : Instr}
    (h : code.toList = before ++ i.bytes ++ after) : fetch code before.length = .instr i := by
  have hbyte : code[before.length]? = some i.opcode.toByte := by
    simp [← Array.getElem?_toList, h, Instr.bytes, instrBytes]
  have hwords : code.toList =
      (before ++ [i.opcode.toByte]) ++ i.operands.flatMap wordBytes ++ after := by
    simpa [Instr.bytes, instrBytes] using h
  have hread : readInstr? code before.length i.opcode = some i := by
    refine readInstr?_eq fun hk => ?_
    simpa using wordAt?_operand hwords hk
  simp only [fetch, hbyte, Opcode.ofByte?_toByte, hread]

/-! ### Lines -/

/-- The instruction of a line, where targets are replaced by offsets. -/
def Line.instr? (offset? : Target → Option Nat) : Line → Option Instr
  | .instr i => some i
  | .label .. => none
  | .jmp t => (offset? t).map fun offset => .jmp offset.toUInt16
  | .jmpIfFalse cond t => (offset? t).map fun offset => .jmpIfFalse cond offset.toUInt16

def Line.bytes (offset? : Target → Option Nat) (l : Line) : List UInt8 :=
  ((l.instr? offset?).map Instr.bytes).getD []

/-- Chunk `c'` is `c` with more code. -/
structure Chunk.Appends (c c' : Chunk) (bytes : List UInt8) : Prop where
  code : c'.code.toList = c.code.toList ++ bytes
  constants : c'.constants = c.constants
  imports : c'.imports = c.imports
  registers : c'.registers = c.registers

theorem Chunk.Appends.trans {c c₁ c₂ : Chunk} {xs ys : List UInt8} (h₁ : c.Appends c₁ xs)
    (h₂ : c₁.Appends c₂ ys) : c.Appends c₂ (xs ++ ys) :=
  ⟨by rw [h₂.code, h₁.code, List.append_assoc], h₂.constants.trans h₁.constants,
    h₂.imports.trans h₁.imports, h₂.registers.trans h₁.registers⟩

theorem Chunk.appends_writeBytes (c : Chunk) (bytes : List UInt8) :
    c.Appends (c.writeBytes bytes) bytes := by
  induction bytes generalizing c with
  | nil => exact ⟨(List.append_nil _).symm, rfl, rfl, rfl⟩
  | cons byte bytes ih =>
    have hbyte : c.Appends (c.writeByte byte) [byte] := ⟨Array.toList_push, rfl, rfl, rfl⟩
    exact hbyte.trans (ih (c.writeByte byte))

theorem Chunk.appends_annotate (c : Chunk) (note : String) : c.Appends (c.annotate note) [] := by
  unfold Chunk.annotate
  split
  · split <;> exact ⟨(List.append_nil _).symm, rfl, rfl, rfl⟩
  · exact ⟨(List.append_nil _).symm, rfl, rfl, rfl⟩

/-- The target of the line is known, if it has one. -/
def Line.Resolved (offset? : Target → Option Nat) : Line → Prop
  | .jmp t | .jmpIfFalse _ t => (offset? t).isSome
  | _ => True

theorem Line.length_bytes {offset? : Target → Option Nat} {l : Line} (h : l.Resolved offset?) :
    (l.bytes offset?).length = l.size := by
  cases l with
  | instr i => exact Bytecode.length_bytes i
  | label place note => rfl
  | jmp t =>
    obtain ⟨offset, ho⟩ := Option.isSome_iff_exists.1 h
    simp only [Line.bytes, Line.instr?, ho, Option.map_some, Option.getD_some,
      Bytecode.length_bytes]
    rfl
  | jmpIfFalse cond t =>
    obtain ⟨offset, ho⟩ := Option.isSome_iff_exists.1 h
    simp only [Line.bytes, Line.instr?, ho, Option.map_some, Option.getD_some,
      Bytecode.length_bytes]
    rfl

theorem writeLine_eq_ok {offset? : Target → Option Nat} {c c' : Chunk} {l : Line}
    (h : writeLine offset? c l = .ok c') : l.Resolved offset? ∧ c.Appends c' (l.bytes offset?) := by
  cases l with
  | instr i =>
    cases h
    exact ⟨trivial, c.appends_writeBytes i.bytes⟩
  | label place note =>
    cases h
    exact ⟨trivial, c.appends_annotate note⟩
  | jmp t =>
    rw [writeLine] at h
    split at h
    · next offset ho =>
      cases h
      simp only [Line.Resolved, Line.bytes, Line.instr?, ho]
      exact ⟨rfl, c.appends_writeBytes _⟩
    · cases h
  | jmpIfFalse cond t =>
    rw [writeLine] at h
    split at h
    · next offset ho =>
      cases h
      simp only [Line.Resolved, Line.bytes, Line.instr?, ho]
      exact ⟨rfl, c.appends_writeBytes _⟩
    · cases h

theorem writeLines_eq_ok {offset? : Target → Option Nat} {c c' : Chunk} {lines : List Line}
    (h : lines.foldlM (writeLine offset?) c = .ok c') :
    (∀ l ∈ lines, l.Resolved offset?) ∧ c.Appends c' (lines.flatMap (Line.bytes offset?)) := by
  induction lines generalizing c with
  | nil =>
    cases h
    exact ⟨nofun, (List.append_nil _).symm, rfl, rfl, rfl⟩
  | cons l lines ih =>
    rw [List.foldlM_cons] at h
    cases hl : writeLine offset? c l with
    | error e => simp [hl, bind, Except.bind] at h
    | ok c₁ =>
      rw [hl] at h
      obtain ⟨hr, ha⟩ := writeLine_eq_ok hl
      obtain ⟨hr', ha'⟩ := ih h
      exact ⟨List.forall_mem_cons.2 ⟨hr, hr'⟩, ha.trans ha'⟩

/-! ### Places -/

theorem codeSize_cons (l : Line) (xs : List Line) : codeSize (l :: xs) = l.size + codeSize xs := rfl

theorem codeSize_append (xs ys : List Line) : codeSize (xs ++ ys) = codeSize xs + codeSize ys := by
  induction xs with
  | nil => exact (Nat.zero_add _).symm
  | cons l xs ih => rw [List.cons_append, codeSize_cons, codeSize_cons, ih, Nat.add_assoc]

theorem length_flatMap_bytes {offset? : Target → Option Nat} {lines : List Line}
    (h : ∀ l ∈ lines, l.Resolved offset?) :
    (lines.flatMap (Line.bytes offset?)).length = codeSize lines := by
  induction lines with
  | nil => rfl
  | cons l lines ih =>
    rw [List.forall_mem_cons] at h
    rw [List.flatMap_cons, List.length_append, Line.length_bytes h.1, ih h.2, codeSize_cons]

/-- A line is read at the offset that the lines before it take. -/
theorem fetch_line {offset? : Target → Option Nat} {code : Array UInt8}
    {lines before after : List Line} {l : Line} {i : Instr}
    (hcode : code.toList = lines.flatMap (Line.bytes offset?))
    (hresolved : ∀ l ∈ lines, l.Resolved offset?) (hlines : lines = before ++ l :: after)
    (hi : l.instr? offset? = some i) : fetch code (codeSize before) = .instr i := by
  subst hlines
  rw [← length_flatMap_bytes fun l hl => hresolved l (List.mem_append_left _ hl)]
  have hbytes : code.toList = before.flatMap (Line.bytes offset?) ++ i.bytes ++
      after.flatMap (Line.bytes offset?) := by
    simp [hcode, Line.bytes, hi]
  exact fetch_eq hbytes

theorem exists_label_of_mem {lines : List Line} {k n : Nat} {t : Target}
    (h : (t, n) ∈ placesFrom k lines) :
    ∃ before note after, lines = before ++ .label t note :: after ∧ k + codeSize before = n := by
  induction lines generalizing k with
  | nil => exact nomatch h
  | cons l lines ih =>
    have later (h : (t, n) ∈ placesFrom (k + l.size) lines) :
        ∃ before note after, l :: lines = before ++ .label t note :: after ∧
          k + codeSize before = n := by
      obtain ⟨before, note, after, rfl, rfl⟩ := ih h
      exact ⟨l :: before, note, after, rfl, by rw [codeSize_cons, Nat.add_assoc]⟩
    cases l with
    | label place note =>
      rw [placesFrom, List.mem_cons] at h
      rcases h with h | h
      · cases h
        exact ⟨[], note, lines, rfl, rfl⟩
      · exact later h
    | instr i => exact later h
    | jmp target => exact later h
    | jmpIfFalse cond target => exact later h

/-- The place of a target is marked in the code. -/
theorem exists_label {lines : List Line} {t : Target} {n : Nat}
    (h : (offsets lines).lookup t = some n) :
    ∃ before note after, lines = before ++ .label t note :: after ∧ codeSize before = n := by
  obtain ⟨xs, ys, hxs, -⟩ := List.lookup_eq_some_iff.1 h
  have hmem : (t, n) ∈ placesFrom 0 lines := by
    rw [← List.mem_reverse, show (placesFrom 0 lines).reverse = _ from hxs]
    simp
  obtain ⟨before, note, after, hlines, hn⟩ := exists_label_of_mem hmem
  exact ⟨before, note, after, hlines, (Nat.zero_add _).symm.trans hn⟩

end ScalarLang.Bytecode
