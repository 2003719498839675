import ScalarLang.Proofs.Bytecode.Operands

/-! Code and its two readers, which take apart instructions each in its own way. The machine and the
listing find the instructions that were written, at the same offsets, and overwriting an operand is
writing the instruction with another operand. Listings are made of any bytes: every byte is in one
line, and what is printed is fixed by the bytes, the tables and the notes. -/

namespace ScalarLang.Bytecode

/-! ### Opcodes with operands -/

/-- The parts of an instruction that are written. -/
def Instr.parts (i : Instr) : Opcode × List UInt16 := (i.opcode, i.operands)

/-- An opcode with as many operands as it takes is an instruction. -/
theorem exists_parts {op : Opcode} {ws : List UInt16} (h : ws.length = op.operandCount) :
    ∃ i : Instr, i.parts = (op, ws) := by
  have one (make : UInt16 → Instr) (hmake : ∀ a, (make a).parts = (op, [a]))
      (hop : op.operandCount = 1) : ∃ i : Instr, i.parts = (op, ws) := by
    obtain ⟨a, rfl⟩ := List.length_eq_one_iff.1 (h.trans hop)
    exact ⟨make a, hmake a⟩
  have two (make : UInt16 → UInt16 → Instr) (hmake : ∀ a b, (make a b).parts = (op, [a, b]))
      (hop : op.operandCount = 2) : ∃ i : Instr, i.parts = (op, ws) := by
    obtain ⟨a, b, rfl⟩ := List.length_eq_two.1 (h.trans hop)
    exact ⟨make a b, hmake a b⟩
  have three (make : UInt16 → UInt16 → UInt16 → Instr)
      (hmake : ∀ a b c, (make a b c).parts = (op, [a, b, c])) (hop : op.operandCount = 3) :
      ∃ i : Instr, i.parts = (op, ws) := by
    obtain ⟨a, b, c, rfl⟩ := List.length_eq_three.1 (h.trans hop)
    exact ⟨make a b c, hmake a b c⟩
  cases op with
  | ldc => exact two .ldc (fun _ _ => rfl) rfl
  | mov => exact two .mov (fun _ _ => rfl) rfl
  | add => exact three (.binary .add) (fun _ _ _ => rfl) rfl
  | sub => exact three (.binary .sub) (fun _ _ _ => rfl) rfl
  | mul => exact three (.binary .mul) (fun _ _ _ => rfl) rfl
  | div => exact three (.binary .div) (fun _ _ _ => rfl) rfl
  | lt => exact three (.compare .ult) (fun _ _ _ => rfl) rfl
  | ne => exact three (.compare .one) (fun _ _ _ => rfl) rfl
  | jmp => exact one .jmp (fun _ => rfl) rfl
  | jmpIfFalse => exact two .jmpIfFalse (fun _ _ => rfl) rfl
  | call => exact three .call (fun _ _ _ => rfl) rfl
  | ret => exact one .ret (fun _ => rfl) rfl

theorem exists_map_parts {ps : List (Opcode × List UInt16)}
    (h : ∀ p ∈ ps, p.2.length = p.1.operandCount) : ∃ is : List Instr, is.map Instr.parts = ps := by
  induction ps with
  | nil => exact ⟨[], rfl⟩
  | cons p ps ih =>
    rw [List.forall_mem_cons] at h
    obtain ⟨i, hi⟩ := exists_parts h.1
    obtain ⟨is, rfl⟩ := ih h.2
    exact ⟨i :: is, congrArg (· :: is.map Instr.parts) hi⟩

/-! ### Writing -/

/-- Writes instructions one after the other. -/
def Chunk.writeAll (c : Chunk) (ps : List (Opcode × List UInt16)) : Chunk :=
  ps.foldl (fun c p => c.writeInstr p.1 p.2) c

/-- Opcodes with operands, each with its offset if the first is at `n`. -/
def placedFrom (n : Nat) : List (Opcode × List UInt16) → List (Nat × Opcode × List UInt16)
  | [] => []
  | p :: ps => (n, p) :: placedFrom (n + p.1.size) ps

/-- The bytes of opcodes with operands. -/
def partsBytes (ps : List (Opcode × List UInt16)) : List UInt8 :=
  ps.flatMap fun p => instrBytes p.1 p.2

namespace Chunk

theorem writeBytes_eq (c : Chunk) (bytes : List UInt8) :
    c.writeBytes bytes = { c with code := c.code ++ bytes.toArray } := by
  induction bytes generalizing c with
  | nil => simp [writeBytes]
  | cons byte bytes ih =>
    have hcode : c.code.push byte ++ bytes.toArray = c.code ++ (byte :: bytes).toArray := by
      apply Array.toList_inj.1
      simp
    change (c.writeByte byte).writeBytes bytes = _
    rw [ih, writeByte, hcode]

theorem writeAll_eq (c : Chunk) (ps : List (Opcode × List UInt16)) :
    c.writeAll ps = { c with code := c.code ++ (partsBytes ps).toArray } := by
  induction ps generalizing c with
  | nil => simp [writeAll, partsBytes]
  | cons p ps ih =>
    change (c.writeInstr p.1 p.2).writeAll ps = _
    rw [ih, writeInstr, writeBytes_eq]
    simp [partsBytes]

theorem code_writeAll (c : Chunk) (ps : List (Opcode × List UInt16)) :
    (c.writeAll ps).code.toList = c.code.toList ++ partsBytes ps := by
  simp [writeAll_eq]

end Chunk

theorem partsBytes_map (is : List Instr) :
    partsBytes (is.map Instr.parts) = is.flatMap Instr.bytes := List.flatMap_map ..

/-! ### Reading back -/

/-- The machine reads the instructions that the code consists of. -/
theorem decode_flatMap {code : Array UInt8} {before : List UInt8} {is : List Instr}
    (h : code.toList = before ++ is.flatMap Instr.bytes) :
    (decode code before.length).map (Prod.map id Instr.parts) =
      placedFrom before.length (is.map Instr.parts) := by
  induction is generalizing before with
  | nil =>
    have hsize : before.length = code.size := by simpa using (congrArg List.length h).symm
    rw [hsize, decode_size]
    rfl
  | cons i is ih =>
    have hrest : code.toList = (before ++ i.bytes) ++ is.flatMap Instr.bytes := by simpa using h
    have ih := ih hrest
    rw [List.length_append, length_bytes] at ih
    rw [decode_of_fetch (fetch_eq hrest), List.map_cons, ih]
    rfl

theorem length_flatMap_wordBytes (ws : List UInt16) :
    (ws.flatMap wordBytes).length = 2 * ws.length := by
  induction ws with
  | nil => rfl
  | cons w ws ih =>
    rw [List.flatMap_cons, List.length_append, ih, List.length_cons, Nat.mul_succ, Nat.add_comm]
    rfl

theorem length_instrBytes {op : Opcode} {ws : List UInt16} (hws : ws.length = op.operandCount) :
    (instrBytes op ws).length = op.size := by
  rw [instrBytes, List.length_cons, length_flatMap_wordBytes, hws, Opcode.size, Nat.add_comm]

/-! ### Rows -/

/-- What a row of a listing shows. -/
inductive Shown where
  | instr (op : Opcode) (operands : List UInt16)
  | invalid
  | truncated (op : Opcode)

/-- A row of a listing, with the offset of its first byte and the offset behind its last. -/
structure Row where
  start : Nat
  stop : Nat
  shown : Shown

namespace Row

/-- A number that is filled up with zeros to four digits. -/
def fourDigits (n : Nat) : String :=
  String.ofList (List.replicate (4 - (toString n).length) '0') ++ toString n

/-- A number that is filled up with blanks to three characters. -/
def threeColumns (n : Nat) : String :=
  toString n ++ String.ofList (List.replicate (3 - (toString n).length) ' ')

def register (r : UInt16) : String := s!"r{r.toNat}"

/-- How an opcode is printed: in front of its operands, and when these are cut off. -/
def names : Opcode → String × String
  | .ldc => ("ldc           ", "Ldc")
  | .mov => ("mov           ", "Mov")
  | .add => ("add           ", "Add")
  | .sub => ("sub           ", "Sub")
  | .mul => ("mul           ", "Mul")
  | .div => ("div           ", "Div")
  | .lt => ("lt            ", "Lt")
  | .ne => ("ne            ", "Ne")
  | .jmp => ("jmp           ", "Jmp")
  | .jmpIfFalse => ("jmp_if_false  ", "JmpIfFalse")
  | .call => ("call          ", "Call")
  | .ret => ("ret           ", "Ret")

/-- How operands are printed: registers by their numbers, constants with their values, calls with
what they call, targets as offsets. -/
def operandText (c : Chunk) : Opcode → List UInt16 → String
  | .ldc, [dst, k] =>
    let value := match c.constants[k.toNat]? with
      | some v => s!"(value = {Chunk.numberStyle.write v})"
      | none => "(invalid)"
    s!"{register dst}, {threeColumns k.toNat} {value}"
  | .jmp, [target] => fourDigits target.toNat
  | .jmpIfFalse, [cond, target] => s!"{register cond}, {fourDigits target.toNat}"
  | .call, [dst, k, first] =>
    let callee := match c.imports[k.toNat]? with
      | some i => s!"@{i.name}/{i.arity} (args from {register first})"
      | none => s!"<invalid import {k.toNat}>"
    s!"{register dst}, {callee}"
  | _, rs => ", ".intercalate (rs.map register)

def note (c : Chunk) (offset : Nat) : String :=
  match c.notes.toList.lookup offset with
  | some text => "// " ++ text
  | none => ""

/-- The text of a row: its offset, what it shows, and the note on its offset. -/
def text (c : Chunk) (row : Row) : String :=
  match row.shown with
  | .instr op ws =>
    s!"{fourDigits row.start} {(names op).1} {operandText c op ws} {note c row.start}\n"
  | .invalid => s!"{fourDigits row.start} invalid {note c row.start}\n"
  | .truncated op => s!"{fourDigits row.start} truncated {(names op).2} {note c row.start}\n"

def line (c : Chunk) (row : Row) : Chunk.Line := ⟨row.start, row.stop, row.text c⟩

/-- The row of an instruction at an offset. -/
def ofInstr (offset : Nat) (op : Opcode) (ws : List UInt16) : Row :=
  ⟨offset, offset + op.size, .instr op ws⟩

theorem padRight_mnemonic (op : Opcode) : Chunk.padRight 14 op.mnemonic = (names op).1 := by
  cases op <;> decide

theorem title_eq (op : Opcode) : op.title = (names op).2 := by cases op <;> rfl

theorem noteText_eq (c : Chunk) (offset : Nat) : c.noteText offset = note c offset := by
  have hlist (notes : List (Nat × String)) :
      (notes.find? (·.1 = offset)).map Prod.snd = notes.lookup offset := by
    induction notes with
    | nil => rfl
    | cons e notes ih =>
      rw [List.find?_cons, List.lookup_cons]
      by_cases h : e.1 = offset
      · simp [h]
      · have hne : (offset == e.1) = false := by simpa using Ne.symm h
        simp [h, hne, ih]
  rw [Chunk.noteText, note, ← hlist, ← Array.find?_toList]
  cases c.notes.toList.find? (·.1 = offset) <;> rfl

end Row

namespace Chunk

variable {c : Chunk}

theorem linesFrom_of_lineAt {offset : Nat} {line : Chunk.Line}
    (h : c.lineAt offset = some line) : c.linesFrom offset = line :: c.linesFrom line.stop := by
  rw [linesFrom]
  split
  · next hn => cases hn.symm.trans h
  · next line' hl =>
    cases hl.symm.trans h
    rfl

theorem linesFrom_of_none {offset : Nat} (h : c.lineAt offset = none) : c.linesFrom offset = [] := by
  rw [linesFrom]
  split
  · rfl
  · next line hl => cases hl.symm.trans h

theorem linesFrom_size (c : Chunk) : c.linesFrom c.code.size = [] := by
  apply linesFrom_of_none
  cases h : c.lineAt c.code.size with
  | none => rfl
  | some line => exact absurd (lineAt_progress h).2 (Nat.lt_irrefl _)

theorem mapM_range_length {ws : List UInt16} {f : Nat → Option UInt16}
    (h : ∀ {k w}, ws[k]? = some w → f k = some w) : (List.range ws.length).mapM f = some ws := by
  induction ws generalizing f with
  | nil => rfl
  | cons w ws ih =>
    have hrest : (List.range ws.length).mapM (f ∘ Nat.succ) = some ws :=
      ih fun {k w} hk => @h (k + 1) w hk
    rw [List.length_cons, List.range_succ_eq_map, List.mapM_cons, List.mapM_map, h rfl, hrest]
    rfl

theorem listRegisters_eq {offset : Nat} {ws : List UInt16}
    (h : ∀ {k w}, ws[k]? = some w → c.readWord? (offset + 1 + 2 * k) = some w) :
    c.listRegisters offset ws.length =
      some (", ".intercalate (ws.map Row.register), offset + 1 + 2 * ws.length) := by
  rw [listRegisters, mapM_range_length h]
  rfl

/-- What the listing reads behind an opcode are its operands, however it takes them apart. -/
theorem listOperands_eq {offset : Nat} {op : Opcode} {ws : List UInt16}
    (hws : ws.length = op.operandCount)
    (h : ∀ {k w}, ws[k]? = some w → c.readWord? (offset + 1 + 2 * k) = some w) :
    c.listOperands offset op = some (Row.operandText c op ws, offset + op.size) := by
  have h₀ {w : UInt16} (hw : ws[0]? = some w) : c.readWord? (offset + 1) = some w := h hw
  have h₁ {w : UInt16} (hw : ws[1]? = some w) : c.readWord? (offset + 3) = some w := h hw
  have h₂ {w : UInt16} (hw : ws[2]? = some w) : c.readWord? (offset + 5) = some w := h hw
  have hregisters := listRegisters_eq h
  rw [hws] at hregisters
  cases op with
  | ldc =>
    obtain ⟨dst, k, rfl⟩ := List.length_eq_two.1 hws
    rw [listOperands, listConstant, h₀ rfl, h₁ rfl]
    rfl
  | jmp =>
    obtain ⟨target, rfl⟩ := List.length_eq_one_iff.1 hws
    rw [listOperands, listJump, h₀ rfl]
    rfl
  | jmpIfFalse =>
    obtain ⟨cond, target, rfl⟩ := List.length_eq_two.1 hws
    rw [listOperands, listJump, h₀ rfl, h₁ rfl]
    rfl
  | call =>
    obtain ⟨dst, k, first, rfl⟩ := List.length_eq_three.1 hws
    rw [listOperands, listCall, h₀ rfl, h₁ rfl, h₂ rfl]
    rfl
  | _ => exact hregisters

theorem lineAt_instr {before after : List UInt8} {op : Opcode} {ws : List UInt16}
    (hws : ws.length = op.operandCount)
    (hcode : c.code.toList = before ++ instrBytes op ws ++ after) :
    c.lineAt before.length = some ((Row.ofInstr before.length op ws).line c) := by
  have hbyte : c.code[before.length]? = some op.toByte := by
    simp [← Array.getElem?_toList, hcode, instrBytes]
  have hwords : c.code.toList = (before ++ [op.toByte]) ++ ws.flatMap wordBytes ++ after := by
    simpa [instrBytes] using hcode
  have hsize : ¬c.code.size < before.length + 1 + 2 * op.operandCount := by
    have hlength := congrArg List.length hwords
    simp only [Array.length_toList, List.length_append, List.length_singleton,
      length_flatMap_wordBytes, hws] at hlength
    omega
  have hread {k : Nat} {w : UInt16} (hk : ws[k]? = some w) :
      c.readWord? (before.length + 1 + 2 * k) = some w := by
    simpa [readWord?] using wordAt?_operand hwords hk
  simp only [lineAt, hbyte, Option.bind_eq_bind, Option.bind_some, Opcode.ofByte?_toByte, hsize,
    if_false, listOperands_eq hws hread, Row.padRight_mnemonic, Row.noteText_eq]
  rfl

example : (Row.ofInstr 5 .jmpIfFalse [3, 0]).text { name := "f", notes := #[(5, "again")] } =
    "0005 jmp_if_false   r3, 0000 // again\n" := by decide

/-- A listing of instructions has a row for each, at its offset. -/
theorem linesFrom_parts {before : List UInt8} {ps : List (Opcode × List UInt16)}
    (hps : ∀ p ∈ ps, p.2.length = p.1.operandCount)
    (hcode : c.code.toList = before ++ partsBytes ps) :
    c.linesFrom before.length =
      (placedFrom before.length ps).map fun x => (Row.ofInstr x.1 x.2.1 x.2.2).line c := by
  induction ps generalizing before with
  | nil =>
    have hsize : before.length = c.code.size := by
      simpa [partsBytes] using (congrArg List.length hcode).symm
    rw [hsize, linesFrom_size]
    rfl
  | cons p ps ih =>
    obtain ⟨hp, hps⟩ := List.forall_mem_cons.1 hps
    have hrest : c.code.toList = (before ++ instrBytes p.1 p.2) ++ partsBytes ps := by
      simpa [partsBytes] using hcode
    have ih := ih hps hrest
    rw [List.length_append, length_instrBytes hp] at ih
    rw [linesFrom_of_lineAt (lineAt_instr hp hrest)]
    exact congrArg _ ih

end Chunk

theorem fetch_of_mem_decode {code : Array UInt8} {offset : Nat} {x : Nat × Instr}
    (h : x ∈ decode code offset) : fetch code x.1 = .instr x.2 := by
  fun_induction decode code offset with
  | case1 offset i hi _ ih =>
    rcases List.mem_cons.1 h with rfl | h
    · exact hi
    · exact ih h
  | case2 => cases h

/-! ### Overwriting -/

theorem patchWord?_eq {c : Chunk} {before after : List UInt8} {v w : UInt16}
    (h : c.code.toList = before ++ wordBytes v ++ after) :
    c.patchWord? before.length w =
      some { c with code := (before ++ wordBytes w ++ after).toArray } := by
  have hcode : c.code = (before ++ wordBytes v ++ after).toArray := by rw [← h]
  have hsize : before.length + 2 ≤ c.code.size := by
    rw [hcode]
    simp only [List.size_toArray, List.length_append, wordBytes, List.length_cons, List.length_nil]
    omega
  rw [Chunk.patchWord?, if_pos hsize, hcode]
  simp [wordBytes]

/-- The operand at an index, among the bytes of all operands. -/
theorem flatMap_wordBytes_set {ws : List UInt16} {k : Nat} (hk : k < ws.length) (w : UInt16) :
    ∃ before after v, before.length = 2 * k ∧
      ws.flatMap wordBytes = before ++ wordBytes v ++ after ∧
      (ws.set k w).flatMap wordBytes = before ++ wordBytes w ++ after := by
  refine ⟨(ws.take k).flatMap wordBytes, (ws.drop (k + 1)).flatMap wordBytes, ws[k], ?_, ?_, ?_⟩
  · rw [length_flatMap_wordBytes, List.length_take_of_le (Nat.le_of_lt hk)]
  · rw [← List.flatMap_singleton wordBytes, ← List.flatMap_append, ← List.flatMap_append,
      List.take_append_getElem, List.take_append_drop]
  · rw [List.set_eq_take_append_cons_drop, if_pos hk]
    simp

/-- To overwrite an operand is to write it in the first place. -/
theorem patchWord?_writeAll (c : Chunk) (before after : List (Opcode × List UInt16)) (op : Opcode)
    {ws : List UInt16} {k : Nat} (hk : k < ws.length) (w : UInt16) :
    (c.writeAll (before ++ (op, ws) :: after)).patchWord?
        ((c.writeAll before).code.size + 1 + 2 * k) w =
      some (c.writeAll (before ++ (op, ws.set k w) :: after)) := by
  obtain ⟨front, back, v, hfront, hws, hset⟩ := flatMap_wordBytes_set hk w
  have hcode (us : List UInt16) : (c.writeAll (before ++ (op, us) :: after)).code.toList =
      (c.writeAll before).code.toList ++ [op.toByte] ++ us.flatMap wordBytes ++
        partsBytes after := by
    simp [Chunk.code_writeAll, partsBytes, instrBytes]
  have hold : (c.writeAll (before ++ (op, ws) :: after)).code.toList =
      ((c.writeAll before).code.toList ++ [op.toByte] ++ front) ++ wordBytes v ++
        (back ++ partsBytes after) := by
    rw [hcode, hws]
    simp
  have hnew : (c.writeAll (before ++ (op, ws.set k w) :: after)).code.toList =
      ((c.writeAll before).code.toList ++ [op.toByte] ++ front) ++ wordBytes w ++
        (back ++ partsBytes after) := by
    rw [hcode, hset]
    simp
  have hlength : (c.writeAll before).code.size + 1 + 2 * k =
      ((c.writeAll before).code.toList ++ [op.toByte] ++ front).length := by
    simp only [List.length_append, Array.length_toList, List.length_singleton, hfront]
  rw [hlength, patchWord?_eq hold, ← hnew, Array.toArray_toList]
  simp only [Chunk.writeAll_eq]

/-! ### Any bytes -/

/-- The rows follow one another from one offset to another. -/
def Row.Follow : Nat → List Row → Nat → Prop
  | n, [], k => n = k
  | n, row :: rows, k => row.start = n ∧ n < row.stop ∧ Follow row.stop rows k

theorem Row.Follow.le_start {n k : Nat} {rows : List Row} (h : Row.Follow n rows k) {row : Row}
    (hrow : row ∈ rows) : n ≤ row.start := by
  induction rows generalizing n with
  | nil => cases hrow
  | cons first rows ih =>
    obtain ⟨hstart, hlt, hrows⟩ := h
    rcases List.mem_cons.1 hrow with rfl | hrow
    · exact Nat.le_of_eq hstart.symm
    · exact Nat.le_trans (Nat.le_of_lt hlt) (ih hrows hrow)

/-- Every offset in between belongs to one of the rows. -/
theorem Row.Follow.existsUnique {n k : Nat} {rows : List Row} (h : Row.Follow n rows k) {j : Nat}
    (hn : n ≤ j) (hk : j < k) : ∃! row, row ∈ rows ∧ row.start ≤ j ∧ j < row.stop := by
  induction rows generalizing n with
  | nil =>
    have h : n = k := h
    omega
  | cons row rows ih =>
    obtain ⟨hstart, -, hrows⟩ := h
    by_cases hj : j < row.stop
    · refine ⟨row, ⟨List.mem_cons_self .., hstart ▸ hn, hj⟩, ?_⟩
      rintro row' ⟨hmem, hstart', -⟩
      rcases List.mem_cons.1 hmem with rfl | hmem
      · rfl
      · have := hrows.le_start hmem
        omega
    · obtain ⟨found, ⟨hmem, hin⟩, hunique⟩ := ih hrows (Nat.not_lt.1 hj)
      refine ⟨found, ⟨List.mem_cons_of_mem _ hmem, hin⟩, ?_⟩
      rintro row' ⟨hmem', hin'⟩
      rcases List.mem_cons.1 hmem' with rfl | hmem'
      · exact absurd hin'.2 hj
      · exact hunique row' ⟨hmem', hin'⟩

/-- Rows that show the code from an offset on: instructions, single bytes that are no opcode, and
at the end perhaps an instruction that is cut off. -/
inductive Chunk.Listed (c : Chunk) : Nat → List Row → Prop where
  | done : Listed c c.code.size []
  | instr {before after : List UInt8} {op : Opcode} {ws : List UInt16} {rows : List Row}
      (hws : ws.length = op.operandCount)
      (hcode : c.code.toList = before ++ instrBytes op ws ++ after)
      (hrows : Listed c (before.length + (instrBytes op ws).length) rows) :
      Listed c before.length
        (⟨before.length, before.length + (instrBytes op ws).length, .instr op ws⟩ :: rows)
  | invalid {before after : List UInt8} {byte : UInt8} {rows : List Row}
      (hcode : c.code.toList = before ++ byte :: after) (hbyte : ∀ op : Opcode, op.toByte ≠ byte)
      (hrows : Listed c (before.length + 1) rows) :
      Listed c before.length (⟨before.length, before.length + 1, .invalid⟩ :: rows)
  | truncated {before after : List UInt8} {op : Opcode}
      (hcode : c.code.toList = before ++ op.toByte :: after)
      (hafter : after.length < 2 * op.operandCount) :
      Listed c before.length [⟨before.length, c.code.size, .truncated op⟩]

theorem ofByte?_eq_some_iff {byte : UInt8} {op : Opcode} :
    Opcode.ofByte? byte = some op ↔ op.toByte = byte := by
  constructor
  · intro h
    obtain ⟨hlt, h⟩ := List.getElem?_eq_some_iff.1 h
    have hall : ∀ (n : Nat) (hn : n < Opcode.all.length), Opcode.all[n].toByte.toNat = n := by
      decide
    apply UInt8.toNat_inj.1
    rw [← h, hall _ hlt]
  · rintro rfl
    exact op.ofByte?_toByte

theorem wordBytes_combine (high low : UInt8) :
    wordBytes ((high.toUInt16 <<< 8) ||| low.toUInt16) = [high, low] := by
  have hhigh := high.toNat_lt
  have hlow := low.toNat_lt
  have hshift : high.toNat <<< 8 % 2 ^ 16 = high.toNat <<< 8 := by
    rw [Nat.shiftLeft_eq]
    omega
  have hword : ((high.toUInt16 <<< 8) ||| low.toUInt16).toNat = high.toNat * 2 ^ 8 + low.toNat := by
    rw [UInt16.toNat_or, UInt16.toNat_shiftLeft, UInt8.toNat_toUInt16, UInt8.toNat_toUInt16]
    change high.toNat <<< 8 % 2 ^ 16 ||| low.toNat = _
    rw [hshift, ← Nat.shiftLeft_add_eq_or_of_lt hlow, Nat.shiftLeft_eq]
  have hfirst : (((high.toUInt16 <<< 8) ||| low.toUInt16) >>> 8).toUInt8 = high := by
    apply UInt8.toNat_inj.1
    rw [UInt16.toNat_toUInt8, UInt16.toNat_shiftRight, hword, Nat.shiftRight_eq_div_pow]
    change (high.toNat * 2 ^ 8 + low.toNat) / 2 ^ 8 % 2 ^ 8 = high.toNat
    omega
  have hsecond : ((high.toUInt16 <<< 8) ||| low.toUInt16).toUInt8 = low := by
    apply UInt8.toNat_inj.1
    rw [UInt16.toNat_toUInt8, hword]
    omega
  rw [wordBytes, hfirst, hsecond]

/-- As many words as there are pairs of bytes. -/
theorem exists_flatMap_wordBytes {n : Nat} {bytes : List UInt8} (h : 2 * n ≤ bytes.length) :
    ∃ (ws : List UInt16) (after : List UInt8),
      ws.length = n ∧ bytes = ws.flatMap wordBytes ++ after := by
  induction n generalizing bytes with
  | zero => exact ⟨[], bytes, rfl, rfl⟩
  | succ n ih =>
    obtain ⟨high, bytes, rfl⟩ := List.exists_cons_of_length_pos (show 0 < bytes.length by omega)
    rw [List.length_cons] at h
    obtain ⟨low, bytes, rfl⟩ := List.exists_cons_of_length_pos (show 0 < bytes.length by omega)
    rw [List.length_cons] at h
    obtain ⟨ws, after, rfl, rfl⟩ := ih (show 2 * n ≤ bytes.length by omega)
    refine ⟨((high.toUInt16 <<< 8) ||| low.toUInt16) :: ws, after, rfl, ?_⟩
    rw [List.flatMap_cons, wordBytes_combine high low]
    rfl

namespace Chunk

variable {c : Chunk}

theorem Listed.follow {n : Nat} {rows : List Row} (h : c.Listed n rows) :
    Row.Follow n rows c.code.size := by
  induction h with
  | done => rfl
  | instr hws hcode hrows ih =>
    exact ⟨rfl, Nat.lt_add_of_pos_right (Nat.zero_lt_succ _), ih⟩
  | invalid hcode hbyte hrows ih => exact ⟨rfl, Nat.lt_succ_self _, ih⟩
  | @truncated before after op hcode hafter =>
    have hsize := congrArg List.length hcode
    simp only [Array.length_toList, List.length_append, List.length_cons] at hsize
    exact ⟨rfl, show before.length < c.code.size by omega, rfl⟩

theorem lineAt_invalid {before after : List UInt8} {byte : UInt8}
    (hcode : c.code.toList = before ++ byte :: after) (hbyte : Opcode.ofByte? byte = none) :
    c.lineAt before.length =
      some (Row.line c ⟨before.length, before.length + 1, .invalid⟩) := by
  have hhead : c.code[before.length]? = some byte := by simp [← Array.getElem?_toList, hcode]
  simp only [lineAt, hhead, Option.bind_eq_bind, Option.bind_some, hbyte, Row.noteText_eq]
  rfl

theorem lineAt_truncated {before after : List UInt8} {op : Opcode}
    (hcode : c.code.toList = before ++ op.toByte :: after)
    (hafter : after.length < 2 * op.operandCount) :
    c.lineAt before.length =
      some (Row.line c ⟨before.length, c.code.size, .truncated op⟩) := by
  have hhead : c.code[before.length]? = some op.toByte := by simp [← Array.getElem?_toList, hcode]
  have hsize : c.code.size < before.length + 1 + 2 * op.operandCount := by
    have hlength := congrArg List.length hcode
    simp only [Array.length_toList, List.length_append, List.length_cons] at hlength
    omega
  simp only [lineAt, hhead, Option.bind_eq_bind, Option.bind_some, Opcode.ofByte?_toByte, hsize,
    if_true, Row.noteText_eq, Row.title_eq]
  rfl

/-- A listing shows the code to its end. -/
theorem exists_listed {before rest : List UInt8} (hcode : c.code.toList = before ++ rest) :
    ∃ rows, c.linesFrom before.length = rows.map (Row.line c) ∧ c.Listed before.length rows := by
  induction hn : rest.length using Nat.strongRecOn generalizing before rest with
  | ind n ih =>
    subst hn
    -- what the next row shows depends on the first byte, and on how many follow
    cases rest with
    | nil =>
      have hsize : before.length = c.code.size := by simpa using (congrArg List.length hcode).symm
      exact ⟨[], hsize ▸ linesFrom_size c, hsize ▸ .done⟩
    | cons byte rest =>
      cases hop : Opcode.ofByte? byte with
      | none =>
        have hnext : c.code.toList = (before ++ [byte]) ++ rest := by simpa using hcode
        obtain ⟨rows, hlines, hrows⟩ := ih rest.length (Nat.lt_succ_self _) hnext rfl
        rw [List.length_append, List.length_singleton] at hlines hrows
        refine ⟨_ :: rows, ?_, .invalid hcode (fun op hbyte => ?_) hrows⟩
        · rw [linesFrom_of_lineAt (lineAt_invalid hcode hop)]
          exact congrArg _ hlines
        · rw [ofByte?_eq_some_iff.2 hbyte] at hop
          cases hop
      | some op =>
        obtain rfl := ofByte?_eq_some_iff.1 hop
        by_cases hlength : rest.length < 2 * op.operandCount
        · refine ⟨[_], ?_, .truncated hcode hlength⟩
          rw [linesFrom_of_lineAt (lineAt_truncated hcode hlength)]
          exact congrArg _ (linesFrom_size c)
        · obtain ⟨ws, after, hws, rfl⟩ := exists_flatMap_wordBytes (Nat.not_lt.1 hlength)
          have hnext : c.code.toList = (before ++ instrBytes op ws) ++ after := by
            simpa [instrBytes] using hcode
          have hlt : after.length < (op.toByte :: (ws.flatMap wordBytes ++ after)).length := by
            rw [List.length_cons, List.length_append]
            omega
          obtain ⟨rows, hlines, hrows⟩ := ih after.length hlt hnext rfl
          rw [List.length_append] at hlines hrows
          refine ⟨_ :: rows, ?_, .instr hws hnext hrows⟩
          rw [linesFrom_of_lineAt (lineAt_instr hws hnext), length_instrBytes hws]
          rw [length_instrBytes hws] at hlines
          exact congrArg _ hlines

/-- The listing reads inside the code only: there is a line on every offset of the code. -/
theorem isSome_lineAt_iff (c : Chunk) (offset : Nat) :
    (c.lineAt offset).isSome ↔ offset < c.code.size := by
  constructor
  · intro h
    obtain ⟨line, hline⟩ := Option.isSome_iff_exists.1 h
    exact (lineAt_progress hline).2
  · intro h
    have hcode : c.code.toList = c.code.toList.take offset ++ c.code.toList.drop offset :=
      (List.take_append_drop ..).symm
    obtain ⟨rows, hlines, hrows⟩ := exists_listed hcode
    rw [List.length_take_of_le (Nat.le_of_lt (by simpa using h))] at hlines hrows
    by_contra hnone
    rw [linesFrom_of_none (by simpa using hnone)] at hlines
    obtain rfl := List.map_eq_nil_iff.1 hlines.symm
    exact Nat.ne_of_lt h hrows.follow

end Chunk

end ScalarLang.Bytecode

/-! ### The machine -/

namespace ScalarLang

open Bytecode (Instr fetch)

namespace Machine

/-- What becomes of the frames at an instruction. Unless the run stops, the frame goes on behind the
bytes of the instruction, at once or after a call, or where a jump leads, or it returns. -/
inductive Performs (m : Machine) (i : Instr) : Step → Prop where
  | pass {m' : Machine} (hframe : m'.frame = { m.frame with ip := m.frame.ip + i.size })
      (hcallers : m'.callers = m.callers) : Performs m i (.next m')
  | jump {m' : Machine} {target : UInt16} (hi : i.target? = some target)
      (hframe : m'.frame = { m.frame with ip := target.toNat })
      (hcallers : m'.callers = m.callers) : Performs m i (.next m')
  | enter {m' : Machine} (hi : i.opcode = .call) (hip : m'.frame.ip = 0)
      (hcallers : m'.callers = m.callers.push { m.frame with ip := m.frame.ip + i.size }) :
      Performs m i (.next m')
  | leave {m' : Machine} (hi : i.opcode = .ret) (hframe : m.callers.back? = some m'.frame)
      (hcallers : m'.callers = m.callers.pop) : Performs m i (.next m')
  | stop {s : Stop} : Performs m i (.stop s)

variable {image : Image} {maxDepth : Nat} {m : Machine}

theorem assign_cases (m : Machine) (r : UInt16) (v : Float) (offset : Nat) :
    (∃ s, m.assign r v offset = .stop s) ∨ ∃ m', m.assign r v offset = .next m' ∧
      m'.frame = { m.frame with ip := offset } ∧ m'.callers = m.callers := by
  simp only [assign]
  split
  · exact .inr ⟨_, rfl, rfl, rfl⟩
  · exact .inl ⟨_, rfl⟩

theorem performs_assign (i : Instr) (r : UInt16) (v : Float) :
    m.Performs i (m.assign r v (m.frame.ip + i.size)) := by
  obtain ⟨s, hs⟩ | ⟨m', hm, hframe, hcallers⟩ := m.assign_cases r v (m.frame.ip + i.size)
  · exact hs ▸ .stop
  · exact hm ▸ .pass hframe hcallers

theorem performs_combine (i : Instr) (hi : i.size = 7) (f : Float → Float → Float)
    (dst left right : UInt16) : m.Performs i (m.combine f dst left right) := by
  unfold combine
  rw [← hi]
  split
  · exact .stop
  · split
    · exact .stop
    · exact performs_assign i dst _

theorem performs_enter {i : Instr} (hi : i.opcode = .call) (callee : LinkedFn) (args : List Float)
    (dst : UInt16) : m.Performs i (m.enter maxDepth callee args dst (m.frame.ip + i.size)) := by
  unfold enter
  split
  · exact .stop
  · exact .enter hi rfl rfl

theorem performs_callHost (i : Instr) (h : HostFn) (args : List Float) (dst : UInt16) :
    m.Performs i (m.callHost h args dst (m.frame.ip + i.size)) := by
  obtain ⟨s, hs⟩ | ⟨m', hm, hframe, hcallers⟩ :=
    { m with effects := m.effects ++ (h.call args).2.toArray }.assign_cases dst (h.call args).1
      (m.frame.ip + i.size)
  · exact callHost_eq .. ▸ hs ▸ .stop
  · exact callHost_eq .. ▸ hm ▸ .pass hframe hcallers

theorem performs_call (dst index first : UInt16) :
    m.Performs (.call dst index first) (m.call image maxDepth dst index first (m.frame.ip + 7)) := by
  unfold call
  split
  · split
    · exact .stop
    · dsimp only
      split
      · exact .stop
      · split
        · split
          · exact .stop
          · split
            · exact performs_callHost (.call dst index first) ..
            · exact .stop
        · split
          · exact .stop
          · split
            · exact performs_enter rfl ..
            · exact .stop
  · exact .stop

theorem performs_leave {i : Instr} (hi : i.opcode = .ret) (v : Float) :
    m.Performs i (m.leave v) := by
  unfold leave
  split
  · exact .stop
  · next caller hcaller =>
    obtain ⟨s, hs⟩ | ⟨m', hm, hframe, hcallers⟩ :=
      { m with frame := caller, callers := m.callers.pop }.assign_cases m.frame.dst v caller.ip
    · exact hs ▸ .stop
    · exact hm ▸ .leave hi (hframe ▸ hcaller) hcallers

/-- The machine moves on by as many bytes as the instruction has. -/
theorem performs_exec (i : Instr) : m.Performs i (m.exec image maxDepth i) := by
  unfold exec
  cases i with
  | ldc dst k =>
    dsimp only
    split
    · exact .stop
    · exact performs_assign (.ldc dst k) ..
  | mov dst src =>
    dsimp only
    split
    · exact .stop
    · exact performs_assign (.mov dst src) ..
  | binary op dst left right => exact performs_combine _ (by cases op <;> rfl) ..
  | compare test dst left right => exact performs_combine _ (by cases test <;> rfl) ..
  | jmp target => exact .jump rfl rfl rfl
  | jmpIfFalse cond target =>
    dsimp only
    split
    · exact .stop
    · split
      · exact .jump rfl rfl rfl
      · exact .pass rfl rfl
  | call dst index first => exact performs_call dst index first
  | ret src =>
    dsimp only
    split
    · exact .stop
    · exact performs_leave rfl _

/-- What the machine does where an instruction is found. -/
theorem performs_step {i : Instr} (h : fetch m.frame.fn.chunk.code m.frame.ip = .instr i) :
    m.step image maxDepth = m.exec image maxDepth i ∧ m.Performs i (m.step image maxDepth) := by
  have hstep : m.step image maxDepth = m.exec image maxDepth i := by simp only [step, h]
  exact ⟨hstep, hstep ▸ performs_exec i⟩

end Machine

namespace Bytecode.Chunk

/-- Instructions that are written behind the code of a chunk are there for all who read it. -/
structure ReadBack (c : Chunk) (ps : List (Opcode × List UInt16)) : Prop where
  /-- Read one after the other, they are those that were written. -/
  decoded : (decode (c.writeAll ps).code c.code.size).map (Prod.map id Instr.parts) =
    placedFrom c.code.size ps
  /-- The listing has a row for each, at its offset. -/
  listed : (c.writeAll ps).linesFrom c.code.size = (placedFrom c.code.size ps).map fun x =>
    (Row.ofInstr x.1 x.2.1 x.2.2).line (c.writeAll ps)
  /-- A machine that has come to the offset of one carries it out, and moves on by its size. -/
  performed {offset : Nat} {p : Opcode × List UInt16} (hp : (offset, p) ∈ placedFrom c.code.size ps)
    (image : Image) (maxDepth : Nat) (m : Machine)
    (hcode : m.frame.fn.chunk.code = (c.writeAll ps).code) (hip : m.frame.ip = offset) :
    ∃ i : Instr, i.parts = p ∧ m.step image maxDepth = m.exec image maxDepth i ∧
      m.Performs i (m.step image maxDepth)
  /-- To overwrite an operand of one is to have written that operand. -/
  patched {before after : List (Opcode × List UInt16)} {op : Opcode} {ws : List UInt16} {k : Nat}
    (hps : ps = before ++ (op, ws) :: after) (hk : k < ws.length) (w : UInt16) :
    (c.writeAll ps).patchWord? ((c.writeAll before).code.size + 1 + 2 * k) w =
      some (c.writeAll (before ++ (op, ws.set k w) :: after))

theorem readBack_writeAll (c : Chunk) {ps : List (Opcode × List UInt16)}
    (hps : ∀ p ∈ ps, p.2.length = p.1.operandCount) : c.ReadBack ps := by
  have hlisted := linesFrom_parts hps (c.code_writeAll ps)
  obtain ⟨is, rfl⟩ := exists_map_parts hps
  have hcode := c.code_writeAll (is.map Instr.parts)
  rw [partsBytes_map] at hcode
  have hdecoded := decode_flatMap hcode
  refine ⟨hdecoded, hlisted, ?_, ?_⟩
  · intro offset p hp image maxDepth m hm hip
    rw [Array.length_toList] at hdecoded
    rw [← hdecoded] at hp
    obtain ⟨x, hx, hxp⟩ := List.mem_map.1 hp
    cases hxp
    refine ⟨x.2, rfl, Machine.performs_step ?_⟩
    rw [hm, hip]
    exact fetch_of_mem_decode hx
  · rintro before after op ws k h hk w
    rw [h]
    exact patchWord?_writeAll c before after op hk w

/-- Writing and reading code agree. Instructions that are written, with as many operands as their
opcodes take, are found again by the machine and in the listing, at the same offsets. Of any bytes,
tables and notes whatsoever there is a listing, made of bytes inside the code only: its rows follow
one another from the first byte to the last, each prints what its own bytes are, and only the last
can be an instruction that is cut off. -/
theorem readers_agree (c : Chunk) :
    (∀ ps : List (Opcode × List UInt16), (∀ p ∈ ps, p.2.length = p.1.operandCount) →
      c.ReadBack ps) ∧
    (∀ offset, (c.lineAt offset).isSome ↔ offset < c.code.size) ∧
    ∃ rows : List Row,
      c.listing = s!"== {c.name} ({c.registers} registers) ==\n" ++
        String.join (rows.map (Row.text c)) ∧
      c.Listed 0 rows ∧ Row.Follow 0 rows c.code.size ∧
      ∀ k < c.code.size, ∃! row, row ∈ rows ∧ row.start ≤ k ∧ k < row.stop := by
  have hcode : c.code.toList = [] ++ c.code.toList := rfl
  obtain ⟨rows, hlines, hlisted⟩ := exists_listed hcode
  refine ⟨fun ps hps => c.readBack_writeAll hps, c.isSome_lineAt_iff, rows, ?_, hlisted,
    hlisted.follow, fun k hk => hlisted.follow.existsUnique (Nat.zero_le k) hk⟩
  rw [listing, show c.linesFrom 0 = rows.map (Row.line c) from hlines, List.map_map]
  rfl

/-- Starts over as long as a register holds zero, and returns another. -/
def spin : List (Opcode × List UInt16) := [(.jmpIfFalse, [3, 0]), (.ret, [258])]

theorem readers_agree_spin : (∀ p ∈ spin, p.2.length = p.1.operandCount) ∧
    Chunk.ReadBack { name := "f" } spin :=
  have hspin : ∀ p ∈ spin, p.2.length = p.1.operandCount := by decide
  ⟨hspin, (readers_agree { name := "f" }).1 spin hspin⟩

end Bytecode.Chunk

end ScalarLang
