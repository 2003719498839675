import ScalarLang.Proofs.IR.Naming

/-! The text of a function is a template that is filled with the names of its entities. The template
refers to the entities themselves, so it says what each name in the text stands for; it has no words
for references that lead nowhere, and a function that is well put together needs none. -/

namespace ScalarLang.IR

/-! ### Templates -/

/-- A piece of a text: words that stand there as they are, or the place of a name. -/
inductive Fragment where
  | words (text : String)
  | name (e : Entity)
  deriving DecidableEq

namespace Fragment

def fill (name : Entity → String) : List Fragment → String
  | [] => ""
  | .words text :: rest => text ++ fill name rest
  | .name e :: rest => name e ++ fill name rest

def separated (parts : List (List Fragment)) : List Fragment := [.words ", "].intercalate parts

/-- A name as it stands in code. -/
def ref (e : Entity) : List Fragment := [.words "%", .name e]

variable {name : Entity → String}

@[simp] theorem fill_nil : fill name [] = "" := rfl

@[simp] theorem fill_words (text : String) (t : List Fragment) :
    fill name (.words text :: t) = text ++ fill name t := rfl

@[simp] theorem fill_name (e : Entity) (t : List Fragment) :
    fill name (.name e :: t) = name e ++ fill name t := rfl

@[simp] theorem fill_append (s t : List Fragment) :
    fill name (s ++ t) = fill name s ++ fill name t := by
  induction s with
  | nil => simp
  | cons x s ih => cases x <;> simp [ih, String.append_assoc]

@[simp] theorem fill_ref (e : Entity) : fill name (ref e) = "%" ++ name e := by
  simp [ref]

section Lists

variable {α : Type} {l : List α} {text : α → String} {t : α → List Fragment}

theorem join_eq_fill (h : ∀ x ∈ l, text x = fill name (t x)) :
    String.join (l.map text) = fill name (l.flatMap t) := by
  induction l with
  | nil => rfl
  | cons x l ih =>
    obtain ⟨hx, hl⟩ := List.forall_mem_cons.1 h
    rw [List.map_cons, String.join_cons, hx, ih hl, List.flatMap_cons, fill_append]

theorem commaSeparated_eq_fill (h : ∀ x ∈ l, text x = fill name (t x)) :
    commaSeparated (l.map text) = fill name (separated (l.map t)) := by
  induction l with
  | nil => rfl
  | cons x l ih =>
    obtain ⟨hx, hl⟩ := List.forall_mem_cons.1 h
    cases l with
    | nil => simp [separated, commaSeparated, hx]
    | cons y l =>
      have ih : ", ".intercalate (text y :: l.map text) = _ := ih hl
      simp only [separated, commaSeparated, List.map_cons, List.intercalate_cons_cons,
        String.intercalate_cons_cons, hx, ih, fill_append, fill_words, fill_nil,
        String.append_empty]

end Lists

theorem mem_separated {x : Fragment} {parts : List (List Fragment)} (hx : x ≠ .words ", ") :
    x ∈ separated parts ↔ ∃ t ∈ parts, x ∈ t := by
  induction parts with
  | nil => simp [separated]
  | cons s parts ih =>
    cases parts with
    | nil => simp [separated]
    | cons t parts =>
      rw [separated, List.intercalate_cons_cons, ← separated, List.mem_append, ih]
      simp [hx]

end Fragment

open Fragment

def Operand.template : Operand → List Fragment
  | .inst i => ref (.inst i)
  | .arg n => ref (.arg n)
  | .const v => [.words (doubleText v)]
  | .bool b => [.words (if b then "true" else "false")]

def Operation.template : Operation → List Fragment
  | binary op l r => .words (op.text ++ " double ") :: l.template ++ .words ", " :: r.template
  | compare test l r =>
    .words ("fcmp " ++ test.text ++ " double ") :: l.template ++ .words ", " :: r.template
  | toDouble v => .words "uitofp i1 " :: v.template ++ [.words " to double"]
  | load s => .words "load double, double* " :: ref (.slot s)
  | store s v => .words "store double " :: v.template ++ .words ", double* " :: ref (.slot s)
  | call callee args =>
    .words ("call double @" ++ callee ++ "(") ::
      separated (args.map fun v => .words "double " :: v.template) ++ [.words ")"]
  | phi incoming =>
    .words "phi double " :: separated (incoming.map fun p =>
      .words "[ " :: p.1.template ++ .words ", " :: ref (.block p.2) ++ [.words " ]"])

def Terminator.template : Terminator → List Fragment
  | br target => .words "  br label " :: ref (.block target) ++ [.words "\n"]
  | condBr cond yes no =>
    .words "  br i1 " :: cond.template ++ .words ", label " :: ref (.block yes) ++
      .words ", label " :: ref (.block no) ++ [.words "\n"]
  | ret value => .words "  ret double " :: value.template ++ [.words "\n"]

namespace Func

def paramsTemplate (f : Func) : List Fragment :=
  separated (f.args.map fun e => [.words "double %", .name e])

def slotsTemplate (f : Func) : List Fragment :=
  f.usedSlots.flatMap fun e => [.words "  %", .name e, .words " = alloca double\n"]

def instTemplate (f : Func) (i : InstId) : List Fragment :=
  .words "  " :: (if f.hasResult i then ref (.inst i) ++ [.words " = "] else []) ++
    (f.op i).template ++ [.words "\n"]

/-- A block that starts with the lines given. -/
def blockTemplate (f : Func) (lines : List Fragment) (b : BlockId) : List Fragment :=
  .name (.block b) :: .words ":\n" :: lines ++ (f.block b).insts.flatMap f.instTemplate ++
    ((f.block b).terminator.map Terminator.template).getD []

/-- The text of a function without its names. -/
def template (f : Func) : List Fragment :=
  match f.layout with
  | [] => .words ("declare double @" ++ f.name ++ "(") :: f.paramsTemplate ++ [.words ")\n"]
  | first :: rest =>
    .words ("define double @" ++ f.name ++ "(") :: f.paramsTemplate ++ .words ") \x7b\n" ::
      f.blockTemplate f.slotsTemplate first ++
      (rest.flatMap fun b => .words "\n" :: f.blockTemplate [] b) ++ [.words "\x7d\n"]

end Func

/-! ### What a template mentions -/

namespace Func

/-- Every name that the template asks for is that of an entity of the function. -/
def Covers (f : Func) (t : List Fragment) : Prop := ∀ e, .name e ∈ t → e ∈ f.entities

variable {f : Func}

@[simp] theorem covers_nil : f.Covers [] := by simp [Covers]

@[simp] theorem covers_words {text : String} {t : List Fragment} :
    f.Covers (.words text :: t) ↔ f.Covers t := by simp [Covers]

@[simp] theorem covers_name {e : Entity} {t : List Fragment} :
    f.Covers (.name e :: t) ↔ e ∈ f.entities ∧ f.Covers t := by simp [Covers]

@[simp] theorem covers_ref {e : Entity} : f.Covers (ref e) ↔ e ∈ f.entities := by simp [ref]

@[simp] theorem covers_append {s t : List Fragment} :
    f.Covers (s ++ t) ↔ f.Covers s ∧ f.Covers t := by
  simp [Covers, or_imp, forall_and]

@[simp] theorem covers_flatMap {α : Type} {l : List α} {g : α → List Fragment} :
    f.Covers (l.flatMap g) ↔ ∀ x ∈ l, f.Covers (g x) := by
  simp only [Covers, List.mem_flatMap]
  grind

@[simp] theorem covers_separated {parts : List (List Fragment)} :
    f.Covers (separated parts) ↔ ∀ t ∈ parts, f.Covers t := by
  simp only [Covers, mem_separated (show Fragment.name _ ≠ .words ", " by simp)]
  grind

theorem covers_operand {v : Operand} {type : Ty} (h : f.Fits v type) : f.Covers v.template := by
  cases v with
  | inst i =>
    obtain ⟨hlive, -, htype⟩ := h
    exact covers_ref.2 (inst_mem_entities.2 ⟨hlive, by rw [hasResult, htype]; rfl⟩)
  | arg n => exact covers_ref.2 (arg_mem_entities.2 h.1)
  | _ => simp [Operand.template]

theorem operandType_of_fits {v : Operand} {type : Ty} (h : f.Fits v type) :
    f.operandType v = some type := by
  cases v with
  | inst i => exact h.2.2
  | arg n => rw [h.2, operandType]
  | const x => rw [operandType, show type = .double from h]
  | bool b => rw [operandType, show type = .bit from h]

section Verified

variable (hf : f.Verified)
include hf

theorem Verified.covers_op {b : BlockId} {i : InstId} (hb : b ∈ f.layout)
    (hi : i ∈ (f.block b).insts) : f.Covers (f.op i).template := by
  have hlive : i ∈ f.live := mem_live.2 ⟨b, hb, hi⟩
  have operand {v : Operand} (hv : v ∈ (f.op i).operands) : f.Covers v.template := by
    obtain ⟨type, hfits⟩ := hf.exists_fits (mem_usedOperands.2 (.inl ⟨b, hb, i, hi, hv⟩))
    exact covers_operand hfits
  have slot {s : SlotId} (hs : (f.op i).slot? = some s) : .slot s ∈ f.entities :=
    slot_mem_entities.2 ⟨hf.slot_lt hb hi hs, hf.isUsed_slot hlive hs⟩
  cases ho : f.op i with
  | phi incoming =>
    have source {p : Operand × BlockId} (hp : p ∈ incoming) : .block p.2 ∈ f.entities := by
      have hpred := (hf.phi_sources hb hi ho).subset (List.mem_map_of_mem hp)
      exact block_mem_entities.2 (mem_preds.1 hpred).1
    simp only [ho, Operation.operands] at operand
    simp only [Operation.template, covers_words, covers_separated, List.forall_mem_map,
      covers_append, covers_ref, covers_nil, and_true]
    exact fun p hp => ⟨operand (List.mem_map_of_mem hp), source hp⟩
  | _ => simp_all [Operation.template, Operation.operands, Operation.slot?]

theorem Verified.covers_terminator {b : BlockId} {t : Terminator} (hb : b ∈ f.layout)
    (ht : (f.block b).terminator = some t) : f.Covers t.template := by
  have operand {v : Operand} (hv : v ∈ t.operands) : f.Covers v.template := by
    obtain ⟨type, hfits⟩ := hf.exists_fits (mem_usedOperands.2 (.inr ⟨b, hb, t, ht, hv⟩))
    exact covers_operand hfits
  have target {c : BlockId} (hc : c ∈ t.successors) : .block c ∈ f.entities :=
    block_mem_entities.2 (hf.successor_mem hb (by simpa [successors, ht] using hc))
  cases t <;> simp_all [Terminator.template, Terminator.operands, Terminator.successors]

theorem Verified.covers_block {b : BlockId} {lines : List Fragment} (hb : b ∈ f.layout)
    (hlines : f.Covers lines) : f.Covers (f.blockTemplate lines b) := by
  have hinst : ∀ i ∈ (f.block b).insts, f.Covers (f.instTemplate i) := by
    intro i hi
    have hop := hf.covers_op hb hi
    have hlive : i ∈ f.live := mem_live.2 ⟨b, hb, hi⟩
    cases hres : f.hasResult i <;> simp [instTemplate, hres, hop, inst_mem_entities, hlive]
  obtain ⟨t, ht⟩ := Option.isSome_iff_exists.1 (hf.terminated hb)
  have hterminator := hf.covers_terminator hb ht
  simpa [blockTemplate, ht, block_mem_entities, hb, hlines, hterminator] using hinst

theorem Verified.covers_template : f.Covers f.template := by
  have hparams : f.Covers f.paramsTemplate := by
    simp only [paramsTemplate, args, covers_separated, List.forall_mem_map, covers_words,
      covers_name, covers_nil, and_true, arg_mem_entities, List.mem_range, imp_self, implies_true]
  have hslots : f.Covers f.slotsTemplate := by
    simp only [slotsTemplate, usedSlots, covers_flatMap, List.forall_mem_map, covers_words,
      covers_name, covers_nil, and_true, slot_mem_entities, List.mem_filter, List.mem_range,
      imp_self, implies_true]
  rw [template]
  split
  · simp [hparams]
  · next first rest hlayout =>
    have hblock {b : BlockId} {lines : List Fragment} (hb : b ∈ first :: rest)
        (hlines : f.Covers lines) : f.Covers (f.blockTemplate lines b) :=
      hf.covers_block (hlayout ▸ hb) hlines
    simp only [List.cons_append, covers_words, covers_append, covers_flatMap, covers_nil]
    exact ⟨⟨⟨hparams, hblock List.mem_cons_self hslots⟩,
      fun b hb => hblock (List.mem_cons_of_mem _ hb) covers_nil⟩, trivial⟩

omit hf in
/-- Every laid out block is printed. -/
theorem exists_blockTemplate_subset {b : BlockId} (hb : b ∈ f.layout) :
    ∃ lines, f.blockTemplate lines b ⊆ f.template := by
  rw [template]
  split
  · next hlayout => simp [hlayout] at hb
  · next first rest hlayout =>
    rw [hlayout, List.mem_cons] at hb
    rcases hb with rfl | hb
    · exact ⟨f.slotsTemplate, fun x hx => by simp [hx]⟩
    · refine ⟨[], fun x hx => ?_⟩
      have hrest : x ∈ rest.flatMap fun b => .words "\n" :: f.blockTemplate [] b :=
        List.mem_flatMap.2 ⟨b, hb, List.mem_cons_of_mem _ hx⟩
      simp [hrest]

/-- The names in the template of a function are those of its entities. -/
theorem Verified.mem_template {e : Entity} : .name e ∈ f.template ↔ e ∈ f.entities := by
  refine ⟨hf.covers_template e, fun he => ?_⟩
  cases e with
  | arg n =>
    have hparam : .name (.arg n) ∈ f.paramsTemplate := by
      rw [paramsTemplate, mem_separated (by simp)]
      exact ⟨[.words "double %", .name (.arg n)], by simpa [args] using arg_mem_entities.1 he,
        by simp⟩
    rw [template]
    split <;> simp [hparam]
  | slot s =>
    obtain ⟨hs, hused⟩ := slot_mem_entities.1 he
    have hslot : .name (.slot s) ∈ f.slotsTemplate :=
      List.mem_flatMap.2 ⟨.slot s, by simp [usedSlots, hs, hused], by simp⟩
    rw [template]
    split
    · next hlayout =>
      -- without code no slot is used
      rw [isUsedSlot, slotUsage_getD hs, live, hlayout] at hused
      simp [SlotUsage.isUsed] at hused
    · simp [hslot, blockTemplate]
  | block b =>
    obtain ⟨lines, hsub⟩ := exists_blockTemplate_subset (block_mem_entities.1 he)
    exact hsub (by simp [blockTemplate])
  | inst i =>
    obtain ⟨hlive, hres⟩ := inst_mem_entities.1 he
    obtain ⟨b, hb, hi⟩ := mem_live.1 hlive
    obtain ⟨lines, hsub⟩ := exists_blockTemplate_subset hb
    have hinst : .name (.inst i) ∈ (f.block b).insts.flatMap f.instTemplate :=
      List.mem_flatMap.2 ⟨i, hi, by simp [instTemplate, hres, ref]⟩
    exact hsub (by simp [blockTemplate, hinst])

/-! ### The text is the filled template -/

theorem Verified.operand_eq {v : Operand} (h : f.Covers v.template) :
    (Names.ofFunc f).operand v = fill f.nameOf v.template := by
  cases v with
  | inst i =>
    have hname : (Names.ofFunc f).insts.getD i none = some (f.nameOf (.inst i)) :=
      hf.name?_eq (covers_ref.1 h)
    rw [Names.operand, hname, Option.getD_some, Operand.template, fill_ref]
  | arg n =>
    have hname : (Names.ofFunc f).args[n]? = some (f.nameOf (.arg n)) :=
      hf.name?_eq (covers_ref.1 h)
    rw [Names.operand, Array.getD_eq_getD_getElem?, hname, Option.getD_some, Operand.template,
      fill_ref]
  | _ => simp [Names.operand, Operand.template]

theorem Verified.slot_eq {s : SlotId} (h : .slot s ∈ f.entities) :
    (Names.ofFunc f).slot s = fill f.nameOf (ref (.slot s)) := by
  have hname : (Names.ofFunc f).slots.getD s none = some (f.nameOf (.slot s)) := hf.name?_eq h
  rw [Names.slot, hname, Option.getD_some, fill_ref]

theorem Verified.label_eq {b : BlockId} (h : .block b ∈ f.entities) :
    (Names.ofFunc f).label b = f.nameOf (.block b) := by
  have hname : (Names.ofFunc f).blocks.getD b none = some (f.nameOf (.block b)) := hf.name?_eq h
  rw [Names.label, hname, Option.getD_some]

theorem Verified.block_eq {b : BlockId} (h : .block b ∈ f.entities) :
    (Names.ofFunc f).block b = fill f.nameOf (ref (.block b)) := by
  rw [Names.block, hf.label_eq h, fill_ref]

theorem Verified.text_op {op : Operation} (h : f.Covers op.template) :
    op.text (Names.ofFunc f) = fill f.nameOf op.template := by
  cases op with
  | binary op l r =>
    obtain ⟨hl, hr⟩ : f.Covers l.template ∧ f.Covers r.template := by
      simpa [Operation.template] using h
    change op.text ++ " double " ++ (Names.ofFunc f).operand l ++ ", " ++
      (Names.ofFunc f).operand r = _
    rw [hf.operand_eq hl, hf.operand_eq hr]
    simp [Operation.template, String.append_assoc]
  | compare test l r =>
    obtain ⟨hl, hr⟩ : f.Covers l.template ∧ f.Covers r.template := by
      simpa [Operation.template] using h
    change "fcmp " ++ test.text ++ " double " ++ (Names.ofFunc f).operand l ++ ", " ++
      (Names.ofFunc f).operand r = _
    rw [hf.operand_eq hl, hf.operand_eq hr]
    simp [Operation.template, String.append_assoc]
  | toDouble v =>
    have hv : f.Covers v.template := by simpa [Operation.template] using h
    change "uitofp i1 " ++ (Names.ofFunc f).operand v ++ " to double" = _
    rw [hf.operand_eq hv]
    simp [Operation.template, String.append_assoc]
  | load s =>
    have hs : .slot s ∈ f.entities := by simpa [Operation.template] using h
    change "load double, double* " ++ (Names.ofFunc f).slot s = _
    rw [hf.slot_eq hs, Operation.template, fill_words]
  | store s v =>
    obtain ⟨hv, hs⟩ : f.Covers v.template ∧ .slot s ∈ f.entities := by
      simpa [Operation.template] using h
    change "store double " ++ (Names.ofFunc f).operand v ++ ", double* " ++
      (Names.ofFunc f).slot s = _
    rw [hf.operand_eq hv, hf.slot_eq hs]
    simp [Operation.template, String.append_assoc]
  | call callee args =>
    have hargs : ∀ v ∈ args, f.Covers v.template := by simpa [Operation.template] using h
    have htexts : commaSeparated (args.map fun v => "double " ++ (Names.ofFunc f).operand v) =
        fill f.nameOf (separated (args.map fun v => .words "double " :: v.template)) := by
      refine commaSeparated_eq_fill fun v hv => ?_
      rw [hf.operand_eq (hargs v hv), fill_words]
    change "call double @" ++ callee ++ "(" ++
      commaSeparated (args.map fun v => "double " ++ (Names.ofFunc f).operand v) ++ ")" = _
    rw [htexts]
    simp [Operation.template, String.append_assoc]
  | phi incoming =>
    have hpairs : ∀ p ∈ incoming, f.Covers p.1.template ∧ .block p.2 ∈ f.entities := by
      simpa only [Operation.template, covers_words, covers_separated, List.forall_mem_map,
        List.cons_append, covers_append, covers_ref, covers_nil, and_true] using h
    change "phi double " ++ commaSeparated (incoming.map fun p =>
      "[ " ++ (Names.ofFunc f).operand p.1 ++ ", " ++ (Names.ofFunc f).block p.2 ++ " ]") = _
    rw [Operation.template, fill_words]
    congr 1
    refine commaSeparated_eq_fill fun p hp => ?_
    rw [hf.operand_eq (hpairs p hp).1, hf.block_eq (hpairs p hp).2]
    simp [String.append_assoc]

theorem Verified.text_terminator {b : BlockId} (hb : b ∈ f.layout) :
    terminatorText f (Names.ofFunc f) (f.block b).terminator =
      fill f.nameOf (((f.block b).terminator.map Terminator.template).getD []) := by
  obtain ⟨t, ht⟩ := Option.isSome_iff_exists.1 (hf.terminated hb)
  have h := hf.covers_terminator hb ht
  rw [ht, Option.map_some, Option.getD_some]
  cases t with
  | br target =>
    have htarget : .block target ∈ f.entities := by simpa [Terminator.template] using h
    change "  br label " ++ (Names.ofFunc f).block target ++ "\n" = _
    rw [hf.block_eq htarget]
    simp [Terminator.template, String.append_assoc]
  | condBr cond yes no =>
    obtain ⟨hcond, hyes, hno⟩ : f.Covers cond.template ∧ .block yes ∈ f.entities ∧
        .block no ∈ f.entities := by simpa [Terminator.template] using h
    change "  br i1 " ++ (Names.ofFunc f).operand cond ++ ", label " ++
      (Names.ofFunc f).block yes ++ ", label " ++ (Names.ofFunc f).block no ++ "\n" = _
    rw [hf.operand_eq hcond, hf.block_eq hyes, hf.block_eq hno]
    simp [Terminator.template, String.append_assoc]
  | ret value =>
    have hvalue : f.Covers value.template := by simpa [Terminator.template] using h
    have htype : (f.operandType value).getD .double = .double := by
      rw [operandType_of_fits (hf.fits_terminator hb ht (List.mem_singleton_self _)),
        Option.getD_some]
    change "  ret " ++ ((f.operandType value).getD .double).text ++ " " ++
      (Names.ofFunc f).operand value ++ "\n" = _
    rw [htype, hf.operand_eq hvalue]
    simp [Terminator.template, Ty.text, String.append_assoc]

omit hf in
theorem instText_eq (f : Func) (names : Names) (i : InstId) :
    instText f names i =
      "  " ++ ((names.insts.getD i none).elim "" fun name => "%" ++ name ++ " = ") ++
        (f.op i).text names ++ "\n" := by
  unfold instText
  cases names.insts.getD i none <;> rfl

theorem Verified.text_inst {b : BlockId} {i : InstId} (hb : b ∈ f.layout)
    (hi : i ∈ (f.block b).insts) :
    instText f (Names.ofFunc f) i = fill f.nameOf (f.instTemplate i) := by
  rw [instText_eq, hf.text_op (hf.covers_op hb hi), instTemplate]
  cases hres : f.hasResult i with
  | true =>
    have hname : (Names.ofFunc f).insts.getD i none = some (f.nameOf (.inst i)) :=
      hf.name?_eq (inst_mem_entities.2 ⟨mem_live.2 ⟨b, hb, hi⟩, hres⟩)
    simp [hname, String.append_assoc]
  | false =>
    have hnone : .inst i ∉ f.entities := by simp [inst_mem_entities, hres]
    have hname : (Names.ofFunc f).insts.getD i none = none := hf.name?_eq_none hnone
    simp [hname, String.append_assoc]

theorem Verified.text_params :
    commaSeparated ((Names.ofFunc f).args.toList.map fun name => s!"double %{name}") =
      fill f.nameOf f.paramsTemplate := by
  have hargs : (Names.ofFunc f).args.toList = f.args.map f.nameOf := by
    refine List.ext_getElem? fun n => ?_
    by_cases hn : n < f.arity
    · have hname : (Names.ofFunc f).args[n]? = some (f.nameOf (.arg n)) :=
        hf.name?_eq (arg_mem_entities.2 hn)
      simp [hname, args, hn]
    · have hname : (Names.ofFunc f).args[n]? = none := hf.name?_eq_none (mt arg_mem_entities.1 hn)
      simp [hname, args, hn]
  rw [hargs, List.map_map, paramsTemplate]
  refine commaSeparated_eq_fill fun e _ => ?_
  change "double %" ++ f.nameOf e = _
  simp

omit hf in
theorem slotTexts_eq (names : Names) : slotTexts names =
    String.join ((List.range names.slots.size).map fun s =>
      (names.slots.getD s none).elim "" fun name => "  %" ++ name ++ " = alloca double\n") := by
  have hslots : names.slots.toList =
      (List.range names.slots.size).map fun s => names.slots.getD s none :=
    List.ext_getElem (by simp) fun s hs _ => by
      simp [Array.getElem?_eq_getElem (show s < names.slots.size by simpa using hs)]
  rw [slotTexts, hslots, List.map_map]
  congr 1
  refine List.map_congr_left fun s _ => ?_
  rw [Function.comp_apply]
  cases names.slots.getD s none <;> rfl

omit hf in
theorem slotsTemplate_eq : f.slotsTemplate = (List.range f.slots.size).flatMap fun s =>
    if f.isUsedSlot s then [.words "  %", .name (.slot s), .words " = alloca double\n"]
    else [] := by
  rw [slotsTemplate, usedSlots, List.flatMap_map]
  induction List.range f.slots.size with
  | nil => rfl
  | cons s l ih =>
    cases hused : f.isUsedSlot s with
    | true => simp [hused, ih]
    | false => simp [hused, ih]

theorem Verified.text_slots : slotTexts (Names.ofFunc f) = fill f.nameOf f.slotsTemplate := by
  rw [slotTexts_eq, slotsTemplate_eq, Names.size_slots_ofFunc]
  refine join_eq_fill fun s hs => ?_
  rw [List.mem_range] at hs
  cases hused : f.isUsedSlot s with
  | true =>
    have hname : (Names.ofFunc f).slots.getD s none = some (f.nameOf (.slot s)) :=
      hf.name?_eq (slot_mem_entities.2 ⟨hs, hused⟩)
    rw [hname]
    simp [String.append_assoc]
  | false =>
    have hnone : .slot s ∉ f.entities := by simp [slot_mem_entities, hused]
    have hname : (Names.ofFunc f).slots.getD s none = none := hf.name?_eq_none hnone
    rw [hname]
    rfl

theorem Verified.text_block {b : BlockId} (hb : b ∈ f.layout) (first : Bool) :
    blockText f (Names.ofFunc f) first b =
      (if first then "" else "\n") ++
        fill f.nameOf (f.blockTemplate (if first then f.slotsTemplate else []) b) := by
  rw [blockText, hf.label_eq (block_mem_entities.2 hb), hf.text_terminator hb, hf.text_slots,
    join_eq_fill fun i hi => hf.text_inst hb hi]
  cases first <;> simp [blockTemplate, String.append_assoc]

theorem Verified.text_eq : f.text = fill f.nameOf f.template := by
  rw [text, template]
  cases hlayout : f.layout with
  | nil =>
    change "declare double @" ++ f.name ++ "(" ++ commaSeparated _ ++ ")\n" = _
    rw [hf.text_params]
    simp [String.append_assoc]
  | cons first rest =>
    have hfirst := hf.text_block (b := first) (hlayout ▸ List.mem_cons_self) true
    have hrest : String.join (rest.map (blockText f (Names.ofFunc f) false)) =
        fill f.nameOf (rest.flatMap fun b => .words "\n" :: f.blockTemplate [] b) := by
      refine join_eq_fill fun b hb => ?_
      rw [hf.text_block (hlayout ▸ List.mem_cons_of_mem _ hb)]
      rfl
    change "define double @" ++ f.name ++ "(" ++ commaSeparated _ ++ ") \x7b\n" ++ _ ++ _ ++ _ = _
    rw [hf.text_params, hfirst, hrest]
    simp [String.append_assoc]

theorem Verified.isPrintable : f.isPrintable := by
  simp only [Func.isPrintable, Bool.and_eq_true, List.all_eq_true, decide_eq_true_eq]
  refine ⟨⟨hf.slotsExist, fun v hv => ?_⟩, fun c hc => ?_⟩
  · obtain ⟨type, hfits⟩ := hf.exists_fits hv
    cases v with
    | inst i => simpa [operandExists] using hfits.2.1
    | arg n => simpa [operandExists] using hfits.1
    | _ => rfl
  · refine hf.block_lt ?_
    obtain ⟨b, hb, hc⟩ := List.mem_flatMap.1 hc
    rcases List.mem_append.1 hc with hc | hc
    · obtain ⟨i, hi, hc⟩ := List.mem_flatMap.1 hc
      split at hc
      · next incoming ho => exact (mem_preds.1 ((hf.phi_sources hb hi ho).subset hc)).1
      · simp at hc
    · exact hf.successor_mem hb hc

end Verified

/-- In the text of a function that is well put together each name stands for one thing. Whatever
the hints are, the search for a free number ends at the first one; no two entities have the same
name; and the text is the template filled with the names of the entities that it refers to. -/
theorem text_unambiguous (hf : f.verify = .ok ()) (hlayout : f.layout.Nodup)
    (hlive : f.live.Nodup) :
    (∀ (used : Std.HashSet String) (s : String) (n : Nat),
      IsLeast {k : Nat | n < k ∧ s ++ toString k ∉ used} (Namer.search used s used.size n)) ∧
    (∀ e, (Names.ofFunc f).name? e = if e ∈ f.entities then some (f.nameOf e) else none) ∧
    (f.entities.map f.nameOf).Nodup ∧
    (∀ e ∈ f.entities, Namer.Suits (f.hint e) (f.nameOf e)) ∧
    f.text? = some (fill f.nameOf f.template) ∧
    ∀ e, .name e ∈ f.template ↔ e ∈ f.entities := by
  have hf := verify_eq_ok.1 hf
  refine ⟨fun used s n => Namer.isLeast_search (Namer.exists_free used s n), fun e => ?_,
    hf.nodup_names hlayout hlive, fun e he => hf.suits_nameOf he, ?_, fun e => hf.mem_template⟩
  · split
    · next he => exact hf.name?_eq he
    · next he => exact hf.name?_eq_none he
  · rw [text?, if_pos hf.isPrintable, hf.text_eq]

/-- Two blocks, two arguments and two slots want the name `x`, other parts want a name that a
numbered `x` has taken, and some want none. -/
def tangled : Func where
  name := "x"
  params := ["x", "x", "x1", ""]
  slots := #["x", "x", "x2"]
  insts := #[⟨.store 0 (.arg 1), ""⟩, ⟨.load 0, "x1"⟩, ⟨.compare .ult (.inst 1) (.arg 2), ""⟩,
    ⟨.binary .add (.inst 1) (.arg 3), "tmp1"⟩, ⟨.phi [(.inst 3, 1), (.arg 0, 0)], "tmp"⟩,
    ⟨.call "x" [.inst 4, .inst 1, .arg 0, .arg 1], "x2"⟩]
  blocks := #[⟨"x", [0, 1, 2], some (.condBr (.inst 2) 1 2)⟩, ⟨"", [3], some (.br 2)⟩,
    ⟨"x", [4, 5], some (.ret (.inst 5))⟩]
  layout := [0, 1, 2]

theorem text_unambiguous_tangled :
    tangled.verify = .ok () ∧ tangled.layout.Nodup ∧ tangled.live.Nodup ∧
    tangled.entities = [.arg 0, .arg 1, .arg 2, .arg 3, .slot 0, .block 0, .inst 1, .inst 2,
      .block 1, .inst 3, .block 2, .inst 4, .inst 5] ∧
    (tangled.entities.map tangled.nameOf).Nodup ∧
    (∀ e ∈ tangled.entities, Namer.Suits (tangled.hint e) (tangled.nameOf e)) ∧
    tangled.text? = some (fill tangled.nameOf tangled.template) := by
  have hf : tangled.verify = .ok () := by decide +kernel
  have hlayout : tangled.layout.Nodup := by decide
  have hlive : tangled.live.Nodup := by decide
  obtain ⟨-, -, hnames, hsuits, htext, -⟩ := text_unambiguous hf hlayout hlive
  exact ⟨hf, hlayout, hlive, by decide +kernel, hnames, hsuits, htext⟩

end Func

end ScalarLang.IR
