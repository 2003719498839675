import Mathlib.Order.Bounds.Basic
import ScalarLang.IR.Printer
import ScalarLang.Proofs.IR.Usage

/-! The names of a function's parts. All the parts that are named can be listed in the order in
which they get their names, and the arrays of names are what a single run over that list gives
away. One step of the run takes a name that is not in use, so no two parts share a name. -/

namespace ScalarLang.IR

/-! ### Free names -/

namespace Namer

/-- The name that is tried first. -/
def wanted (hint : String) : String := if hint.isEmpty then "tmp" else hint

/-- The wanted name, or one made of it by a number. -/
def Suits (hint name : String) : Prop :=
  name = wanted hint ∨ ∃ n : Nat, 0 < n ∧ name = wanted hint ++ toString n

theorem numbered_injective (s : String) : Function.Injective fun n : Nat => s ++ toString n := by
  intro m n h
  have hdigits : Nat.toDigits 10 m = Nat.toDigits 10 n := by
    have hnumber := (String.append_right_inj s).1 h
    rwa [Nat.toString_eq_ofList_toDigits, Nat.toString_eq_ofList_toDigits,
      String.ofList_inj] at hnumber
  calc m = Nat.ofDigitChars 10 (Nat.toDigits 10 m) 0 := Nat.ofDigitChars_ten_toDigits.symm
    _ = Nat.ofDigitChars 10 (Nat.toDigits 10 n) 0 := by rw [hdigits]
    _ = n := Nat.ofDigitChars_ten_toDigits

/-- Names that are numbered differently differ, so one more number than there are names in use
gives a free one. -/
theorem exists_free (used : Std.HashSet String) (s : String) (n : Nat) :
    ∃ k, n < k ∧ k ≤ n + used.size + 1 ∧ s ++ toString k ∉ used := by
  by_contra hnone
  push Not at hnone
  let names := (List.range' (n + 1) (used.size + 1)).map fun k => s ++ toString k
  have hnodup : names.Nodup := (List.nodup_range' ..).map (numbered_injective s)
  have hsub : names ⊆ used.toList := by
    intro name hname
    obtain ⟨k, hk, rfl⟩ := List.mem_map.1 hname
    rw [List.mem_range'_1] at hk
    exact Std.HashSet.mem_toList.2 (hnone k (by omega) (by omega))
  have hle := (List.subperm_of_subset hnodup hsub).length_le
  simp only [names, List.length_map, List.length_range', Std.HashSet.length_toList] at hle
  omega

theorem isLeast_search {used : Std.HashSet String} {s : String} {tries n : Nat}
    (h : ∃ k, n < k ∧ k ≤ n + tries + 1 ∧ s ++ toString k ∉ used) :
    IsLeast {k : Nat | n < k ∧ s ++ toString k ∉ used} (search used s tries n) := by
  induction tries generalizing n with
  | zero =>
    obtain ⟨k, hlt, hle, hk⟩ := h
    obtain rfl : k = n + 1 := by omega
    exact ⟨⟨hlt, hk⟩, fun j hj => hj.1⟩
  | succ tries ih =>
    simp only [search, Std.HashSet.contains_iff_mem]
    split
    · next hused =>
      -- the number after `n` is taken, so what is free after `n` is free after it
      have hnext {k : Nat} (hlt : n < k) (hk : s ++ toString k ∉ used) : n + 1 < k := by
        refine Nat.lt_of_le_of_ne hlt fun he => hk ?_
        rwa [← he]
      obtain ⟨k, hlt, hle, hk⟩ := h
      obtain ⟨⟨hgt, hfree⟩, hleast⟩ := ih ⟨k, hnext hlt hk, by omega, hk⟩
      exact ⟨⟨by omega, hfree⟩, fun j hj => hleast ⟨hnext hj.1 hj.2, hj.2⟩⟩
    · next hfree => exact ⟨⟨Nat.lt_succ_self n, hfree⟩, fun j hj => hj.1⟩

variable (namer : Namer) (hint : String)

theorem search_free (s : String) (n : Nat) :
    n < search namer.used s namer.used.size n ∧
      s ++ toString (search namer.used s namer.used.size n) ∉ namer.used :=
  (isLeast_search (exists_free namer.used s n)).1

theorem fresh_eq : namer.fresh hint =
    if namer.used.contains (wanted hint) then
      let n := search namer.used (wanted hint) namer.used.size (namer.counters.getD (wanted hint) 0)
      let name := wanted hint ++ toString n
      (name, ⟨namer.used.insert name, namer.counters.insert (wanted hint) n⟩)
    else (wanted hint, { namer with used := namer.used.insert (wanted hint) }) := rfl

theorem fresh_notMem : (namer.fresh hint).1 ∉ namer.used := by
  rw [fresh_eq]
  split
  · exact (namer.search_free _ _).2
  · next h => simpa using h

theorem used_fresh : (namer.fresh hint).2.used = namer.used.insert (namer.fresh hint).1 := by
  rw [fresh_eq]
  split <;> rfl

theorem suits_fresh : Suits hint (namer.fresh hint).1 := by
  rw [fresh_eq]
  split
  · exact .inr ⟨_, Nat.zero_lt_of_lt (namer.search_free _ _).1, rfl⟩
  · exact .inl rfl

end Namer

/-! ### The parts that are named -/

/-- A part of a function that can have a name. -/
inductive Entity where
  | arg (index : Nat)
  | slot (id : SlotId)
  | block (id : BlockId)
  | inst (id : InstId)
  deriving DecidableEq

namespace Func

def hint (f : Func) : Entity → String
  | .arg n => f.params.getD n ""
  | .slot s => f.slots.getD s ""
  | .block b => (f.block b).name
  | .inst i => (f.inst i).name

def isUsedSlot (f : Func) (s : SlotId) : Bool := (f.slotUsage.getD s {}).isUsed

def hasResult (f : Func) (i : InstId) : Bool := (f.op i).type?.isSome

def args (f : Func) : List Entity := (List.range f.arity).map .arg

def usedSlots (f : Func) : List Entity :=
  ((List.range f.slots.size).filter f.isUsedSlot).map .slot

def results (f : Func) (insts : List InstId) : List Entity := (insts.filter f.hasResult).map .inst

/-- The named parts of a function in the order of their naming: arguments, used slots, and each
laid out block followed by its results. -/
def entities (f : Func) : List Entity :=
  f.args ++ f.usedSlots ++ f.layout.flatMap fun b => .block b :: f.results (f.block b).insts

variable {f : Func}

theorem arg_mem_entities {n : Nat} : .arg n ∈ f.entities ↔ n < f.arity := by
  simp [entities, args, usedSlots, results]

theorem slot_mem_entities {s : SlotId} :
    .slot s ∈ f.entities ↔ s < f.slots.size ∧ f.isUsedSlot s := by
  simp [entities, args, usedSlots, results]

theorem block_mem_entities {b : BlockId} : .block b ∈ f.entities ↔ b ∈ f.layout := by
  simp [entities, args, usedSlots, results]

theorem inst_mem_entities {i : InstId} : .inst i ∈ f.entities ↔ i ∈ f.live ∧ f.hasResult i := by
  simp only [mem_live, entities, args, usedSlots, results, List.mem_append, List.mem_flatMap,
    List.mem_cons, List.mem_map, List.mem_filter]
  grind

theorem nodup_results {insts : List InstId} (h : insts.Nodup) : (f.results insts).Nodup :=
  (h.filter _).map fun _ _ => Entity.inst.inj

theorem nodup_blocks_results (hlayout : f.layout.Nodup) (hlive : f.live.Nodup) :
    (f.layout.flatMap fun b => .block b :: f.results (f.block b).insts).Nodup := by
  rw [live, List.nodup_flatMap] at hlive
  rw [List.nodup_flatMap]
  constructor
  · intro b hb
    exact List.nodup_cons.2 ⟨by simp [results], nodup_results (hlive.1 b hb)⟩
  · refine (hlayout.and hlive.2).imp fun {b c} h e hb hc => ?_
    cases e with
    | block a => simp_all [results]
    | inst i =>
      simp only [results, List.mem_cons, List.mem_map, List.mem_filter] at hb hc
      have hdisjoint : List.Disjoint (f.block b).insts (f.block c).insts := h.2
      exact hdisjoint (a := i) (by grind) (by grind)
    | _ => simp [results] at hb

/-- Where no block and no instruction is placed twice, no entity is named twice. -/
theorem nodup_entities (hlayout : f.layout.Nodup) (hlive : f.live.Nodup) : f.entities.Nodup := by
  have hargs : f.args.Nodup := List.nodup_range.map fun _ _ => Entity.arg.inj
  have hslots : f.usedSlots.Nodup := (List.nodup_range.filter _).map fun _ _ => Entity.slot.inj
  refine List.nodup_append.2 ⟨List.nodup_append.2 ⟨hargs, hslots, ?_⟩,
    nodup_blocks_results hlayout hlive, ?_⟩
  · intro d hd e he
    simp only [args, usedSlots, List.mem_map] at hd he
    grind
  · intro d hd e he
    simp only [args, usedSlots, results, List.mem_append, List.mem_flatMap, List.mem_cons,
      List.mem_map] at hd he
    grind

end Func

def Names.name? (names : Names) : Entity → Option String
  | .arg n => names.args[n]?
  | .slot s => names.slots.getD s none
  | .block b => names.blocks.getD b none
  | .inst i => names.insts.getD i none

/-! ### A run over the entities -/

/-- The names given so far and the names in use. -/
structure Naming where
  name? : Entity → Option String
  namer : Namer

namespace Naming

variable {f : Func} {s : Naming}

/-- The entity gets the next free name for its hint. -/
def give (f : Func) (s : Naming) (e : Entity) : Naming :=
  ⟨Function.update s.name? e (some (s.namer.fresh (f.hint e)).1), (s.namer.fresh (f.hint e)).2⟩

/-- The names given are in use, belong to one entity each and suit it. -/
structure Distinct (f : Func) (s : Naming) : Prop where
  used {e : Entity} {name : String} : s.name? e = some name → name ∈ s.namer.used
  inj {d e : Entity} {name : String} : s.name? d = some name → s.name? e = some name → d = e
  suits {e : Entity} {name : String} : s.name? e = some name → Namer.Suits (f.hint e) name

theorem distinct_none (f : Func) (namer : Namer) : Distinct f ⟨fun _ => none, namer⟩ where
  used h := absurd h (by simp)
  inj h := absurd h (by simp)
  suits h := absurd h (by simp)

theorem name?_give {e d : Entity} {name : String} (h : (s.give f e).name? d = some name) :
    d = e ∧ name = (s.namer.fresh (f.hint e)).1 ∨ d ≠ e ∧ s.name? d = some name := by
  by_cases hd : d = e
  · subst hd
    simp only [give, Function.update_self, Option.some.injEq] at h
    exact .inl ⟨rfl, h.symm⟩
  · simp only [give, Function.update_of_ne hd] at h
    exact .inr ⟨hd, h⟩

theorem Distinct.give (h : Distinct f s) (e : Entity) : Distinct f (s.give f e) := by
  have hfree : (s.namer.fresh (f.hint e)).1 ∉ s.namer.used := s.namer.fresh_notMem _
  constructor
  case used =>
    intro d name hd
    change name ∈ (s.namer.fresh (f.hint e)).2.used
    rw [Namer.used_fresh, Std.HashSet.mem_insert, beq_iff_eq]
    rcases name?_give hd with ⟨-, rfl⟩ | ⟨-, hd⟩
    · exact .inl rfl
    · exact .inr (h.used hd)
  case inj =>
    intro c d name hc hd
    rcases name?_give hc with ⟨rfl, hn⟩ | ⟨-, hc'⟩ <;>
      rcases name?_give hd with ⟨rfl, hn'⟩ | ⟨-, hd'⟩
    · rfl
    · exact absurd (hn ▸ h.used hd') hfree
    · exact absurd (hn' ▸ h.used hc') hfree
    · exact h.inj hc' hd'
  case suits =>
    intro d name hd
    rcases name?_give hd with ⟨rfl, rfl⟩ | ⟨-, hd⟩
    · exact s.namer.suits_fresh _
    · exact h.suits hd

theorem Distinct.run (h : Distinct f s) (es : List Entity) :
    Distinct f (es.foldl (Naming.give f) s) := by
  induction es generalizing s with
  | nil => exact h
  | cons e es ih => exact ih (h.give e)

theorem isSome_run (es : List Entity) (s : Naming) (d : Entity) :
    ((es.foldl (give f) s).name? d).isSome ↔ d ∈ es ∨ (s.name? d).isSome := by
  induction es generalizing s with
  | nil => simp
  | cons e es ih =>
    rw [List.foldl_cons, ih, List.mem_cons, give]
    by_cases hd : d = e <;> simp [hd]

end Naming

/-! ### The arrays of names -/

namespace Names

/-- What the arrays say, as names of entities. -/
def naming (names : Names) (namer : Namer) : Naming := ⟨names.name?, namer⟩

variable {f : Func} {names names' : Names} {namer : Namer}

theorem give_naming {e : Entity} (h : ∀ d, names'.name? d =
      if d = e then some (namer.fresh (f.hint e)).1 else names.name? d) :
    (naming names namer).give f e = naming names' (namer.fresh (f.hint e)).2 := by
  rw [naming, naming, Naming.give, Naming.mk.injEq]
  exact ⟨funext fun d => (Function.update_apply ..).trans (h d).symm, rfl⟩

section Steps

variable (args : Array String) (slots blocks insts : Array (Option String))

theorem give_arg {n : Nat} (hn : args.size = n) :
    (naming ⟨args, slots, blocks, insts⟩ namer).give f (.arg n) =
      naming ⟨args.push (namer.fresh (f.hint (.arg n))).1, slots, blocks, insts⟩
        (namer.fresh (f.hint (.arg n))).2 := by
  subst hn
  refine give_naming fun d => ?_
  cases d with
  | arg m => simp only [name?, Array.getElem?_push, Entity.arg.injEq]
  | _ => simp [name?]

theorem give_slot {s : SlotId} (hs : slots.size = s) :
    (naming ⟨args, slots, blocks, insts⟩ namer).give f (.slot s) =
      naming ⟨args, slots.push (some (namer.fresh (f.hint (.slot s))).1), blocks, insts⟩
        (namer.fresh (f.hint (.slot s))).2 := by
  subst hs
  refine give_naming fun d => ?_
  cases d with
  | slot t => simp only [name?, getD_push, Entity.slot.injEq]
  | _ => simp [name?]

theorem naming_push_none :
    naming ⟨args, slots.push none, blocks, insts⟩ namer =
      naming ⟨args, slots, blocks, insts⟩ namer := by
  rw [naming, naming, Naming.mk.injEq]
  refine ⟨funext fun d => ?_, rfl⟩
  cases d with
  | slot s =>
    simp only [name?, getD_push]
    split
    · next hs => simp [hs]
    · rfl
  | _ => rfl

theorem give_block {b : BlockId} (hb : b < blocks.size) :
    (naming ⟨args, slots, blocks, insts⟩ namer).give f (.block b) =
      naming ⟨args, slots, blocks.setIfInBounds b (some (namer.fresh (f.hint (.block b))).1), insts⟩
        (namer.fresh (f.hint (.block b))).2 := by
  refine give_naming fun d => ?_
  cases d with
  | block c => simp only [name?, getD_setIfInBounds, hb, and_true, Entity.block.injEq]
  | _ => simp [name?]

theorem give_inst {i : InstId} (hi : i < insts.size) :
    (naming ⟨args, slots, blocks, insts⟩ namer).give f (.inst i) =
      naming ⟨args, slots, blocks, insts.setIfInBounds i (some (namer.fresh (f.hint (.inst i))).1)⟩
        (namer.fresh (f.hint (.inst i))).2 := by
  refine give_naming fun d => ?_
  cases d with
  | inst j => simp only [name?, getD_setIfInBounds, hi, and_true, Entity.inst.injEq]
  | _ => simp [name?]

end Steps

/-! Each loop is a run over its part of the entities. -/

theorem nameArgs_concat (params : List String) (param : String) :
    nameArgs (params ++ [param]) namer =
      ((nameArgs params namer).1.push ((nameArgs params namer).2.fresh param).1,
        ((nameArgs params namer).2.fresh param).2) := by
  simp [nameArgs]

/-- After `k` parameters the array has `k` entries, so the next one is that of argument `k`. -/
theorem run_nameArgs_take (slots blocks insts : Array (Option String)) (namer : Namer) {k : Nat}
    (hk : k ≤ f.arity) :
    (nameArgs (f.params.take k) namer).1.size = k ∧
      ((List.range k).map .arg).foldl (Naming.give f) (naming ⟨#[], slots, blocks, insts⟩ namer) =
        naming ⟨(nameArgs (f.params.take k) namer).1, slots, blocks, insts⟩
          (nameArgs (f.params.take k) namer).2 := by
  induction k with
  | zero => exact ⟨rfl, rfl⟩
  | succ k ih =>
    obtain ⟨hsize, hrun⟩ := ih (Nat.le_of_succ_le hk)
    have hparam : f.params[k]? = some (f.hint (.arg k)) := by
      rw [Func.hint, List.getD_eq_getElem?_getD, List.getElem?_eq_getElem hk, Option.getD_some]
    rw [List.take_add_one, hparam, Option.toList_some, nameArgs_concat, List.range_succ,
      List.map_append, List.foldl_append, hrun]
    exact ⟨by rw [Array.size_push, hsize], give_arg _ _ _ _ hsize⟩

theorem run_nameArgs (slots blocks insts : Array (Option String)) (namer : Namer) :
    f.args.foldl (Naming.give f) (naming ⟨#[], slots, blocks, insts⟩ namer) =
      naming ⟨(nameArgs f.params namer).1, slots, blocks, insts⟩ (nameArgs f.params namer).2 := by
  have hrun := (run_nameArgs_take slots blocks insts namer (le_refl f.arity)).2
  rwa [Func.arity, List.take_length] at hrun

/-- One step of the naming of slots. -/
def nameSlot (acc : Array (Option String) × Namer) (p : SlotUsage × String) :
    Array (Option String) × Namer :=
  if p.1.isUsed then (acc.1.push (some (acc.2.fresh p.2).1), (acc.2.fresh p.2).2)
  else (acc.1.push none, acc.2)

/-- The slots with their usage. -/
def slotPairs (f : Func) : List (SlotUsage × String) := f.slotUsage.toList.zip f.slots.toList

theorem nameSlots_eq (f : Func) (namer : Namer) :
    nameSlots f namer = (slotPairs f).foldl nameSlot (#[], namer) := rfl

theorem slotPairs_getElem? {k : Nat} (hk : k < f.slots.size) :
    (slotPairs f)[k]? = some (f.slotUsage.getD k {}, f.hint (.slot k)) := by
  have hk' : k < f.slotUsage.size := by rwa [f.size_slotUsage]
  simp [slotPairs, Func.hint, hk, hk']

theorem size_nameSlot (acc : Array (Option String) × Namer) (p : SlotUsage × String) :
    (nameSlot acc p).1.size = acc.1.size + 1 := by
  unfold nameSlot
  split <;> simp

theorem run_nameSlots_take (args : Array String) (blocks insts : Array (Option String))
    (namer : Namer) {k : Nat} (hk : k ≤ f.slots.size) :
    (((slotPairs f).take k).foldl nameSlot (#[], namer)).1.size = k ∧
      (((List.range k).filter f.isUsedSlot).map .slot).foldl (Naming.give f)
          (naming ⟨args, #[], blocks, insts⟩ namer) =
        naming ⟨args, (((slotPairs f).take k).foldl nameSlot (#[], namer)).1, blocks, insts⟩
          (((slotPairs f).take k).foldl nameSlot (#[], namer)).2 := by
  induction k with
  | zero => exact ⟨rfl, rfl⟩
  | succ k ih =>
    obtain ⟨hsize, hrun⟩ := ih (Nat.le_of_succ_le hk)
    rw [List.take_add_one, slotPairs_getElem? hk, Option.toList_some, List.foldl_append,
      List.foldl_cons, List.foldl_nil, size_nameSlot, hsize, List.range_succ, List.filter_append,
      List.map_append, List.foldl_append, hrun]
    refine ⟨rfl, ?_⟩
    rw [nameSlot]
    cases hused : (f.slotUsage.getD k {}).isUsed with
    | true =>
      rw [List.filter_cons_of_pos (by rwa [Func.isUsedSlot]), if_pos rfl]
      exact give_slot _ _ _ _ hsize
    | false =>
      have hunused : ¬f.isUsedSlot k := by rw [Func.isUsedSlot, hused]; exact Bool.false_ne_true
      rw [List.filter_cons_of_neg hunused, if_neg Bool.false_ne_true]
      exact (naming_push_none ..).symm

theorem run_nameSlots (args : Array String) (blocks insts : Array (Option String))
    (namer : Namer) :
    (nameSlots f namer).1.size = f.slots.size ∧
      f.usedSlots.foldl (Naming.give f) (naming ⟨args, #[], blocks, insts⟩ namer) =
        naming ⟨args, (nameSlots f namer).1, blocks, insts⟩ (nameSlots f namer).2 := by
  have hlength : (slotPairs f).length = f.slots.size := by simp [slotPairs, Func.size_slotUsage]
  have hrun := run_nameSlots_take args blocks insts namer (le_refl f.slots.size)
  rwa [List.take_of_length_le hlength.le, ← nameSlots_eq] at hrun

/-- One step of the naming of results. -/
def nameInst (f : Func) (acc : Array (Option String) × Namer) (i : InstId) :
    Array (Option String) × Namer :=
  if f.hasResult i then
    (acc.1.setIfInBounds i (some (acc.2.fresh (f.hint (.inst i))).1),
      (acc.2.fresh (f.hint (.inst i))).2)
  else acc

theorem size_nameInst (acc : Array (Option String) × Namer) (i : InstId) :
    (nameInst f acc i).1.size = acc.1.size := by
  unfold nameInst
  split <;> simp

theorem run_nameInsts (args : Array String) (slots blocks : Array (Option String))
    {is : List InstId} (acc : Array (Option String) × Namer) (his : ∀ i ∈ is, i < acc.1.size) :
    (is.foldl (nameInst f) acc).1.size = acc.1.size ∧
      (f.results is).foldl (Naming.give f) (naming ⟨args, slots, blocks, acc.1⟩ acc.2) =
        naming ⟨args, slots, blocks, (is.foldl (nameInst f) acc).1⟩
          (is.foldl (nameInst f) acc).2 := by
  induction is generalizing acc with
  | nil => exact ⟨rfl, rfl⟩
  | cons i is ih =>
    obtain ⟨hi, his⟩ := List.forall_mem_cons.1 his
    obtain ⟨hsize, hrun⟩ := ih (nameInst f acc i) (by rwa [size_nameInst])
    rw [List.foldl_cons, hsize, size_nameInst, ← hrun]
    refine ⟨rfl, ?_⟩
    rw [nameInst, Func.results, Func.results]
    cases hres : f.hasResult i with
    | true =>
      rw [if_pos rfl, List.filter_cons_of_pos hres, List.map_cons, List.foldl_cons,
        give_inst _ _ _ _ hi]
    | false =>
      have hnone : ¬f.hasResult i := by rw [hres]; exact Bool.false_ne_true
      rw [if_neg Bool.false_ne_true, List.filter_cons_of_neg hnone]

/-- One step of the naming of blocks and their results. -/
def nameBlock (f : Func) (acc : Array (Option String) × Array (Option String) × Namer)
    (b : BlockId) : Array (Option String) × Array (Option String) × Namer :=
  let named := acc.2.2.fresh (f.hint (.block b))
  let results := (f.block b).insts.foldl (nameInst f) (acc.2.1, named.2)
  (acc.1.setIfInBounds b (some named.1), results.1, results.2)

theorem run_nameBlocks (args : Array String) (slots : Array (Option String)) {bs : List BlockId}
    (acc : Array (Option String) × Array (Option String) × Namer)
    (hbs : ∀ b ∈ bs, b < acc.1.size ∧ ∀ i ∈ (f.block b).insts, i < acc.2.1.size) :
    (bs.flatMap fun b => .block b :: f.results (f.block b).insts).foldl (Naming.give f)
        (naming ⟨args, slots, acc.1, acc.2.1⟩ acc.2.2) =
      naming ⟨args, slots, (bs.foldl (nameBlock f) acc).1, (bs.foldl (nameBlock f) acc).2.1⟩
        (bs.foldl (nameBlock f) acc).2.2 := by
  induction bs generalizing acc with
  | nil => rfl
  | cons b bs ih =>
    obtain ⟨⟨hb, his⟩, hbs⟩ := List.forall_mem_cons.1 hbs
    obtain ⟨hsize, hrun⟩ := run_nameInsts (f := f) args slots
      (acc.1.setIfInBounds b (some (acc.2.2.fresh (f.hint (.block b))).1))
      (acc.2.1, (acc.2.2.fresh (f.hint (.block b))).2) his
    rw [List.flatMap_cons, List.foldl_append, List.foldl_cons, give_block _ _ _ _ hb, hrun,
      List.foldl_cons]
    exact ih (nameBlock f acc b) (by simpa [nameBlock, hsize] using hbs)

/-- The start of the naming of blocks: arguments and slots have their names. -/
def beforeBlocks (f : Func) : Array (Option String) × Array (Option String) × Namer :=
  (Array.replicate f.blocks.size none, Array.replicate f.insts.size none,
    (nameSlots f (nameArgs f.params {}).2).2)

theorem ofFunc_eq (f : Func) : ofFunc f =
    ⟨(nameArgs f.params {}).1, (nameSlots f (nameArgs f.params {}).2).1,
      (f.layout.foldl (nameBlock f) (beforeBlocks f)).1,
      (f.layout.foldl (nameBlock f) (beforeBlocks f)).2.1⟩ := rfl

theorem size_slots_ofFunc (f : Func) : (ofFunc f).slots.size = f.slots.size :=
  (run_nameSlots #[] #[] #[] _).1

theorem naming_replicate (m n : Nat) (namer : Namer) :
    naming ⟨#[], #[], Array.replicate m none, Array.replicate n none⟩ namer =
      ⟨fun _ => none, namer⟩ := by
  rw [naming, Naming.mk.injEq]
  refine ⟨funext fun e => ?_, rfl⟩
  cases e with
  | arg n => rfl
  | slot s => rfl
  | block b => rw [name?, Array.getD_eq_getD_getElem?, Array.getElem?_replicate]; split <;> rfl
  | inst i => rw [name?, Array.getD_eq_getD_getElem?, Array.getElem?_replicate]; split <;> rfl

/-- The names of a function are those that a run over its entities gives away. -/
theorem name?_ofFunc (hf : f.Verified) :
    (ofFunc f).name? = (f.entities.foldl (Naming.give f) ⟨fun _ => none, {}⟩).name? := by
  have hblocks : ∀ b ∈ f.layout, b < (beforeBlocks f).1.size ∧
      ∀ i ∈ (f.block b).insts, i < (beforeBlocks f).2.1.size := by
    intro b hb
    simpa [beforeBlocks] using ⟨hf.block_lt hb, fun i hi => hf.inst_lt hb hi⟩
  have hrun := run_nameBlocks (nameArgs f.params {}).1 (nameSlots f (nameArgs f.params {}).2).1
    (beforeBlocks f) hblocks
  rw [ofFunc_eq, Func.entities, List.foldl_append, List.foldl_append,
    ← naming_replicate f.blocks.size f.insts.size, run_nameArgs, (run_nameSlots _ _ _ _).2]
  exact (congrArg Naming.name? hrun).symm

end Names

namespace Func

variable {f : Func} {e : Entity}

/-- The name that an entity of the function has. -/
def nameOf (f : Func) (e : Entity) : String := ((Names.ofFunc f).name? e).getD ""

theorem Verified.isSome_name? (hf : f.Verified) :
    ((Names.ofFunc f).name? e).isSome ↔ e ∈ f.entities := by
  simp [Names.name?_ofFunc hf, Naming.isSome_run]

theorem Verified.name?_eq (hf : f.Verified) (he : e ∈ f.entities) :
    (Names.ofFunc f).name? e = some (f.nameOf e) := by
  obtain ⟨name, hname⟩ := Option.isSome_iff_exists.1 (hf.isSome_name?.2 he)
  rw [nameOf, hname, Option.getD_some]

theorem Verified.name?_eq_none (hf : f.Verified) (he : e ∉ f.entities) :
    (Names.ofFunc f).name? e = none :=
  Option.not_isSome_iff_eq_none.1 (mt hf.isSome_name?.1 he)

/-- The names of a function are those of a run that started without any. -/
theorem Verified.distinct (hf : f.Verified) :
    ∃ namer, Naming.Distinct f ((Names.ofFunc f).naming namer) := by
  have hrun := (Naming.distinct_none f {}).run f.entities
  refine ⟨(f.entities.foldl (Naming.give f) ⟨fun _ => none, {}⟩).namer, ?_⟩
  rwa [Names.naming, Names.name?_ofFunc hf]

theorem Verified.suits_nameOf (hf : f.Verified) (he : e ∈ f.entities) :
    Namer.Suits (f.hint e) (f.nameOf e) := by
  obtain ⟨namer, hd⟩ := hf.distinct
  exact hd.suits (hf.name?_eq he)

theorem Verified.nodup_names (hf : f.Verified) (hlayout : f.layout.Nodup)
    (hlive : f.live.Nodup) : (f.entities.map f.nameOf).Nodup := by
  refine (nodup_entities hlayout hlive).map_on fun d hd e he hname => ?_
  obtain ⟨namer, hdistinct⟩ := hf.distinct
  exact hdistinct.inj (hf.name?_eq hd) (hname ▸ hf.name?_eq he)

end Func

end ScalarLang.IR
