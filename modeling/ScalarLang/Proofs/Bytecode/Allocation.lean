import ScalarLang.Bytecode.Registers
import ScalarLang.Proofs.IR.Semantics
import ScalarLang.Proofs.IR.Usage

/-! Where the values of a function are. Arguments, slots, constants and results have registers of
their own, so setting one of them leaves the others as they are. -/

namespace ScalarLang.Bytecode

open IR (Env Func InstId Operand SlotId getD_push getD_setIfInBounds)

/-! ### Numbering -/

/-- The entries are numbered from `lo` on, below `hi`, no two with the same number. -/
structure Numbered (a : Array (Option Nat)) (lo hi : Nat) : Prop where
  le : lo ≤ hi
  range {k n : Nat} : a.getD k none = some n → lo ≤ n ∧ n < hi
  inj {k l n : Nat} : a.getD k none = some n → a.getD l none = some n → k = l

namespace Numbered

variable {a : Array (Option Nat)} {lo hi : Nat}

theorem of_none (h : ∀ k, a.getD k none = none) (n : Nat) : Numbered a n n where
  le := Nat.le_refl n
  range hk := nomatch (h _).symm.trans hk
  inj hk := nomatch (h _).symm.trans hk

theorem of_subset {b : Array (Option Nat)} (h : Numbered a lo hi)
    (hb : ∀ k n, b.getD k none = some n → a.getD k none = some n) : Numbered b lo hi :=
  ⟨h.le, fun hk => h.range (hb _ _ hk), fun hk hl => h.inj (hb _ _ hk) (hb _ _ hl)⟩

/-- One entry, or none, gets the next number. -/
theorem step {b : Array (Option Nat)} (h : Numbered a lo hi) (k₀ : Nat)
    (hb : ∀ k n, b.getD k none = some n → a.getD k none = some n ∨ k = k₀ ∧ n = hi) :
    Numbered b lo (hi + 1) where
  le := Nat.le_succ_of_le h.le
  range hk := by
    rcases hb _ _ hk with hk | ⟨-, rfl⟩
    · exact ⟨(h.range hk).1, Nat.lt_succ_of_lt (h.range hk).2⟩
    · exact ⟨h.le, Nat.lt_succ_self _⟩
  inj hk hl := by
    rcases hb _ _ hk with hk | ⟨rfl, rfl⟩ <;> rcases hb _ _ hl with hl | ⟨rfl, he⟩
    · exact h.inj hk hl
    · exact absurd (he ▸ (h.range hk).2) (Nat.lt_irrefl _)
    · exact absurd (h.range hl).2 (Nat.lt_irrefl _)
    · rfl

end Numbered

namespace Registers

variable {f : Func}

/-! ### Slots -/

/-- One step of the numbering of slots. -/
def placeSlot (acc : Array (Option Nat) × Nat) (usage : IR.SlotUsage) :
    Array (Option Nat) × Nat :=
  if usage.isUsed then (acc.1.push (some acc.2), acc.2 + 1) else (acc.1.push none, acc.2)

theorem placeSlots_eq (f : Func) (next : Nat) :
    placeSlots f next = f.slotUsage.toList.foldl placeSlot (#[], next) := by
  rw [placeSlots, ← Array.foldl_toList]
  rfl

theorem numbered_placeSlot {acc : Array (Option Nat) × Nat} {lo : Nat}
    (h : Numbered acc.1 lo acc.2) (usage : IR.SlotUsage) :
    Numbered (placeSlot acc usage).1 lo (placeSlot acc usage).2 := by
  unfold placeSlot
  split
  · refine h.step acc.1.size fun k n hk => ?_
    rw [getD_push] at hk
    split at hk
    · next he => exact .inr ⟨he, (Option.some.inj hk).symm⟩
    · exact .inl hk
  · refine h.of_subset fun k n hk => ?_
    rw [getD_push] at hk
    split at hk
    · exact nomatch hk
    · exact hk

theorem numbered_placeSlots (f : Func) (next : Nat) :
    Numbered (placeSlots f next).1 next (placeSlots f next).2 := by
  rw [placeSlots_eq]
  have start : Numbered #[] next next := .of_none (fun _ => rfl) next
  exact List.foldlRecOn (motive := fun acc => Numbered acc.1 next acc.2) _ placeSlot
    (b := (#[], next)) start fun _ h usage _ => numbered_placeSlot h usage

/-- The slots in use are those that are numbered. -/
theorem isSome_foldl_placeSlot (l : List IR.SlotUsage) (acc : Array (Option Nat) × Nat) (k : Nat) :
    ((l.foldl placeSlot acc).1.getD k none).isSome =
      if k < acc.1.size then (acc.1.getD k none).isSome
      else (l.getD (k - acc.1.size) {}).isUsed := by
  induction l generalizing acc with
  | nil =>
    by_cases hk : k < acc.1.size
    · rw [List.foldl_nil, if_pos hk]
    · rw [List.foldl_nil, if_neg hk, Array.getD_eq_getD_getElem?,
        Array.getElem?_eq_none (Nat.not_lt.1 hk)]
      rfl
  | cons usage l ih =>
    have hsize : (placeSlot acc usage).1.size = acc.1.size + 1 := by
      unfold placeSlot
      split <;> simp
    have hget : ((placeSlot acc usage).1.getD k none).isSome =
        if k = acc.1.size then usage.isUsed else (acc.1.getD k none).isSome := by
      unfold placeSlot
      split <;> simp only [getD_push] <;> split <;> simp_all
    rw [List.foldl_cons, ih, hsize, hget]
    rcases Nat.lt_trichotomy k acc.1.size with hk | rfl | hk
    · rw [if_pos (Nat.lt_succ_of_lt hk), if_neg (Nat.ne_of_lt hk), if_pos hk]
    · simp
    · rw [if_neg (by omega), if_neg (Nat.lt_asymm hk)]
      obtain ⟨d, rfl⟩ := Nat.exists_eq_add_of_lt hk
      have hd : acc.1.size + d + 1 - (acc.1.size + 1) = d := by omega
      have hd' : acc.1.size + d + 1 - acc.1.size = d + 1 := by omega
      rw [hd, hd', List.getD_cons_succ]

theorem isSome_placeSlots {s : SlotId} (h : (f.slotUsage.getD s {}).isUsed) (next : Nat) :
    ((placeSlots f next).1.getD s none).isSome := by
  rw [placeSlots_eq, isSome_foldl_placeSlot]
  simpa [Array.getD_eq_getD_getElem?] using h

/-! ### Results -/

/-- One step of the numbering of results. -/
def placeResult (f : Func) (acc : Array (Option Nat) × Nat) (i : InstId) :
    Array (Option Nat) × Nat :=
  if (f.op i).type?.isSome then (acc.1.setIfInBounds i (some acc.2), acc.2 + 1) else acc

theorem numbered_placeResult {acc : Array (Option Nat) × Nat} {lo : Nat}
    (h : Numbered acc.1 lo acc.2) (i : InstId) :
    Numbered (placeResult f acc i).1 lo (placeResult f acc i).2 := by
  unfold placeResult
  split
  · refine h.step i fun k n hk => ?_
    rw [getD_setIfInBounds] at hk
    split at hk
    · next he => exact .inr ⟨he.1, (Option.some.inj hk).symm⟩
    · exact .inl hk
  · exact h

theorem numbered_placeResults (f : Func) (next : Nat) :
    Numbered (placeResults f next).1 next (placeResults f next).2 := by
  have start : Numbered (Array.replicate f.insts.size none) next next :=
    .of_none (fun k => by
      rw [Array.getD_eq_getD_getElem?, Array.getElem?_replicate]
      split <;> rfl) next
  exact List.foldlRecOn (motive := fun acc => Numbered acc.1 next acc.2) _ (placeResult f)
    (b := (Array.replicate f.insts.size none, next)) start
    fun _ h i _ => numbered_placeResult h i

theorem size_placeResults (f : Func) (next : Nat) :
    (placeResults f next).1.size = f.insts.size := by
  refine List.foldlRecOn (motive := fun acc => acc.1.size = f.insts.size) _ (placeResult f)
    (b := (Array.replicate f.insts.size none, next)) (by simp) fun acc h i _ => ?_
  unfold placeResult
  split
  · simpa using h
  · exact h

/-- The results of placed instructions are numbered. -/
theorem isSome_placeResults {i : InstId} (hi : i ∈ f.live) (hlt : i < f.insts.size)
    (htype : (f.op i).type?.isSome) (next : Nat) :
    ((placeResults f next).1.getD i none).isSome := by
  have fold (l : List InstId) (acc : Array (Option Nat) × Nat) (hsize : i < acc.1.size)
      (h : i ∈ l ∨ (acc.1.getD i none).isSome) :
      ((l.foldl (placeResult f) acc).1.getD i none).isSome := by
    induction l generalizing acc with
    | nil => exact h.resolve_left nofun
    | cons j l ih =>
      rw [List.foldl_cons]
      unfold placeResult
      split
      · refine ih _ (by simpa using hsize) ?_
        by_cases hj : i = j
        · right
          rw [getD_setIfInBounds, if_pos ⟨hj, hj ▸ hsize⟩]
          rfl
        · rw [getD_setIfInBounds, if_neg fun h => hj h.1]
          exact h.imp_left fun hm => (List.mem_cons.1 hm).resolve_left hj
      · next hnone =>
        have hj : i ≠ j := fun hj => hnone (hj ▸ htype)
        exact ih _ hsize (h.imp_left fun hm => (List.mem_cons.1 hm).resolve_left hj)
  exact fold _ _ (by simpa using hlt) (.inl hi)

end Registers

/-! ### Constants and scratch registers -/

theorem mem_distinct {v : Float} (values : List Float) : v ∈ distinct values ↔ v ∈ values := by
  have fold (seen : List Float) : v ∈ values.foldl (fun seen v =>
      if seen.any (· = v) then seen else seen ++ [v]) seen ↔ v ∈ seen ∨ v ∈ values := by
    induction values generalizing seen with
    | nil => simp
    | cons w values ih =>
      rw [List.foldl_cons, ih, List.mem_cons]
      split
      · next hw =>
        have hw : w ∈ seen := by simpa using hw
        constructor
        · exact Or.imp_right .inr
        · rintro (h | rfl | h)
          · exact .inl h
          · exact .inl hw
          · exact .inr h
      · rw [List.mem_append, List.mem_singleton, or_assoc]
  exact (fold []).trans (or_iff_right nofun)

theorem le_maxOf {n : Nat} {ns : List Nat} (h : n ∈ ns) : n ≤ maxOf ns := by
  have fold (ns : List Nat) (m : Nat) : m ≤ ns.foldl max m ∧ ∀ n ∈ ns, n ≤ ns.foldl max m := by
    induction ns generalizing m with
    | nil => exact ⟨Nat.le_refl m, nofun⟩
    | cons k ns ih =>
      obtain ⟨hm, hns⟩ := ih (max m k)
      exact ⟨(Nat.le_max_left m k).trans hm,
        List.forall_mem_cons.2 ⟨(Nat.le_max_right m k).trans hm, hns⟩⟩
  exact (fold ns 0).2 n h

theorem length_le_maxCallArgs {f : Func} {i : InstId} {callee : String} {args : List Operand}
    (hi : i ∈ f.live) (ho : f.op i = .call callee args) : args.length ≤ maxCallArgs f :=
  le_maxOf (List.mem_map.2 ⟨i, hi, by rw [ho]⟩)

theorem countP_le_maxPhis {f : Func} {b : IR.BlockId} (hb : b ∈ f.layout) :
    (f.block b).insts.countP (fun i => (f.op i).isPhi) ≤ maxPhis f :=
  le_maxOf (List.mem_map_of_mem hb)

/-! ### All registers -/

namespace Registers

variable {f : Func}

theorem numbered_slots (f : Func) :
    Numbered (allocate f).slots f.arity (allocate f).firstConstant :=
  numbered_placeSlots f f.arity

theorem numbered_results (f : Func) : Numbered (allocate f).results
    ((allocate f).firstConstant + (allocate f).constants.length) (allocate f).callScratch :=
  numbered_placeResults f _

/-- Arguments, slots and constants come before the results, and those before the scratch
registers. -/
theorem arity_le (f : Func) :
    f.arity ≤ (allocate f).firstConstant + (allocate f).constants.length :=
  (numbered_slots f).le.trans (Nat.le_add_right _ _)

theorem callScratch_le (f : Func) : (allocate f).callScratch ≤ (allocate f).phiScratch :=
  Nat.le_add_right _ _

theorem phiScratch_le (f : Func) : (allocate f).phiScratch ≤ (allocate f).count :=
  Nat.le_add_right _ _

theorem exists_slot (hf : f.Verified) {i : InstId} {s : SlotId} (hi : i ∈ f.live)
    (hs : (f.op i).slot? = some s) : ∃ n, (allocate f).slots.getD s none = some n :=
  Option.isSome_iff_exists.1 (isSome_placeSlots (hf.isUsed_slot hi hs) f.arity)

theorem exists_result (hf : f.Verified) {i : InstId} (hi : i ∈ f.live)
    (htype : (f.op i).type?.isSome) : ∃ n, (allocate f).results.getD i none = some n :=
  Option.isSome_iff_exists.1 (isSome_placeResults hi (hf.live_lt hi) htype _)

theorem constant_lt {v : Float} (hv : v ∈ (allocate f).constants) :
    (allocate f).constant v < (allocate f).firstConstant + (allocate f).constants.length :=
  Nat.add_lt_add_left (List.findIdx_lt_length_of_exists ⟨v, hv, by simp⟩) _

end Registers

/-- The registers hold the values of arguments, slots, constants and results. -/
structure Holds (f : Func) (env : Env) (regs : Nat → Float) : Prop where
  arg {n : Nat} : n < f.arity → regs n = env.args.getD n 0.0
  slot {s : SlotId} {n : Nat} : (Registers.allocate f).slots.getD s none = some n →
    regs n = env.slots s
  constant {v : Float} : v ∈ (Registers.allocate f).constants →
    regs ((Registers.allocate f).constant v) = v
  result {i : InstId} {n : Nat} : (Registers.allocate f).results.getD i none = some n →
    regs n = env.results i

namespace Holds

variable {f : Func} {env : Env} {regs regs' : Nat → Float}

/-- There are registers that hold values. -/
theorem exists_env (f : Func) : ∃ env regs, Holds f env regs := by
  let regs (k : Nat) : Float :=
    (Registers.allocate f).constants.getD (k - (Registers.allocate f).firstConstant) 0.0
  refine ⟨⟨(List.range f.arity).map regs, fun s => regs ((Registers.allocate f).slot s),
    fun i => regs ((Registers.allocate f).result i)⟩, regs, ?_, ?_, ?_, ?_⟩
  · intro n hn
    simp [hn]
  · intro s n hn
    simp only [Registers.slot, hn, Option.getD_some]
  · intro v hv
    have hlt : (Registers.allocate f).constants.findIdx (· = v) <
        (Registers.allocate f).constants.length :=
      List.findIdx_lt_length_of_exists ⟨v, hv, by simp⟩
    have hfound := List.findIdx_getElem (w := hlt)
    simp only [regs, Registers.constant, Nat.add_sub_cancel_left]
    rw [List.getD_eq_getElem?_getD, List.getElem?_eq_getElem hlt, Option.getD_some]
    exact of_decide_eq_true hfound
  · intro i n hn
    simp only [Registers.result, hn, Option.getD_some]

/-- Results change in their own registers only. -/
theorem of_results (h : Holds f env regs) {results : InstId → Float}
    (hlow : ∀ n < (Registers.allocate f).firstConstant + (Registers.allocate f).constants.length,
      regs' n = regs n)
    (hresults : ∀ i n, (Registers.allocate f).results.getD i none = some n →
      regs' n = results i) : Holds f { env with results } regs' where
  arg hn := (hlow _ (Nat.lt_of_lt_of_le hn (Registers.arity_le f))).trans (h.arg hn)
  slot hn := by
    have hlt := ((Registers.numbered_slots f).range hn).2
    exact (hlow _ (Nat.lt_of_lt_of_le hlt (Nat.le_add_right _ _))).trans (h.slot hn)
  constant hv := (hlow _ (Registers.constant_lt hv)).trans (h.constant hv)
  result hn := hresults _ _ hn

/-- Scratch registers hold none of the values. -/
theorem of_agree (h : Holds f env regs)
    (hregs : ∀ n < (Registers.allocate f).callScratch, regs' n = regs n) : Holds f env regs' :=
  h.of_results (fun n hn => hregs n (Nat.lt_of_lt_of_le hn (Registers.numbered_results f).le))
    fun _ n hn => (hregs n ((Registers.numbered_results f).range hn).2).trans (h.result hn)

theorem setResult (h : Holds f env regs) {i : InstId} {n : Nat}
    (hn : (Registers.allocate f).results.getD i none = some n) (v : Float) :
    Holds f (env.setResult i v) (Function.update regs n v) := by
  have hr := Registers.numbered_results f
  refine h.of_results (fun m hm => ?_) fun j m hm => ?_
  · exact Function.update_of_ne (Nat.ne_of_lt (Nat.lt_of_lt_of_le hm (hr.range hn).1)) _ _
  · by_cases hj : j = i
    · obtain rfl : m = n := Option.some.inj (hm.symm.trans (hj ▸ hn))
      rw [Function.update_self, if_pos hj]
    · have hne : m ≠ n := fun he => hj (hr.inj hm (he ▸ hn))
      rw [Function.update_of_ne hne, if_neg hj, h.result hm]

theorem setSlot (h : Holds f env regs) {s : SlotId} {n : Nat}
    (hn : (Registers.allocate f).slots.getD s none = some n) (v : Float) :
    Holds f (env.setSlot s v) (Function.update regs n v) := by
  have hs := Registers.numbered_slots f
  have hlow := (hs.range hn).1
  have hlt := (hs.range hn).2
  have above {m : Nat} (hm : (Registers.allocate f).firstConstant ≤ m) :
      Function.update regs n v m = regs m :=
    Function.update_of_ne (Nat.ne_of_gt (Nat.lt_of_lt_of_le hlt hm)) _ _
  refine ⟨fun {m} hm => ?_, fun {t m} hm => ?_, fun {w} hw => ?_, fun {i m} hm => ?_⟩
  · rw [Function.update_of_ne (Nat.ne_of_lt (Nat.lt_of_lt_of_le hm hlow))]
    exact h.arg hm
  · by_cases ht : t = s
    · obtain rfl : m = n := Option.some.inj (hm.symm.trans (ht ▸ hn))
      exact (Function.update_self ..).trans (if_pos ht).symm
    · have hne : m ≠ n := fun he => ht (hs.inj hm (he ▸ hn))
      rw [Function.update_of_ne hne, h.slot hm]
      exact (if_neg ht).symm
  · exact (above (Nat.le_add_right _ _)).trans (h.constant hw)
  · rw [above ((Nat.le_add_right _ _).trans ((Registers.numbered_results f).range hm).1),
      h.result hm]
    rfl

/-- The register of an operand holds its value. -/
theorem operand (h : Holds f env regs) (hf : f.Verified)
    (hcount : (Registers.allocate f).count < Registers.limit) {v : Operand}
    (hv : v ∈ f.usedOperands) :
    ∃ n, (Registers.allocate f).operand? v = some n ∧ n < (Registers.allocate f).callScratch ∧
      regs n = env.value v := by
  have hr := Registers.numbered_results f
  have constant {x : Float} (hx : constant? v = some x) :
      (Registers.allocate f).constant x < (Registers.allocate f).callScratch ∧
        regs ((Registers.allocate f).constant x) = x := by
    have hmem : x ∈ (Registers.allocate f).constants :=
      (mem_distinct _).2 (List.mem_filterMap.2 ⟨v, hv, hx⟩)
    exact ⟨Nat.lt_of_lt_of_le (Registers.constant_lt hmem) hr.le, h.constant hmem⟩
  obtain ⟨type, hfits⟩ := hf.exists_fits hv
  cases v with
  | inst i =>
    obtain ⟨hi, hlt, htype⟩ := hfits
    obtain ⟨n, hn⟩ := Registers.exists_result hf hi (htype ▸ rfl)
    refine ⟨n, ?_, (hr.range hn).2, h.result hn⟩
    have hsize : i < (Registers.allocate f).results.size :=
      Nat.lt_of_lt_of_le hlt (Registers.size_placeResults f _).ge
    rw [Registers.operand?, if_pos hsize, Registers.result, hn, Option.getD_some]
  | arg n =>
    have hlt : n < (Registers.allocate f).callScratch :=
      Nat.lt_of_lt_of_le hfits.1 ((Registers.arity_le f).trans hr.le)
    have hmod : n % Registers.limit = n := Nat.mod_eq_of_lt (Nat.lt_of_lt_of_le hlt
      ((Registers.callScratch_le f).trans ((Registers.phiScratch_le f).trans hcount.le)))
    exact ⟨n, congrArg some hmod, hlt, h.arg hfits.1⟩
  | const x => exact ⟨_, rfl, constant rfl⟩
  | bool b => exact ⟨_, rfl, constant rfl⟩

end Holds

end ScalarLang.Bytecode
