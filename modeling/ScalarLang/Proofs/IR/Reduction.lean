import Mathlib.Data.List.Count
import Mathlib.Data.List.Flatten
import ScalarLang.Proofs.IR.Optimisation

/-! Optimisation one step at a time. Whatever a pass does is a sequence of steps of four kinds: a
result is replaced by another value and its instruction removed, instructions are removed, edges
and blocks are taken out, or a block is merged into its only predecessor. A pass says that it
changed the function exactly if it took such a step. -/

namespace ScalarLang.IR

open Relation

/-! ### Removal and replacement -/

namespace Func

variable {f g h : Func}

theorem removeInsts_nil (f : Func) : f.removeInsts [] = f := by
  simp [removeInsts]

theorem removeInsts_append (f : Func) (dead dead' : List InstId) :
    f.removeInsts (dead' ++ dead) = (f.removeInsts dead).removeInsts dead' := by
  simp [removeInsts, Function.comp_def, List.filter_filter]

/-- Only which instructions are listed matters. -/
theorem removeInsts_congr {dead dead' : List InstId} (h : ∀ i, i ∈ dead ↔ i ∈ dead') :
    f.removeInsts dead = f.removeInsts dead' := by
  simp only [removeInsts, List.contains_eq_mem, h]

theorem mapOperands_removeInsts (f : Func) (m : Operand → Operand) (dead : List InstId) :
    (f.removeInsts dead).mapOperands m = (f.mapOperands m).removeInsts dead := by
  simp [removeInsts, mapOperands, Function.comp_def]

/-- A replacement leaves the instructions where they are. -/
theorem live_removeInsts_replaceUses (f : Func) (i : InstId) (v : Operand) (dead : List InstId) :
    ((f.replaceUses i v).removeInsts dead).live = (f.removeInsts dead).live := by
  rw [live_removeInsts, live_removeInsts, replaceUses, (sameFlow_mapOperands f _).live]

/-- The removal of one instruction keeps the others. -/
theorem mem_live_removeInsts_cons {i : InstId} {dead rest : List InstId} (hi : i ∉ rest)
    (hl : ∀ j ∈ rest, j ∈ (f.removeInsts dead).live) :
    ∀ j ∈ rest, j ∈ (f.removeInsts (i :: dead)).live := by
  intro j hj
  have hji : j ≠ i := fun he => hi (he ▸ hj)
  have hlive := (mem_live_removeInsts f dead).1 (hl j hj)
  exact (mem_live_removeInsts f _).2 ⟨hlive.1, by simp [hji, hlive.2]⟩

/-- Every use of the result of `i` becomes `v`, and `i` is removed. -/
def substitute (f : Func) (i : InstId) (v : Operand) : Func := (f.replaceUses i v).removeInsts [i]

/-- Instructions that are removed later do not matter to a replacement. -/
theorem removeInsts_replaceUses (f : Func) (i : InstId) (v : Operand) (dead : List InstId) :
    (f.replaceUses i v).removeInsts (i :: dead) = (f.removeInsts dead).substitute i v := by
  rw [substitute, replaceUses, replaceUses, mapOperands_removeInsts, ← removeInsts_append,
    List.singleton_append]

/-! ### Steps -/

/-- Whether a block ends in a branch on a condition. -/
def branches (f : Func) (b : BlockId) : Bool :=
  match (f.block b).terminator with
  | some (.condBr ..) => true
  | _ => false

/-- The number of laid out blocks and of conditional branches at their ends. -/
def flowSize (f : Func) : Nat := f.layout.length + f.layout.countP f.branches

/-- One step of optimisation that leaves the control flow as it is. -/
inductive Edit (f : Func) : Func → Prop where
  /-- The new value is used already, or it is what the instruction folds to. -/
  | substitute {i : InstId} {v : Operand} (hi : i ∈ f.live)
      (hv : v ∈ f.usedOperands ∨ Fold.value? i (f.op i) = some v) : Edit f (f.substitute i v)
  | remove {dead : List InstId} {i : InstId} (hi : i ∈ dead) (hl : i ∈ f.live) :
      Edit f (f.removeInsts dead)

/-- One step of optimisation. -/
inductive Reduction (f : Func) : Func → Prop where
  | edit {g : Func} (h : Edit f g) : Reduction f g
  | restrict {g : Func} (hf : f.WellFormed) (h : f.Restricts g) (hlt : g.flowSize < f.flowSize) :
      Reduction f g
  | merge {g : Func} {p b : BlockId} (hf : f.WellFormed) (h : f.Merged g p b)
      (hr : Simplify.AllReached f) : Reduction f g

/-- A function and whether it has changed since it was `f`: it is the same, or it took at least one
step. -/
inductive Outcome (R : Func → Func → Prop) (f : Func) : Func × Bool → Prop where
  | same : Outcome R f (f, false)
  | reduced {g : Func} (h : TransGen R f g) : Outcome R f (g, true)

section

variable {R S : Func → Func → Prop}

theorem Outcome.trans {c c' : Bool} (hg : f.Outcome R (g, c)) (hh : g.Outcome R (h, c')) :
    f.Outcome R (h, c || c') := by
  cases hg with
  | same => rwa [Bool.false_or]
  | reduced hg =>
    cases hh with
    | same => exact .reduced hg
    | reduced hh => exact .reduced (hg.trans hh)

theorem Outcome.step {c : Bool} (hg : f.Outcome R (g, c)) (hh : R g h) : f.Outcome R (h, true) := by
  have := hg.trans (.reduced (.single hh))
  rwa [Bool.or_true] at this

theorem Outcome.mono {x : Func × Bool} (hRS : ∀ f g, R f g → S f g) (hx : f.Outcome R x) :
    f.Outcome S x := by
  cases hx with
  | same => exact .same
  | reduced h => exact .reduced (TransGen.mono hRS _ _ h)

/-- What every step keeps, a pass keeps. -/
theorem Outcome.invariant {P : Func → Prop} (hR : ∀ f g, R f g → P f → P g) {x : Func × Bool}
    (hx : f.Outcome R x) (hf : P f) : P x.1 := by
  cases hx with
  | same => exact hf
  | reduced h =>
    induction h with
    | single h => exact hR _ _ h hf
    | tail _ h ih => exact hR _ _ h ih

end

end Func

open Func

/-! ### Constant folding -/

namespace Fold

variable {f : Func}

theorem foldl_outcome {g : Func} {dead insts : List InstId} (hn : insts.Nodup)
    (hl : ∀ i ∈ insts, i ∈ (g.removeInsts dead).live)
    (h : f.Outcome Edit (g.removeInsts dead, !dead.isEmpty)) :
    f.Outcome Edit ((insts.foldl (fun (f, dead) i => Fold.inst f dead i) (g, dead)).1.removeInsts
      (insts.foldl (fun (f, dead) i => Fold.inst f dead i) (g, dead)).2,
      !(insts.foldl (fun (f, dead) i => Fold.inst f dead i) (g, dead)).2.isEmpty) := by
  induction insts generalizing g dead with
  | nil => exact h
  | cons i insts ih =>
    rw [List.nodup_cons] at hn
    rw [List.forall_mem_cons] at hl
    simp only [List.foldl_cons, inst]
    cases hv : value? i (g.op i) with
    | none => exact ih hn.2 hl.2 h
    | some v =>
      apply ih hn.2
      · rw [live_removeInsts_replaceUses]
        exact mem_live_removeInsts_cons hn.1 hl.2
      · have hstep : Edit (g.removeInsts dead) ((g.removeInsts dead).substitute i v) :=
          .substitute hl.1 (.inr hv)
        rw [removeInsts_replaceUses]
        exact h.step hstep

theorem run_outcome (hn : f.live.Nodup) : f.Outcome Edit (run f) := by
  refine foldl_outcome hn ?_ ?_
  · intro i hi
    rwa [removeInsts_nil]
  · rw [removeInsts_nil]
    exact .same

end Fold

/-! ### Promotion -/

namespace Promote

variable {f : Func}

/-- The reads of a slot take the value that is written, one after the other. -/
theorem foldl_reduces {g : Func} {s : SlotId} {store : InstId} {v : Operand}
    {done reads : List InstId} (hn : (store :: reads).Nodup)
    (hl : ∀ i ∈ store :: reads, i ∈ (g.removeInsts done).live) (ho : g.op store = .store s v) :
    ReflTransGen Edit (g.removeInsts done)
      ((reads.foldl (fun f i => f.replaceUses i v) g).removeInsts (reads.reverse ++ done)) := by
  induction reads generalizing g done with
  | nil => exact .refl
  | cons i reads ih =>
    have hswap := List.nodup_cons.1 ((List.Perm.swap i store reads).nodup hn)
    have hi := hl i (by simp)
    -- the value is used by the store, which stays
    have hused : v ∈ (g.removeInsts done).usedOperands := by
      obtain ⟨b, hb, hm⟩ := mem_live.1 (hl store List.mem_cons_self)
      exact mem_usedOperands.2 (.inl ⟨b, hb, store, hm, by simp [ho, Operation.operands]⟩)
    have hstep : Edit (g.removeInsts done) ((g.replaceUses i v).removeInsts (i :: done)) := by
      rw [removeInsts_replaceUses]
      exact .substitute hi (.inl hused)
    have ho' : (g.replaceUses i v).op store = .store s v := by
      simp [replaceUses, op_mapOperands, ho, Operation.mapOperands]
    have hl' : ∀ j ∈ store :: reads, j ∈ ((g.replaceUses i v).removeInsts (i :: done)).live := by
      rw [live_removeInsts_replaceUses]
      exact mem_live_removeInsts_cons hswap.1 fun j hj => hl j (by grind)
    rw [List.reverse_cons, List.append_assoc, List.singleton_append]
    exact .head hstep (ih hswap.2 hl' ho')

theorem sameFlow_foldl (g : Func) (reads : List InstId) (v : Operand) :
    SameFlow g (reads.foldl (fun f i => f.replaceUses i v) g) := by
  induction reads generalizing g with
  | nil => exact ⟨rfl, fun _ => rfl, fun _ => rfl⟩
  | cons i reads ih => exact (sameFlow_mapOperands g _).trans (ih _)

theorem slot_reduces (hn : f.live.Nodup) {e : BlockId} (he : e ∈ f.layout) {s : SlotId} {g : Func}
    (h : slot f e s = some g) :
    TransGen Edit f g ∧ g.live.Nodup ∧ g.layout = f.layout := by
  obtain ⟨⟨store, v⟩, hfirst, rfl⟩ := Option.map_eq_some_iff.1 h
  obtain ⟨ho, l, r, hl, -⟩ := firstStore_eq_some hfirst
  have hlive : store ∈ f.live := mem_live.2 ⟨e, he, by simp [hl]⟩
  have hmem {i : InstId} : i ∈ loads f s ↔ i ∈ f.live ∧ f.op i = .load s := by
    simp [loads]
  have hstore : store ∉ loads f s := fun hs => by
    have := (hmem.1 hs).2
    simp [ho] at this
  have hnodup : (store :: loads f s).Nodup := List.nodup_cons.2 ⟨hstore, hn.filter _⟩
  have hall : ∀ i ∈ store :: loads f s, i ∈ (f.removeInsts []).live := by
    rw [removeInsts_nil]
    exact List.forall_mem_cons.2 ⟨hlive, fun i hi => (hmem.1 hi).1⟩
  have hreads := foldl_reduces hnodup hall ho
  rw [removeInsts_nil, List.append_nil] at hreads
  have hflow := sameFlow_foldl f (loads f s) v
  dsimp only
  generalize (loads f s).foldl (fun f i => f.replaceUses i v) f = g at hreads hflow ⊢
  have hlast : g.removeInsts (store :: loads f s) =
      (g.removeInsts (loads f s).reverse).removeInsts [store] := by
    rw [← removeInsts_append]
    exact removeInsts_congr fun i => by simp
  have hglive : store ∈ (g.removeInsts (loads f s).reverse).live := by
    rw [mem_live_removeInsts, hflow.live]
    exact ⟨hlive, by simpa using hstore⟩
  refine ⟨?_, ?_, hflow.layout⟩
  · rw [hlast]
    exact .tail' hreads (.remove (List.mem_singleton_self store) hglive)
  · rw [live_removeInsts, hflow.live]
    exact hn.filter _

theorem foldl_outcome {e : BlockId} {g : Func} (hn : g.live.Nodup) (he : e ∈ g.layout)
    {changed : Bool} (h : f.Outcome Edit (g, changed)) (slots : List SlotId) :
    f.Outcome Edit (slots.foldl (fun (f, changed) s => match slot f e s with
      | some f => (f, true)
      | none => (f, changed)) (g, changed)) := by
  induction slots generalizing g changed with
  | nil => exact h
  | cons s slots ih =>
    rw [List.foldl_cons]
    cases hslot : slot g e s with
    | none => simpa only [hslot] using ih hn he h
    | some g' =>
      obtain ⟨hr, hn', hl⟩ := slot_reduces hn he hslot
      have ho : f.Outcome Edit (g', true) := by simpa using h.trans (.reduced hr)
      simpa only [hslot] using ih hn' (hl ▸ he) ho

theorem run_outcome (hn : f.live.Nodup) : f.Outcome Edit (run f) := by
  unfold run
  split
  · exact .same
  · next e he => exact foldl_outcome hn (entry_mem_layout he) .same _

end Promote

/-! ### Dead code -/

theorem Dead.run_outcome (f : Func) : f.Outcome Edit (run f) := by
  fun_induction run f with
  | case1 f h => exact .same
  | case2 f i rest h hl ih =>
    have hstep : Edit f (f.removeInsts (i :: rest)) := .remove List.mem_cons_self hl
    exact (Outcome.reduced (.single hstep)).trans ih

/-! ### Control flow -/

namespace Simplify

variable {f g : Func} {p b : BlockId}

theorem branches_of_decided {x : BlockId × Option BlockId}
    (h : (f.block b).terminator.bind decided = some x) : f.branches b := by
  obtain ⟨t, ht, hd⟩ := Option.bind_eq_some_iff.1 h
  cases t with
  | condBr cond yes no => simp [branches, ht]
  | _ => cases hd

theorem flowSize_foldBranch_lt (hf : f.WellFormed) (hb : b ∈ f.layout)
    (h : foldBranch f b = some g) : g.flowSize < f.flowSize := by
  obtain ⟨taken, untaken, hd, -, hlayout, hblock, -⟩ :=
    foldBranch_eq_some (hf.toVerified.block_lt hb) h
  have hgb : g.branches b = false := by simp [branches, hblock]
  have hle (c : BlockId) (hc : g.branches c) : f.branches c := by
    have hcb : c ≠ b := by
      rintro rfl
      simp [hgb] at hc
    simpa only [branches, hblock, if_neg hcb] using hc
  have hlt : f.layout.countP g.branches < f.layout.countP f.branches := by
    calc f.layout.countP g.branches
        = (f.layout.filter f.branches).countP g.branches := by
          rw [List.countP_filter]
          exact List.countP_congr fun c _ => by simpa using hle c
      _ < (f.layout.filter f.branches).length :=
          List.countP_lt_length_iff.2
            ⟨b, List.mem_filter.2 ⟨hb, branches_of_decided hd⟩, hgb⟩
      _ = f.layout.countP f.branches := List.countP_eq_length_filter.symm
  rw [flowSize, hlayout, flowSize]
  omega

theorem foldBranches_outcome (hf : f.WellFormed) : f.Outcome Reduction (foldBranches f) := by
  refine (List.foldlRecOn (motive := fun x : Func × Bool =>
    f.Outcome Reduction x ∧ x.1.WellFormed ∧ x.1.layout = f.layout) f.layout _ ⟨.same, hf, rfl⟩ ?_).1
  rintro ⟨g, changed⟩ ⟨h, hg, hl⟩ b hb
  rw [← hl] at hb
  dsimp only
  split
  · next g' hg' =>
    have hr := foldBranch_restricts hg hb hg'
    have hstep := Reduction.restrict hg hr (flowSize_foldBranch_lt hg hb hg')
    obtain ⟨-, -, -, -, hl', -⟩ := foldBranch_eq_some (hg.toVerified.block_lt hb) hg'
    exact ⟨h.step hstep, hr.wellFormed hg, hl'.trans hl⟩
  · exact ⟨h, hg, hl⟩

theorem countP_branches_le (h : f.Restricts g) :
    g.layout.countP g.branches ≤ f.layout.countP f.branches := by
  have hle : ∀ b ∈ g.layout, g.branches b → f.branches b := by
    intro b hb hg
    rcases h.terminator hb with ht | ⟨taken, untaken, hd, -⟩
    · simpa only [branches, ht] using hg
    · exact branches_of_decided hd
  exact (List.countP_mono_left hle).trans h.layout.countP_le

/-- If all laid out blocks are reached, as many are reached as there are. -/
theorem length_reachable (hf : f.WellFormed) (hr : AllReached f) :
    (reachable f).length = f.layout.length := by
  have hnodup : (reachable f).Nodup := reach_nodup List.nodup_nil
  have hperm : (reachable f).Perm f.layout := by
    refine (List.perm_ext_iff_of_nodup hnodup hf.layout_nodup).2 fun b => ?_
    rw [mem_reachable]
    refine ⟨?_, hr b⟩
    rintro ⟨π, hπ⟩
    exact (hπ.mem_layout hf.toVerified).1
  exact hperm.length_eq

theorem dropUnreachable_outcome (hf : f.WellFormed) : f.Outcome Reduction (dropUnreachable f) := by
  by_cases hr : (reachable f).length = f.layout.length
  · rw [dropUnreachable, if_pos hr]
    exact .same
  · obtain ⟨h, hall⟩ := dropUnreachable_restricts hf hr
    have hflag : (dropUnreachable f).2 = true := by rw [dropUnreachable, if_neg hr]
    generalize hg : dropUnreachable f = x at h hall hflag
    obtain ⟨g, changed⟩ := x
    subst hflag
    have hlength : g.layout.length < f.layout.length := by
      refine Nat.lt_of_le_of_ne h.layout.length_le fun he => hr (length_reachable hf fun b hb => ?_)
      -- nothing would have been dropped
      rw [← h.layout.eq_of_length he] at hb
      exact (hall b hb).imp fun _ hπ => (h.path hπ).1
    have hlt : g.flowSize < f.flowSize := Nat.add_lt_add_of_lt_of_le hlength (countP_branches_le h)
    exact Outcome.same.step (.restrict hf h hlt)

/-- Each phi takes the first value that it receives, one after the other. -/
theorem resolvePhis_reduces {insts done : List InstId} (hn : insts.Nodup)
    (hl : ∀ i ∈ insts, i ∈ (g.removeInsts done).live) :
    ReflTransGen Edit (g.removeInsts done)
      ((resolvePhis g insts).1.removeInsts (insts.filter g.isPhiInst ++ done)) := by
  have swap (g : Func) (i : InstId) (phis done : List InstId) :
      g.removeInsts (phis ++ i :: done) = g.removeInsts (i :: phis ++ done) :=
    removeInsts_congr fun j => by simp [or_left_comm]
  fun_induction resolvePhis g insts generalizing done with
  | case1 g => exact .refl
  | case2 g i rest ho ih =>
    rw [List.nodup_cons] at hn
    rw [List.forall_mem_cons] at hl
    have hstep : Edit (g.removeInsts done) (g.removeInsts (i :: done)) := by
      rw [← List.singleton_append, removeInsts_append]
      exact .remove (List.mem_singleton_self i) hl.1
    have hrest := ih hn.2 (mem_live_removeInsts_cons hn.1 hl.2)
    rw [List.filter_cons_of_pos (by simp [isPhiInst, ho, Operation.isPhi]), ← swap]
    exact .head hstep hrest
  | case3 g i rest v source tail ho ih =>
    rw [List.nodup_cons] at hn
    rw [List.forall_mem_cons] at hl
    have hused : v ∈ (g.removeInsts done).usedOperands := by
      obtain ⟨b, hb, hi⟩ := mem_live.1 hl.1
      exact mem_usedOperands.2 (.inl ⟨b, hb, i, hi, by simp [ho, Operation.operands]⟩)
    have hstep : Edit (g.removeInsts done) ((g.replaceUses i v).removeInsts (i :: done)) := by
      rw [removeInsts_replaceUses]
      exact .substitute hl.1 (.inl hused)
    have hphi : (g.replaceUses i v).isPhiInst = g.isPhiInst := by
      funext j
      rw [isPhiInst, replaceUses, op_mapOperands, Operation.isPhi_mapOperands, isPhiInst]
    have hl' : ∀ j ∈ rest, j ∈ ((g.replaceUses i v).removeInsts (i :: done)).live := by
      rw [live_removeInsts_replaceUses]
      exact mem_live_removeInsts_cons hn.1 hl.2
    have hrest := ih hn.2 hl'
    rw [List.filter_cons_of_pos (by simp [isPhiInst, ho, Operation.isPhi]), ← swap, ← hphi]
    exact .head hstep hrest
  | case4 g i rest g' moved hrest hnil hcons ih =>
    rw [List.nodup_cons] at hn
    rw [List.forall_mem_cons] at hl
    have hphi : ¬g.isPhiInst i := by
      rw [isPhiInst]
      rcases ho : g.op i with - | - | - | - | - | - | (- | ⟨⟨v, source⟩, tail⟩) <;>
        simp_all [Operation.isPhi]
    have hreduces := ih hn.2 hl.2
    rw [hrest] at hreduces
    rwa [List.filter_cons_of_neg hphi]

theorem merge_reduces (hf : f.WellFormed) (hr : AllReached f) (h : f.SolePred p b) :
    TransGen Reduction f (merge f p b) := by
  obtain ⟨hphis, hrefines, hreached, hmerged⟩ := merge_splits hf hr h rfl
  have hl : ∀ i ∈ (f.block b).insts, i ∈ (f.removeInsts []).live := fun i hi => by
    rw [removeInsts_nil]
    exact mem_live.2 ⟨b, h.block_mem, hi⟩
  have hres := resolvePhis_reduces (hf.block_nodup h.block_mem) hl
  rw [removeInsts_nil, List.append_nil, ← hphis] at hres
  exact .tail' (ReflTransGen.mono (fun _ _ => .edit) _ _ hres)
    (.merge hrefines.wellFormed hmerged hreached)

theorem mergeAll_outcome (hf : f.WellFormed) (hr : AllReached f) :
    f.Outcome Reduction (mergeAll f) := by
  fun_induction mergeAll f with
  | case1 f _ => exact .same
  | case2 f p b hc _ ih =>
    have hs := candidate_solePred hf.toVerified hc
    obtain ⟨hm, hr'⟩ := merge_refines hf hr hs
    exact (Outcome.reduced (merge_reduces hf hr hs)).trans (ih hm.wellFormed hr')

theorem run_outcome (hf : f.WellFormed) : f.Outcome Reduction (run f) := by
  have hfold := (foldBranches_refines hf).wellFormed
  obtain ⟨hdrop, hr⟩ := dropUnreachable_refines hfold
  exact ((foldBranches_outcome hf).trans (dropUnreachable_outcome hfold)).trans
    (mergeAll_outcome hdrop.wellFormed hr)

end Simplify

/-- Every pass takes steps, and says so if it took any. -/
theorem Pass.run_outcome {f : Func} (p : Pass) (hf : f.WellFormed) :
    f.Outcome Reduction (p.run f) := by
  cases p with
  | promote => exact (Promote.run_outcome hf.live_nodup).mono fun _ _ => .edit
  | fold => exact (Fold.run_outcome hf.live_nodup).mono fun _ _ => .edit
  | simplify => exact Simplify.run_outcome hf
  | dead => exact (Dead.run_outcome f).mono fun _ _ => .edit

/-! ### What a step leaves -/

namespace Operation

/-- The operation without the values that it uses. -/
def shape : Operation → Operation
  | phi _ => phi []
  | op => op.mapOperands fun _ => default

theorem shape_mapOperands (m : Operand → Operand) (op : Operation) :
    (op.mapOperands m).shape = op.shape := by
  cases op <;> simp [shape, mapOperands, Function.comp_def]

@[simp] theorem isPhi_shape (op : Operation) : op.shape.isPhi = op.isPhi := by
  cases op <;> rfl

@[simp] theorem type?_shape (op : Operation) : op.shape.type? = op.type? := by
  cases op <;> rfl

@[simp] theorem slot?_shape (op : Operation) : op.shape.slot? = op.slot? := by
  cases op <;> rfl

end Operation

namespace Func

variable {f g : Func} {p b : BlockId}

theorem isPhiInst_of_shape {i : InstId} (h : (g.op i).shape = (f.op i).shape) :
    g.isPhiInst i = f.isPhiInst i := by
  rw [isPhiInst, ← Operation.isPhi_shape, h, Operation.isPhi_shape, isPhiInst]

/-! #### Edits -/

theorem live_substitute (f : Func) (i : InstId) (v : Operand) :
    (f.substitute i v).live = f.live.filter (· ≠ i) := by
  rw [substitute, live_removeInsts_replaceUses, live_removeInsts]
  exact List.filter_congr fun j _ => by simp

namespace Edit

variable (h : Edit f g)

include h

theorem layout : g.layout = f.layout := by
  cases h <;> rfl

theorem successors (b : BlockId) : g.successors b = f.successors b := by
  cases h with
  | substitute hi hv =>
    rw [Func.substitute, successors_removeInsts, replaceUses,
      (sameFlow_mapOperands f _).successors]
  | remove hi hl => rw [successors_removeInsts]

theorem insts_sublist (b : BlockId) : (g.block b).insts.Sublist (f.block b).insts := by
  cases h with
  | substitute hi hv =>
    rw [Func.substitute, insts_block_removeInsts, replaceUses, (sameFlow_mapOperands f _).insts]
    exact List.filter_sublist
  | remove hi hl =>
    rw [insts_block_removeInsts]
    exact List.filter_sublist

theorem live_sublist : g.live.Sublist f.live := by
  rw [live, h.layout]
  exact .flatMap_right _ fun b _ => h.insts_sublist b

theorem shape (i : InstId) : (g.op i).shape = (f.op i).shape := by
  cases h with
  | substitute hi hv =>
    rw [Func.substitute, op_removeInsts, replaceUses, op_mapOperands, Operation.shape_mapOperands]
  | remove hi hl => rfl

theorem phis_sublist (b : BlockId) : (g.phis b).Sublist (f.phis b) := by
  have hphi : g.isPhiInst = f.isPhiInst := funext fun i => isPhiInst_of_shape (h.shape i)
  rw [Func.phis, hphi]
  exact (h.insts_sublist b).filter _

theorem path_iff {π : List BlockId} {b : BlockId} : g.Path π b ↔ f.Path π b := by
  have he : g.entry? = f.entry? := congrArg List.head? h.layout
  constructor <;> intro hπ <;> induction hπ with
  | entry hb => exact .entry (by simpa only [he] using hb)
  | step _ hc ih => exact ih.step (by simpa only [h.successors] using hc)

end Edit

/-! #### Restrictions and merges -/

theorem Restricts.live_sublist (h : f.Restricts g) : g.live.Sublist f.live := by
  have hsame : g.live = g.layout.flatMap fun b => (f.block b).insts :=
    List.flatMap_congr fun b hb => h.insts hb
  rw [hsame]
  exact h.layout.flatMap _

theorem Restricts.shape (h : f.Restricts g) {i : InstId} (hi : i ∈ g.live) :
    (g.op i).shape = (f.op i).shape := by
  obtain ⟨b, hb, hi⟩ := Func.mem_live.1 hi
  rw [h.op hb (h.insts hb ▸ hi)]
  cases f.op i <;> rfl

/-- A merge takes block `b` out of the layout, which held it besides `p`. -/
theorem Merged.layout_perm (h : f.Merged g p b) (hn : f.layout.Nodup) :
    ∃ rest, f.layout.Perm (p :: b :: rest) ∧ g.layout.Perm (p :: rest) ∧
      ∀ c ∈ rest, c ∈ g.layout ∧ c ≠ p := by
  have hg : g.layout = f.layout.erase b := by
    rw [h.layout, hn.erase_eq_filter]
    exact List.filter_congr fun c _ => by simp [bne, beq_eq_decide]
  have hperm := List.perm_cons_erase h.pred_mem_layout
  refine ⟨g.layout.erase p, ?_, hperm, fun c hc => ?_⟩
  · calc f.layout.Perm (b :: g.layout) := hg ▸ List.perm_cons_erase h.block_mem
      _ |>.Perm (b :: p :: g.layout.erase p) := hperm.cons b
      _ |>.Perm (p :: b :: g.layout.erase p) := .swap ..
  · have hng : g.layout.Nodup := hg ▸ hn.erase b
    have := (hng.mem_erase_iff).1 hc
    exact ⟨this.2, this.1⟩

theorem Merged.live_perm (h : f.Merged g p b) (hn : f.layout.Nodup) : g.live.Perm f.live := by
  obtain ⟨rest, hf, hg, hrest⟩ := h.layout_perm hn
  have hsame : rest.flatMap (fun c => (g.block c).insts) =
      rest.flatMap fun c => (f.block c).insts :=
    List.flatMap_congr fun c hc => h.insts (hrest c hc).1 (hrest c hc).2
  refine (hg.flatMap_right _).trans (.trans (.of_eq ?_) (hf.flatMap_right _).symm)
  rw [List.flatMap_cons, List.flatMap_cons, List.flatMap_cons, h.insts_pred, hsame,
    List.append_assoc]

theorem Merged.shape (h : f.Merged g p b) {i : InstId} (hi : i ∈ f.live) :
    (g.op i).shape = (f.op i).shape := by
  rw [h.op hi]
  cases f.op i <;> rfl

/-- The merged block has no phis to add to those of its predecessor. -/
theorem Merged.phis (h : f.Merged g p b) {c : BlockId} (hc : c ∈ g.layout) :
    g.phis c = f.phis c := by
  have same {d : BlockId} (hd : d ∈ f.layout) :
      (f.block d).insts.filter g.isPhiInst = f.phis d :=
    List.filter_congr fun i hi => isPhiInst_of_shape (h.shape (Func.mem_live.2 ⟨d, hd, hi⟩))
  have hnone : f.phis b = [] := List.filter_eq_nil_iff.2 fun i hi => h.no_phi hi
  by_cases hcp : c = p
  · rw [hcp, Func.phis, h.insts_pred, List.filter_append, same h.pred_mem, same h.block_mem, hnone,
      List.append_nil]
  · rw [Func.phis, h.insts hc hcp, same (h.mem_layout.1 hc).1]

/-! #### All steps -/

namespace Reduction

variable (h : Reduction f g)

include h

theorem layout_subset : g.layout ⊆ f.layout := by
  cases h with
  | edit h => exact h.layout ▸ List.Subset.refl _
  | restrict hf h hlt => exact h.layout.subset
  | merge hf h hr => exact fun c hc => (h.mem_layout.1 hc).1

/-- No step places an instruction anew. -/
theorem live_subperm : g.live.Subperm f.live := by
  cases h with
  | edit h => exact h.live_sublist.subperm
  | restrict hf h hlt => exact h.live_sublist.subperm
  | merge hf h hr => exact (h.live_perm hf.layout_nodup).subperm

theorem shape {i : InstId} (hi : i ∈ g.live) : (g.op i).shape = (f.op i).shape := by
  cases h with
  | edit h => exact h.shape i
  | restrict hf h hlt => exact h.shape hi
  | merge hf h hr => exact h.shape ((h.live_perm hf.layout_nodup).subset hi)

theorem phis_sublist {b : BlockId} (hb : b ∈ g.layout) : (g.phis b).Sublist (f.phis b) := by
  cases h with
  | edit h => exact h.phis_sublist b
  | restrict hf h hlt =>
    have hsame : g.phis b = f.phis b := by
      rw [phis, List.filter_congr fun i hi =>
        isPhiInst_of_shape (h.shape (mem_live.2 ⟨b, hb, hi⟩)), h.insts hb, phis]
    exact hsame ▸ .refl _
  | merge hf h hr => exact h.phis hb ▸ .refl _

end Reduction

end Func

end ScalarLang.IR
