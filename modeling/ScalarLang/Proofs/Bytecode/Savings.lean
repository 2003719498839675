import ScalarLang.Proofs.Bytecode.Cost
import ScalarLang.Proofs.IR.Tidy

/-! What optimisation does to the costs of a function. No step makes it need more registers or
bytes: the only values that a step brings into the code are constants, and each stands for an
instruction that is at least as large as the one that loads it. -/

namespace ScalarLang.IR.Func

open Simplify

variable {f g : Func} {p b : BlockId}

/-! ### Used values -/

theorem usedOperands_removeInsts_subset (f : Func) (dead : List InstId) :
    (f.removeInsts dead).usedOperands ⊆ f.usedOperands := by
  intro v hv
  rcases mem_usedOperands.1 hv with ⟨b, hb, i, hi, hv⟩ | ⟨b, hb, t, ht, hv⟩
  · exact mem_usedOperands.2 (.inl ⟨b, hb, i, ((mem_insts_removeInsts f dead).1 hi).1, hv⟩)
  · exact mem_usedOperands.2 (.inr ⟨b, hb, t, terminator_removeInsts f dead b ▸ ht, hv⟩)

theorem usedOperands_substitute_subset (f : Func) (i : InstId) (v : Operand) :
    (f.substitute i v).usedOperands ⊆ v :: f.usedOperands := by
  intro w hw
  have hw := usedOperands_removeInsts_subset _ _ hw
  rw [replaceUses, usedOperands_mapOperands] at hw
  obtain ⟨x, hx, rfl⟩ := List.mem_map.1 hw
  split
  · exact List.mem_cons_self
  · exact List.mem_cons_of_mem _ hx

theorem operands_keepSources_subset (f : Func) (b : BlockId) (op : Operation) :
    (f.keepSources b op).operands ⊆ op.operands := by
  cases op with
  | phi incoming => exact List.map_subset _ List.filter_sublist.subset
  | _ => exact List.Subset.refl _

theorem Restricts.usedOperands_subset (h : f.Restricts g) : g.usedOperands ⊆ f.usedOperands := by
  intro v hv
  rcases mem_usedOperands.1 hv with ⟨b, hb, i, hi, hv⟩ | ⟨b, hb, t, ht, hv⟩
  · rw [h.insts hb] at hi
    rw [h.op hb hi] at hv
    exact mem_usedOperands.2
      (.inl ⟨b, h.mem_layout hb, i, hi, operands_keepSources_subset _ _ _ hv⟩)
  · rcases h.terminator hb with he | ⟨taken, untaken, -, he⟩
    · exact mem_usedOperands.2 (.inr ⟨b, h.mem_layout hb, t, he ▸ ht, hv⟩)
    · obtain rfl := Option.some.inj (ht.symm.trans he)
      cases hv

theorem operands_renameSource (b p : BlockId) (op : Operation) :
    (renameSource b p op).operands = op.operands := by
  cases op <;> simp [renameSource, Operation.operands]

theorem Merged.usedOperands_subset (h : f.Merged g p b) : g.usedOperands ⊆ f.usedOperands := by
  have hinst {c : BlockId} {i : InstId} (hc : c ∈ f.layout) (hi : i ∈ (f.block c).insts)
      {v : Operand} (hv : v ∈ (g.op i).operands) : v ∈ f.usedOperands := by
    rw [h.op (Func.mem_live.2 ⟨c, hc, hi⟩), operands_renameSource] at hv
    exact mem_usedOperands.2 (.inl ⟨c, hc, i, hi, hv⟩)
  intro v hv
  rcases mem_usedOperands.1 hv with ⟨c, hc, i, hi, hv⟩ | ⟨c, hc, t, ht, hv⟩
  · by_cases hcp : c = p
    · rw [hcp, h.insts_pred] at hi
      rcases List.mem_append.1 hi with hi | hi
      · exact hinst h.pred_mem hi hv
      · exact hinst h.block_mem hi hv
    · rw [h.insts hc hcp] at hi
      exact hinst (h.mem_layout.1 hc).1 hi hv
  · by_cases hcp : c = p
    · rw [hcp, h.terminator_pred] at ht
      exact mem_usedOperands.2 (.inr ⟨b, h.block_mem, t, ht, hv⟩)
    · rw [h.terminator hc hcp] at ht
      exact mem_usedOperands.2 (.inr ⟨c, (h.mem_layout.1 hc).1, t, ht, hv⟩)

/-- A step leaves the code with values that it uses already, or it brings in the value that an
instruction folds to. -/
theorem Reduction.usedOperands (h : Reduction f g) : g.usedOperands ⊆ f.usedOperands ∨
    ∃ i v, i ∈ f.live ∧ Fold.value? i (f.op i) = some v ∧ g = f.substitute i v := by
  cases h with
  | edit h =>
    cases h with
    | @substitute i v hi hv =>
      rcases hv with hv | hv
      · left
        intro w hw
        rcases List.mem_cons.1 (usedOperands_substitute_subset f i v hw) with rfl | hw
        · exact hv
        · exact hw
      · exact .inr ⟨i, v, hi, hv, rfl⟩
    | remove hi hl => exact .inl (usedOperands_removeInsts_subset f _)
  | restrict hf h hlt => exact .inl h.usedOperands_subset
  | merge hf h hr => exact .inl h.usedOperands_subset

theorem Reduction.sizes (h : Reduction f g) : SameSizes f g := by
  cases h with
  | edit h =>
    cases h with
    | substitute hi hv =>
      refine ⟨rfl, rfl, ?_, ?_⟩ <;> simp [substitute, replaceUses, mapOperands, removeInsts]
    | remove hi hl => exact ⟨rfl, rfl, rfl, by simp [removeInsts]⟩
  | restrict hf h hlt => exact h.sizes
  | merge hf h hr => exact h.sizes

end ScalarLang.IR.Func

namespace ScalarLang.Bytecode

open IR (BlockId Func InstId Operand Operation SlotId Terminator)
open IR.Func (Reduction)

variable {f g : Func}

/-! ### Constants -/

theorem nodup_distinct (values : List Float) : (distinct values).Nodup := by
  refine List.foldlRecOn (motive := List.Nodup) values _ List.nodup_nil fun seen h v _ => ?_
  split
  · exact h
  · next hv =>
    have hv : v ∉ seen := by simpa using hv
    exact h.append (List.nodup_singleton v) (List.disjoint_singleton.2 hv)

theorem mem_constantsOf {x : Float} :
    x ∈ constantsOf f ↔ ∃ v ∈ f.usedOperands, constant? v = some x := by
  rw [constantsOf, mem_distinct, List.mem_filterMap]

theorem length_constantsOf_le {values : List Float}
    (h : ∀ v ∈ f.usedOperands, ∀ x, constant? v = some x → x ∈ values) :
    (constantsOf f).length ≤ values.length := by
  refine (List.subperm_of_subset (nodup_distinct _) fun x hx => ?_).length_le
  obtain ⟨v, hv, hx⟩ := mem_constantsOf.1 hx
  exact h v hv x hx

/-- An instruction that folds to a value which the code does not use takes a register, and as many
bytes as loading the value does. -/
theorem folded_large {i : InstId} (hi : i ∈ f.live) {v : Operand}
    (h : IR.Fold.value? i (f.op i) = some v) :
    v ∈ f.usedOperands ∨ (f.op i).type?.isSome ∧ Opcode.ldc.size ≤ operationBytes (f.op i) := by
  cases ho : f.op i with
  | phi incoming =>
    left
    obtain ⟨b, hb, hi⟩ := Func.mem_live.1 hi
    refine Func.mem_usedOperands.2 (.inl ⟨b, hb, i, hi, ?_⟩)
    rw [ho] at h ⊢
    exact (IR.Fold.value?_phi h).1
  | binary op left right | compare test left right | toDouble w =>
    exact .inr ⟨rfl, Nat.le_of_ble_eq_true rfl⟩
  | load s | store s w | call name args => simp [ho, IR.Fold.value?] at h

/-- A step saves the constants, or it takes out an instruction for the one that it adds. -/
theorem constantsOf_reduction (h : Reduction f g) :
    (constantsOf g).length ≤ (constantsOf f).length ∨
      (constantsOf g).length ≤ (constantsOf f).length + 1 ∧ ∃ i ∈ f.live,
        (f.op i).type?.isSome ∧ Opcode.ldc.size ≤ operationBytes (f.op i) ∧
          g.live = f.live.filter (· ≠ i) := by
  have fewer (hsub : g.usedOperands ⊆ f.usedOperands) :
      (constantsOf g).length ≤ (constantsOf f).length :=
    length_constantsOf_le fun v hv x hx => mem_constantsOf.2 ⟨v, hsub hv, hx⟩
  rcases h.usedOperands with hsub | ⟨i, v, hi, hv, rfl⟩
  · exact .inl (fewer hsub)
  · have hsub := Func.usedOperands_substitute_subset f i v
    rcases folded_large hi hv with hused | ⟨htype, hbytes⟩
    · exact .inl (fewer fun w hw => (List.mem_cons.1 (hsub hw)).elim (· ▸ hused) id)
    · refine .inr ⟨?_, i, hi, htype, hbytes, Func.live_substitute f i v⟩
      have hlength : ((constant? v).getD 0 :: constantsOf f).length =
          (constantsOf f).length + 1 := rfl
      rw [← hlength]
      refine length_constantsOf_le fun w hw x hx => ?_
      rcases List.mem_cons.1 (hsub hw) with rfl | hw
      · simp [hx]
      · exact List.mem_cons_of_mem _ (mem_constantsOf.2 ⟨w, hw, hx⟩)

/-! ### Instructions -/

@[simp] theorem operationBytes_shape (op : Operation) :
    operationBytes op.shape = operationBytes op := by
  cases op <;> simp [Operation.shape, Operation.mapOperands, operationBytes]

@[simp] theorem argCount_shape (op : Operation) : argCount op.shape = argCount op := by
  cases op <;> simp [Operation.shape, Operation.mapOperands, argCount]

/-- What depends on the shapes of operations only does not grow for those that a step leaves. -/
theorem total_live_shape {w : Operation → Nat} (hw : ∀ op, w op.shape = w op)
    (h : Reduction f g) :
    total (fun i => w (g.op i)) g.live ≤ total (fun i => w (f.op i)) g.live := by
  refine total_le fun i hi => ?_
  rw [← hw, h.shape hi, hw]

theorem total_filter_ne {α : Type} [DecidableEq α] (w : α → Nat) {a : α} {l : List α}
    (ha : a ∈ l) : total w (l.filter (· ≠ a)) + w a ≤ total w l := by
  induction l with
  | nil => cases ha
  | cons b l ih =>
    by_cases hb : b = a
    · rw [List.filter_cons_of_neg (by simp [hb]), total_cons, hb, Nat.add_comm]
      exact Nat.add_le_add_left (total_sublist List.filter_sublist) _
    · have hl := ih ((List.mem_cons.1 ha).resolve_left (Ne.symm hb))
      rw [List.filter_cons_of_pos (by simp [hb]), total_cons, total_cons, Nat.add_assoc]
      exact Nat.add_le_add_left hl _

/-- A constant that a step adds costs no more than the instruction that it stands for. -/
theorem constants_live_le {w : Operation → Nat} {n : Nat} (hw : ∀ op, w op.shape = w op)
    (hn : ∀ op : Operation, op.type?.isSome → Opcode.ldc.size ≤ operationBytes op → n ≤ w op)
    (h : Reduction f g) :
    (constantsOf g).length * n + total (fun i => w (g.op i)) g.live ≤
      (constantsOf f).length * n + total (fun i => w (f.op i)) f.live := by
  have hsame := total_live_shape hw h
  rcases constantsOf_reduction h with hle | ⟨hle, i, hi, htype, hbytes, hlive⟩
  · exact Nat.add_le_add (Nat.mul_le_mul_right n hle) (hsame.trans (total_subperm h.live_subperm))
  · have hout := total_filter_ne (fun i => w (f.op i)) hi
    have hconstants : (constantsOf g).length * n ≤ (constantsOf f).length * n + n :=
      (Nat.mul_le_mul_right n hle).trans_eq (Nat.succ_mul ..)
    have hlarge := hn _ htype hbytes
    rw [hlive] at hsame ⊢
    omega

theorem countP_eq_total {α : Type} (q : α → Bool) (l : List α) :
    l.countP q = total (fun a => if q a then 1 else 0) l := by
  induction l with
  | nil => rfl
  | cons a l ih => rw [List.countP_cons, ih, total_cons, Nat.add_comm]

theorem constants_results_le (h : Reduction f g) :
    (constantsOf g).length + resultCount g ≤ (constantsOf f).length + resultCount f := by
  have hle := constants_live_le (w := fun op => if op.type?.isSome then 1 else 0) (n := 1)
    (by simp) (fun op hop _ => by simp [hop]) h
  simpa only [resultCount, countP_eq_total, Nat.mul_one] using hle

theorem constants_operations_le (h : Reduction f g) :
    (constantsOf g).length * Opcode.ldc.size + total (fun i => operationBytes (g.op i)) g.live ≤
      (constantsOf f).length * Opcode.ldc.size +
        total (fun i => operationBytes (f.op i)) f.live :=
  constants_live_le operationBytes_shape (fun _ _ hop => hop) h

theorem maxCallArgs_le (h : Reduction f g) : maxCallArgs g ≤ maxCallArgs f := by
  rw [maxCallArgs_eq g, maxOf_le, List.forall_mem_map]
  intro i hi
  rw [← argCount_shape, h.shape hi, argCount_shape]
  exact le_maxOf (List.mem_map.2 ⟨i, h.live_subperm.subset hi, rfl⟩)

theorem usedSlots_le (h : Reduction f g) : usedSlots g ≤ usedSlots f := by
  rw [usedSlots, h.sizes.slots]
  refine List.countP_mono_left fun s _ hs => ?_
  rw [List.any_eq_true] at hs ⊢
  obtain ⟨i, hi, hs⟩ := hs
  rw [← Operation.slot?_shape, h.shape hi, Operation.slot?_shape] at hs
  exact ⟨i, h.live_subperm.subset hi, hs⟩

/-! ### Ends of blocks -/

theorem maxPhis_eq (f : Func) : maxPhis f = maxOf (f.layout.map fun b => (f.phis b).length) := by
  simp only [maxPhis, List.countP_eq_length_filter]
  rfl

theorem maxPhis_le (h : Reduction f g) : maxPhis g ≤ maxPhis f := by
  rw [maxPhis_eq g, maxPhis_eq f, maxOf_le, List.forall_mem_map]
  intro b hb
  exact (h.phis_sublist hb).length_le.trans (le_maxOf (List.mem_map.2 ⟨b, h.layout_subset hb, rfl⟩))

theorem edgeBytes_le {c : BlockId} (h : (g.phis c).Sublist (f.phis c)) :
    edgeBytes g c ≤ edgeBytes f c :=
  Nat.add_le_add_right (Nat.mul_le_mul_right _ h.length_le) _

theorem terminatorBytes_le {t : Terminator}
    (h : ∀ c ∈ t.successors, (g.phis c).Sublist (f.phis c)) :
    terminatorBytes g t ≤ terminatorBytes f t := by
  cases t with
  | br target => exact edgeBytes_le (h target (by simp [Terminator.successors]))
  | ret v => exact Nat.le_refl _
  | condBr cond yes no =>
    have hyes := edgeBytes_le (h yes (by simp [Terminator.successors]))
    have hno := h no (by simp [Terminator.successors])
    refine Nat.add_le_add (Nat.add_le_add_left hyes _) ?_
    by_cases hf : f.phis no = []
    · rw [if_pos (List.eq_nil_of_sublist_nil (hf ▸ hno))]
      exact Nat.zero_le _
    · rw [if_neg hf]
      split
      · exact Nat.zero_le _
      · exact edgeBytes_le hno

theorem endBytes_eq {b : BlockId} {t : Terminator} (h : (f.block b).terminator = some t) :
    endBytes f b = terminatorBytes f t := by
  rw [endBytes, h, Option.map_some, Option.getD_some]

/-- A jump costs no more than the branch of which it is one way. -/
theorem edgeBytes_le_of_decided {t : Terminator} {taken : BlockId} {untaken : Option BlockId}
    (h : IR.Simplify.decided t = some (taken, untaken)) :
    edgeBytes f taken ≤ terminatorBytes f t := by
  cases t with
  | condBr cond yes no =>
    have hways : taken = yes ∨ taken = no := by
      simp only [IR.Simplify.decided] at h
      grind
    rw [terminatorBytes]
    rcases hways with rfl | rfl
    · omega
    · split
      · next hno =>
        rw [edgeBytes, hno, edgeBytes]
        simp only [List.length_nil, Nat.zero_mul]
        omega
      · omega
  | _ => cases h

theorem terminatorBytes_mapOperands (f : Func) (m : Operand → Operand) (t : Terminator) :
    terminatorBytes f (t.mapOperands m) = terminatorBytes f t := by
  cases t <;> rfl

/-- The end of a block costs no more if it stays the same up to the values that it uses. -/
theorem endBytes_le {b c : BlockId} (m : Operand → Operand)
    (ht : (g.block b).terminator = (f.block c).terminator.map (·.mapOperands m))
    (hphis : ∀ d ∈ g.successors b, (g.phis d).Sublist (f.phis d)) :
    endBytes g b ≤ endBytes f c := by
  cases hc : (f.block c).terminator with
  | none =>
    rw [endBytes, ht, hc]
    exact Nat.zero_le _
  | some t =>
    rw [hc, Option.map_some] at ht
    rw [endBytes_eq hc, endBytes_eq ht, terminatorBytes_mapOperands]
    apply terminatorBytes_le
    have hsuccessors : g.successors b = t.successors := by
      rw [Func.successors, ht]
      cases t <;> rfl
    rwa [hsuccessors] at hphis

/-- The end of a block, as it is, costs no more if there are fewer phis. -/
theorem endBytes_le_of_eq {b c : BlockId} (ht : (g.block b).terminator = (f.block c).terminator)
    (hphis : ∀ d ∈ g.successors b, (g.phis d).Sublist (f.phis d)) :
    endBytes g b ≤ endBytes f c := by
  have hid : ∀ t : Terminator, t.mapOperands id = t := by
    intro t
    cases t <;> rfl
  exact endBytes_le id (by simp [ht, hid]) hphis

theorem endBytes_edit (h : f.Edit g) (b : BlockId) : endBytes g b ≤ endBytes f b := by
  have hphis : ∀ d ∈ g.successors b, (g.phis d).Sublist (f.phis d) := fun d _ => h.phis_sublist d
  cases h with
  | @substitute i v hi hv =>
    refine endBytes_le (fun w => if w = .inst i then v else w) ?_ hphis
    rw [Func.substitute, Func.terminator_removeInsts, Func.replaceUses, Func.block_mapOperands]
  | remove hi hl => exact endBytes_le_of_eq (Func.terminator_removeInsts ..) hphis

theorem endBytes_restricts (h : Reduction f g) (hr : f.Restricts g) {b : BlockId}
    (hb : b ∈ g.layout) : endBytes g b ≤ endBytes f b := by
  have hphis : ∀ d ∈ g.successors b, (g.phis d).Sublist (f.phis d) :=
    fun d hd => h.phis_sublist (hr.successor_mem hb hd)
  rcases hr.terminator hb with ht | ⟨taken, untaken, hd, ht⟩
  · exact endBytes_le_of_eq ht hphis
  · obtain ⟨t, ht', hd⟩ := Option.bind_eq_some_iff.1 hd
    have htaken : taken ∈ g.successors b := by simp [Func.successors, ht, Terminator.successors]
    rw [endBytes_eq ht, endBytes_eq ht']
    exact (edgeBytes_le (hphis taken htaken)).trans (edgeBytes_le_of_decided hd)

theorem total_ends_le (h : Reduction f g) :
    total (endBytes g) g.layout ≤ total (endBytes f) f.layout := by
  cases h with
  | edit h =>
    rw [h.layout]
    exact total_le fun b _ => endBytes_edit h b
  | restrict hf hr hlt =>
    exact (total_le fun b hb => endBytes_restricts (.restrict hf hr hlt) hr hb).trans
      (total_sublist hr.layout)
  | @merge p b hf hm hr =>
    obtain ⟨rest, hperm, hperm', hrest⟩ := hm.layout_perm hf.layout_nodup
    have hphis {c d : BlockId} (hc : c ∈ g.layout) (hd : d ∈ g.successors c) :
        (g.phis d).Sublist (f.phis d) :=
      hm.phis (hm.successor_mem hf.toVerified hc hd) ▸ .refl _
    have hpred : endBytes g p ≤ endBytes f b :=
      endBytes_le_of_eq hm.terminator_pred fun d => hphis hm.pred_mem_layout
    have hothers : total (endBytes g) rest ≤ total (endBytes f) rest :=
      total_le fun c hc => endBytes_le_of_eq (hm.terminator (hrest c hc).1 (hrest c hc).2)
        fun d => hphis (hrest c hc).1
    rw [total_perm hperm, total_perm hperm', total_cons, total_cons, total_cons]
    omega

/-! ### Functions -/

/-- Code for `g` needs no more registers, arguments and bytes than code for `f`. -/
structure Saves (f g : Func) : Prop where
  registers : registerCount g ≤ registerCount f
  args : maxCallArgs g ≤ maxCallArgs f
  bytes : codeBytes g ≤ codeBytes f

theorem Saves.refl (f : Func) : Saves f f := ⟨Nat.le_refl _, Nat.le_refl _, Nat.le_refl _⟩

theorem Saves.trans {h : Func} (hfg : Saves f g) (hgh : Saves g h) : Saves f h :=
  ⟨hgh.registers.trans hfg.registers, hgh.args.trans hfg.args, hgh.bytes.trans hfg.bytes⟩

theorem saves_of_reduction (h : Reduction f g) : Saves f g where
  registers := by
    have harity : g.arity = f.arity := congrArg List.length h.sizes.params
    have hslots := usedSlots_le h
    have hresults := constants_results_le h
    have hargs := maxCallArgs_le h
    have hphis := maxPhis_le h
    rw [registerCount, registerCount]
    omega
  args := maxCallArgs_le h
  bytes := Nat.add_le_add (constants_operations_le h) (total_ends_le h)

theorem saves_run (passes : IR.Pipeline) (hf : f.WellFormed) : Saves f (passes.run f).1 :=
  passes.run_keeps (P := Saves f) (fun _ _ h hs => hs.trans (saves_of_reduction h)) hf (.refl f)

/-! ### Copies -/

/-- The value that a phi receives is not in its own register, unless it is its own result. -/
theorem register_ne (hf : f.Verified) {i : InstId} {v : Operand} (hv : v ∈ f.usedOperands)
    (hne : v ≠ .inst i) {dst src : Nat}
    (hd : (Registers.allocate f).results.getD i none = some dst)
    (hs : (Registers.allocate f).operand? v = some src) : dst ≠ src := by
  have hr := Registers.numbered_results f
  have low {n : Nat}
      (hn : n < (Registers.allocate f).firstConstant + (Registers.allocate f).constants.length) :
      dst ≠ n := Nat.ne_of_gt (Nat.lt_of_lt_of_le hn (hr.range hd).1)
  have constant {x : Float} (hx : constant? v = some x) : dst ≠ (Registers.allocate f).constant x :=
    low (Registers.constant_lt (mem_constantsOf.2 ⟨v, hv, hx⟩))
  obtain ⟨type, hfits⟩ := hf.exists_fits hv
  cases v with
  | inst j =>
    obtain ⟨hj, -, htype⟩ := hfits
    obtain ⟨n, hn⟩ := Registers.exists_result hf hj (htype ▸ rfl)
    simp only [Registers.operand?, Registers.result, hn, Option.getD_some] at hs
    split at hs
    · rw [← Option.some.inj hs]
      rintro rfl
      exact hne (congrArg _ (hr.inj hn hd))
    · cases hs
  | arg n =>
    rw [← Option.some.inj hs]
    exact low (Nat.lt_of_le_of_lt (Nat.mod_le ..)
      (Nat.lt_of_lt_of_le hfits.1 (Registers.arity_le f)))
  | const x | bool x =>
    rw [← Option.some.inj hs]
    exact constant rfl

/-- In a tidy function there is at most one copy at the end of a block, and it reads another
register than it writes. -/
theorem direct_of_tidy {rank : BlockId → Nat} (h : f.Tidy rank) (hf : f.WellFormed)
    (hr : IR.Simplify.AllReached f) : Direct f := by
  intro b hb c hc copies hcopies x hx y hy
  have hcl := hf.toVerified.successor_mem hb hc
  have hlength : copies.length ≤ 1 :=
    (length_edgeCopies_eq hf.toVerified hb hc hcopies).trans_le (h.phis hcl)
  obtain rfl : y = x := by
    obtain ⟨z, rfl⟩ := List.length_eq_one_iff.1 (Nat.le_antisymm hlength (List.length_pos_of_mem hx))
    rw [List.mem_singleton.1 hx, List.mem_singleton.1 hy]
  obtain ⟨i, hi, ⟨ho, hd, hv, hs⟩⟩ := (mem_edgeCopies hcopies).1 hx
  obtain ⟨⟨v, source⟩, hfind, rfl⟩ := Option.map_eq_some_iff.1 hv
  have hin := List.mem_of_find?_eq_some hfind
  have hused : v ∈ f.usedOperands :=
    Func.mem_usedOperands.2 (.inl ⟨c, hcl, i, hi, by rw [ho]; exact List.mem_map_of_mem hin⟩)
  exact register_ne hf.toVerified hused (h.incoming_ne hf hr hcl hi ho hin) hd hs

/-- Optimised code of a tidy function is no larger than the code was. -/
theorem exists_lower_run {rank : BlockId → Nat} (passes : IR.Pipeline) (h : f.Tidy rank)
    (hf : f.WellFormed) (hr : IR.Simplify.AllReached f) {chunk : Chunk}
    (hl : lower f = .ok chunk) : ∃ chunk', lower (passes.run f).1 = .ok chunk' ∧
      chunk'.registers ≤ chunk.registers ∧ chunk'.code.size ≤ chunk.code.size := by
  have hg := (passes.run_refines hf).wellFormed
  have hs := saves_run passes hf
  have ht := passes.run_keeps (P := (Func.Tidy · rank)) (fun _ _ h => h.tidy) hf h
  have hd := direct_of_tidy ht hg (passes.run_allReached hf hr)
  exact exists_lower_of_le hf.toVerified hg.toVerified hd hs.registers hs.args hs.bytes hl

end ScalarLang.Bytecode
