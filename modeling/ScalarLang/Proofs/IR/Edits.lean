import ScalarLang.IR.Pass.Dead
import ScalarLang.IR.Pass.Simplify
import ScalarLang.Proofs.IR.Dominance

/-! What each edit of a function does to its blocks and operations. -/

namespace ScalarLang.IR

namespace Operation

theorem operands_mapOperands (g : Operand → Operand) (op : Operation) :
    (op.mapOperands g).operands = op.operands.map g := by
  cases op <;> simp [mapOperands, operands]

theorem typedOperands_mapOperands (g : Operand → Operand) (op : Operation) :
    (op.mapOperands g).typedOperands = op.typedOperands.map fun p => (g p.1, p.2) := by
  cases op <;> simp [mapOperands, typedOperands, operands]

@[simp] theorem type?_mapOperands (g : Operand → Operand) (op : Operation) :
    (op.mapOperands g).type? = op.type? := by
  cases op <;> rfl

@[simp] theorem isPhi_mapOperands (g : Operand → Operand) (op : Operation) :
    (op.mapOperands g).isPhi = op.isPhi := by
  cases op <;> rfl

@[simp] theorem isPure_mapOperands (g : Operand → Operand) (op : Operation) :
    (op.mapOperands g).isPure = op.isPure := by
  cases op <;> rfl

@[simp] theorem slot?_mapOperands (g : Operand → Operand) (op : Operation) :
    (op.mapOperands g).slot? = op.slot? := by
  cases op <;> rfl

theorem mapOperands_eq_phi {g : Operand → Operand} {op : Operation}
    {incoming : List (Operand × BlockId)} (h : op.mapOperands g = .phi incoming) :
    ∃ incoming', op = .phi incoming' ∧ incoming = incoming'.map fun p => (g p.1, p.2) := by
  cases op <;> simp only [mapOperands, reduceCtorEq, phi.injEq] at h
  exact ⟨_, rfl, h.symm⟩

theorem mapOperands_eq_load {g : Operand → Operand} {op : Operation} {s : SlotId}
    (h : op.mapOperands g = .load s) : op = .load s := by
  cases op <;> simp_all [mapOperands]

theorem mapOperands_eq_store {g : Operand → Operand} {op : Operation} {s : SlotId} {v : Operand}
    (h : op.mapOperands g = .store s v) : ∃ v', op = .store s v' ∧ v = g v' := by
  cases op <;> simp_all [mapOperands]

theorem typedOperands_fst (op : Operation) : op.typedOperands.map (·.1) = op.operands := by
  cases op <;> simp [typedOperands, operands, Function.comp_def]

theorem mem_operands_of_typed {op : Operation} {v : Operand} {type : Ty}
    (h : (v, type) ∈ op.typedOperands) : v ∈ op.operands :=
  op.typedOperands_fst ▸ List.mem_map_of_mem (f := (·.1)) h

theorem exists_typed_of_mem {op : Operation} {v : Operand} (h : v ∈ op.operands) :
    ∃ type, (v, type) ∈ op.typedOperands := by
  rw [← typedOperands_fst, List.mem_map] at h
  obtain ⟨⟨v, type⟩, h, rfl⟩ := h
  exact ⟨type, h⟩

end Operation

namespace Terminator

@[simp] theorem successors_mapOperands (g : Operand → Operand) (t : Terminator) :
    (t.mapOperands g).successors = t.successors := by
  cases t <;> rfl

theorem operands_mapOperands (g : Operand → Operand) (t : Terminator) :
    (t.mapOperands g).operands = t.operands.map g := by
  cases t <;> rfl

theorem typedOperands_mapOperands (g : Operand → Operand) (t : Terminator) :
    (t.mapOperands g).typedOperands = t.typedOperands.map fun p => (g p.1, p.2) := by
  cases t <;> rfl

theorem mem_operands_of_typed {t : Terminator} {v : Operand} {type : Ty}
    (h : (v, type) ∈ t.typedOperands) : v ∈ t.operands := by
  cases t <;> simp_all [typedOperands, operands]

theorem exists_typed_of_mem {t : Terminator} {v : Operand} (h : v ∈ t.operands) :
    ∃ type, (v, type) ∈ t.typedOperands := by
  cases t <;> simp_all [typedOperands, operands]

end Terminator

namespace Func

variable {f g : Func}

theorem block_of_size_le {b : BlockId} (h : f.blocks.size ≤ b) : f.block b = default := by
  simp [block, Array.getD, Nat.not_lt.2 h]

theorem op_of_size_le {i : InstId} (h : f.insts.size ≤ i) : f.op i = .phi [] := by
  simp [op, inst, Array.getD, Nat.not_lt.2 h]
  rfl

/-- The same parameters, and as many slots, instructions and blocks. -/
structure SameSizes (f g : Func) : Prop where
  params : g.params = f.params
  slots : g.slots.size = f.slots.size
  insts : g.insts.size = f.insts.size
  blocks : g.blocks.size = f.blocks.size

theorem SameSizes.refl (f : Func) : SameSizes f f := ⟨rfl, rfl, rfl, rfl⟩

theorem SameSizes.trans {f g h : Func} (hfg : SameSizes f g) (hgh : SameSizes g h) :
    SameSizes f h :=
  ⟨hgh.params.trans hfg.params, hgh.slots.trans hfg.slots, hgh.insts.trans hfg.insts,
    hgh.blocks.trans hfg.blocks⟩

/-- Functions that differ in operations only. -/
structure SameBlocks (f g : Func) : Prop where
  sizes : SameSizes f g
  layout : g.layout = f.layout
  block (b : BlockId) : g.block b = f.block b

theorem SameBlocks.refl (f : Func) : SameBlocks f f := ⟨.refl f, rfl, fun _ => rfl⟩

theorem SameBlocks.trans {f g h : Func} (hfg : SameBlocks f g) (hgh : SameBlocks g h) :
    SameBlocks f h :=
  ⟨hfg.sizes.trans hgh.sizes, hgh.layout.trans hfg.layout,
    fun b => (hgh.block b).trans (hfg.block b)⟩

/-! ### One block -/

theorem block_modifyBlock (f : Func) (b c : BlockId) (g : Block → Block) :
    (f.modifyBlock b g).block c =
      if c = b ∧ b < f.blocks.size then g (f.block b) else f.block c := by
  by_cases hc : c < f.blocks.size <;> by_cases hb : c = b <;>
    simp_all [modifyBlock, block, Array.getD, Array.getElem_modify] <;> grind

@[simp] theorem op_modifyBlock (f : Func) (b : BlockId) (g : Block → Block) (i : InstId) :
    (f.modifyBlock b g).op i = f.op i := rfl

@[simp] theorem layout_modifyBlock (f : Func) (b : BlockId) (g : Block → Block) :
    (f.modifyBlock b g).layout = f.layout := rfl

theorem sameSizes_modifyBlock (f : Func) (b : BlockId) (g : Block → Block) :
    SameSizes f (f.modifyBlock b g) := ⟨rfl, rfl, rfl, by simp [modifyBlock]⟩

/-! ### One operation -/

theorem op_modifyOp (f : Func) (i j : InstId) (g : Operation → Operation) :
    (f.modifyOp i g).op j = if j = i ∧ i < f.insts.size then g (f.op i) else f.op j := by
  by_cases hj : j < f.insts.size <;> by_cases hi : j = i <;>
    simp_all [modifyOp, op, inst, Array.getD, Array.getElem_modify] <;> grind

@[simp] theorem block_modifyOp (f : Func) (i : InstId) (g : Operation → Operation) (b : BlockId) :
    (f.modifyOp i g).block b = f.block b := rfl

/-! ### Operands -/

theorem op_mapOperands (f : Func) (g : Operand → Operand) (i : InstId) :
    (f.mapOperands g).op i = (f.op i).mapOperands g := by
  by_cases hi : i < f.insts.size
  · simp [op, inst, mapOperands, Array.getD, hi]
  · rw [op_of_size_le (Nat.not_lt.1 hi), op_of_size_le (by simpa [mapOperands] using hi)]
    rfl

theorem block_mapOperands (f : Func) (g : Operand → Operand) (b : BlockId) :
    (f.mapOperands g).block b =
      { f.block b with terminator := (f.block b).terminator.map (·.mapOperands g) } := by
  by_cases hb : b < f.blocks.size
  · simp [block, mapOperands, Array.getD, hb]
  · rw [block_of_size_le (Nat.not_lt.1 hb),
      block_of_size_le (by simpa [mapOperands] using hb)]
    rfl

theorem usedOperands_mapOperands (f : Func) (g : Operand → Operand) :
    (f.mapOperands g).usedOperands = f.usedOperands.map g := by
  simp only [usedOperands, List.map_flatMap, List.map_append, op_mapOperands,
    Operation.operands_mapOperands, block_mapOperands]
  congr 1
  funext b
  cases (f.block b).terminator <;> simp [Terminator.operands_mapOperands]

theorem not_used_replaceUses_self {i : InstId} {v : Operand} (hv : v ≠ .inst i) :
    .inst i ∉ (f.replaceUses i v).usedOperands := by
  rw [replaceUses, usedOperands_mapOperands, List.mem_map]
  rintro ⟨x, -, hx⟩
  split at hx
  · exact hv hx
  · next hne => exact hne hx

theorem not_used_replaceUses {i j : InstId} {v : Operand} (hv : v ≠ .inst j)
    (hj : .inst j ∉ f.usedOperands) : .inst j ∉ (f.replaceUses i v).usedOperands := by
  rw [replaceUses, usedOperands_mapOperands, List.mem_map]
  rintro ⟨x, hx, hxj⟩
  split at hxj
  · exact hv hxj
  · exact hj (hxj ▸ hx)

/-! ### Removal -/

@[simp] theorem op_removeInsts (f : Func) (dead : List InstId) (i : InstId) :
    (f.removeInsts dead).op i = f.op i := rfl

theorem terminator_removeInsts (f : Func) (dead : List InstId) (b : BlockId) :
    ((f.removeInsts dead).block b).terminator = (f.block b).terminator := by
  by_cases hb : b < f.blocks.size
  · simp [block, removeInsts, Array.getD, hb]
  · rw [block_of_size_le (Nat.not_lt.1 hb),
      block_of_size_le (by simpa [removeInsts] using hb)]

/-! ### Functions with the same places -/

/-- Blocks hold the same instructions and lead to the same blocks. -/
structure SameFlow (f g : Func) : Prop where
  layout : g.layout = f.layout
  insts (b : BlockId) : (g.block b).insts = (f.block b).insts
  successors (b : BlockId) : g.successors b = f.successors b

namespace SameFlow

variable (h : SameFlow f g)

include h

theorem symm : SameFlow g f :=
  ⟨h.layout.symm, fun b => (h.insts b).symm, fun b => (h.successors b).symm⟩

theorem trans {k : Func} (h' : SameFlow g k) : SameFlow f k :=
  ⟨h'.layout.trans h.layout, fun b => (h'.insts b).trans (h.insts b),
    fun b => (h'.successors b).trans (h.successors b)⟩

theorem live : g.live = f.live := by
  simp only [Func.live, h.layout, h.insts]

theorem preds (b : BlockId) : g.preds b = f.preds b := by
  simp only [Func.preds, h.layout, h.successors]

theorem entry? : g.entry? = f.entry? := by
  rw [Func.entry?, h.layout, Func.entry?]

theorem path {π : List BlockId} {b : BlockId} (hp : f.Path π b) : g.Path π b := by
  induction hp with
  | entry he => exact .entry (h.entry?.trans he)
  | step _ hc ih => exact ih.step (by rwa [h.successors])

theorem available {b : BlockId} {before : List InstId} {i : InstId}
    (ha : f.Available b before i) : g.Available b before i := by
  intro π hπ
  simp only [h.insts]
  exact ha π (h.symm.path hπ)

theorem availableOperand {b : BlockId} {before : List InstId} {v : Operand}
    (ha : f.AvailableOperand b before v) : g.AvailableOperand b before v :=
  fun i hi => h.available (ha i hi)

end SameFlow

theorem sameFlow_mapOperands (f : Func) (g : Operand → Operand) : SameFlow f (f.mapOperands g) where
  layout := rfl
  insts b := by rw [block_mapOperands]
  successors b := by
    simp only [successors, block_mapOperands]
    cases (f.block b).terminator <;> simp

end Func

/-! ### Operations of one block -/

namespace Simplify

theorem op_mapBlock (f : Func) (b : BlockId) (g : Operation → Operation)
    (hg : ∀ op, g (g op) = g op) (hp : g (.phi []) = .phi []) (i : InstId) :
    (mapBlock f b g).op i = if i ∈ (f.block b).insts then g (f.op i) else f.op i := by
  have edit (f : Func) (j : InstId) :
      (f.modifyOp j g).op i = if i = j then g (f.op i) else f.op i := by
    rw [Func.op_modifyOp]
    by_cases hj : j < f.insts.size
    · grind
    · have := Func.op_of_size_le (Nat.not_lt.1 hj)
      grind
  unfold mapBlock
  generalize (f.block b).insts = insts
  induction insts generalizing f with
  | nil => simp
  | cons j rest ih =>
    rw [List.foldl_cons, ih, edit]
    by_cases hij : i = j <;> by_cases hr : i ∈ rest <;> simp [hij, hr, hg]

theorem sameBlocks_mapBlock (f : Func) (b : BlockId) (g : Operation → Operation) :
    Func.SameBlocks f (mapBlock f b g) := by
  unfold mapBlock
  generalize (f.block b).insts = insts
  induction insts generalizing f with
  | nil => exact .refl f
  | cons j rest ih =>
    have : Func.SameBlocks f (f.modifyOp j g) :=
      ⟨⟨rfl, rfl, by simp [Func.modifyOp], rfl⟩, rfl, fun _ => rfl⟩
    exact this.trans (ih _)

end Simplify

end ScalarLang.IR
