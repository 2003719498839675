import Mathlib.Data.List.Infix
import ScalarLang.Proofs.Codegen.Yields
import ScalarLang.Proofs.IR.Edits

/-! How a function grows while its code is generated. Code is added at the end of the current block
and in new blocks; what is there already, and ended blocks in particular, stays as it is. -/

namespace ScalarLang

namespace IR

/-! ### Functions -/

namespace Func

variable {f g k : Func}

/-- The instructions of a block, and its end if it has one. -/
def code (f : Func) (b : BlockId) : List InstId × Option Terminator :=
  ((f.block b).insts, (f.block b).terminator)

theorem insts_of_code {b c : BlockId} (h : g.code b = f.code c) :
    (g.block b).insts = (f.block c).insts := congrArg Prod.fst h

theorem terminator_of_code {b c : BlockId} (h : g.code b = f.code c) :
    (g.block b).terminator = (f.block c).terminator := congrArg Prod.snd h

theorem successors_of_code {b c : BlockId} (h : g.code b = f.code c) :
    g.successors b = f.successors c := by
  rw [successors, terminator_of_code h]
  rfl

/-- Function `g` is `f` with more code. -/
structure Grows (f g : Func) : Prop where
  params : g.params = f.params
  insts_le : f.insts.size ≤ g.insts.size
  slots_le : f.slots.size ≤ g.slots.size
  blocks_le : f.blocks.size ≤ g.blocks.size
  layout : f.layout <+: g.layout
  op {i : InstId} : i < f.insts.size → g.op i = f.op i
  insts (b : BlockId) : (f.block b).insts <+: (g.block b).insts
  /-- Instructions that are added are new. -/
  fresh {b : BlockId} {i : InstId} : i ∈ (g.block b).insts →
    i ∈ (f.block b).insts ∨ f.insts.size ≤ i
  ended {b : BlockId} : (f.block b).terminator.isSome → g.code b = f.code b

theorem Grows.refl (f : Func) : f.Grows f :=
  ⟨rfl, Nat.le_refl _, Nat.le_refl _, Nat.le_refl _, List.prefix_rfl, fun _ => rfl,
    fun _ => List.prefix_rfl, .inl, fun _ => rfl⟩

theorem Grows.trans (hfg : f.Grows g) (hgk : g.Grows k) : f.Grows k where
  params := hgk.params.trans hfg.params
  insts_le := hfg.insts_le.trans hgk.insts_le
  slots_le := hfg.slots_le.trans hgk.slots_le
  blocks_le := hfg.blocks_le.trans hgk.blocks_le
  layout := hfg.layout.trans hgk.layout
  op hi := (hgk.op (Nat.lt_of_lt_of_le hi hfg.insts_le)).trans (hfg.op hi)
  insts b := (hfg.insts b).trans (hgk.insts b)
  fresh hi := by
    rcases hgk.fresh hi with hi | hi
    · exact hfg.fresh hi
    · exact .inr (hfg.insts_le.trans hi)
  ended {b} hb := by
    have hfg := hfg.ended hb
    exact (hgk.ended (terminator_of_code hfg ▸ hb)).trans hfg

/-- The block has no code. -/
def Blank (f : Func) (b : BlockId) : Prop := f.code b = ([], none)

theorem Blank.insts {b : BlockId} (h : f.Blank b) : (f.block b).insts = [] := congrArg Prod.fst h

theorem Blank.terminator {b : BlockId} (h : f.Blank b) : (f.block b).terminator = none :=
  congrArg Prod.snd h

theorem blank_of_size_le {b : BlockId} (hb : f.blocks.size ≤ b) : f.Blank b := by
  rw [Blank, code, block_of_size_le hb]
  rfl

/-- Block `b` is ended with `t`, and the blocks `new` are laid out. -/
structure Ends (f g : Func) (b : BlockId) (t : Terminator) (new : List BlockId) : Prop where
  params : g.params = f.params
  insts : g.insts = f.insts
  slots : g.slots = f.slots
  blocks_le : f.blocks.size ≤ g.blocks.size
  layout : g.layout = f.layout ++ new
  insts_block (c : BlockId) : (g.block c).insts = (f.block c).insts
  terminator (c : BlockId) : (g.block c).terminator =
    if c = b then some t else (f.block c).terminator

namespace Ends

variable {b : BlockId} {t : Terminator} {new : List BlockId} (h : Ends f g b t new)
include h

theorem code : g.code b = ((f.block b).insts, some t) := by
  simp [Func.code, h.insts_block, h.terminator]

theorem code_of_ne {c : BlockId} (hc : c ≠ b) : g.code c = f.code c := by
  simp [Func.code, h.insts_block, h.terminator, hc]

theorem successors : g.successors b = t.successors := by
  simp [Func.successors, h.terminator]

theorem successors_of_ne {c : BlockId} (hc : c ≠ b) : g.successors c = f.successors c :=
  successors_of_code (h.code_of_ne hc)

theorem op (i : InstId) : g.op i = f.op i := by
  rw [Func.op, Func.inst, h.insts]
  rfl

theorem grows (hb : (f.block b).terminator = none) : f.Grows g where
  params := h.params
  insts_le := h.insts ▸ Nat.le_refl _
  slots_le := h.slots ▸ Nat.le_refl _
  blocks_le := h.blocks_le
  layout := h.layout ▸ List.prefix_append _ _
  op _ := h.op _
  insts c := h.insts_block c ▸ List.prefix_rfl
  fresh {c _} hi := .inl (h.insts_block c ▸ hi)
  ended hc := h.code_of_ne (by rintro rfl; simp [hb] at hc)

end Ends

end Func

/-! ### Builders -/

namespace Builder

variable {b b' b₀ b₁ b₂ : Builder}

/-- The current block can take more code, and all code that is placed exists. -/
structure Ready (b : Builder) : Prop where
  current_lt : b.current < b.func.blocks.size
  not_ended : (b.func.block b.current).terminator = none
  placed_lt {c : BlockId} {i : InstId} : i ∈ (b.func.block c).insts → i < b.func.insts.size

/-- What becomes of a builder while an expression is generated. -/
structure Growth (b b' : Builder) : Prop where
  grows : b.func.Grows b'.func
  ready : b'.Ready
  current : b'.current = b.current ∨ b.func.blocks.size ≤ b'.current
  /-- No other block that was there has changed. -/
  code {c : BlockId} : c < b.func.blocks.size → c ≠ b.current → b'.func.code c = b.func.code c
  /-- No phi is added to the block. -/
  not_phi {i : InstId} : i ∈ (b'.func.block b.current).insts →
    i ∈ (b.func.block b.current).insts ∨ ¬(b'.func.op i).isPhi
  /-- No block that was there is laid out. -/
  laid_out {c : BlockId} : c ∈ b'.func.layout → c < b.func.blocks.size → c ∈ b.func.layout
  /-- Blocks that are ended lead to new ones. -/
  target {c d : BlockId} : (b.func.block c).terminator = none → d ∈ b'.func.successors c →
    b.func.blocks.size ≤ d

theorem Growth.refl (hb : b.Ready) : b.Growth b where
  grows := .refl _
  ready := hb
  current := .inl rfl
  code _ _ := rfl
  not_phi := .inl
  laid_out hc _ := hc
  target hc hd := by simp [Func.successors, hc] at hd

/-- Code is not generated in another block that was there. -/
theorem Growth.current_ne (h : b.Growth b') {c : BlockId} (hc : c < b.func.blocks.size)
    (hne : c ≠ b.current) : c ≠ b'.current := by
  rcases h.current with he | he
  · rwa [he]
  · exact Nat.ne_of_lt (Nat.lt_of_lt_of_le hc he)

theorem Growth.trans (h₀ : b₀.Ready) (h₁ : b₀.Growth b₁) (h₂ : b₁.Growth b₂) : b₀.Growth b₂ where
  grows := h₁.grows.trans h₂.grows
  ready := h₂.ready
  current := by
    rcases h₂.current with hc | hc
    · rw [hc]
      exact h₁.current
    · exact .inr (h₁.grows.blocks_le.trans hc)
  code hc hne :=
    (h₂.code (Nat.lt_of_lt_of_le hc h₁.grows.blocks_le) (h₁.current_ne hc hne)).trans
      (h₁.code hc hne)
  not_phi {i} hi := by
    have old (hi : i ∈ (b₁.func.block b₀.current).insts) :
        i ∈ (b₀.func.block b₀.current).insts ∨ ¬(b₂.func.op i).isPhi := by
      rw [h₂.grows.op (h₁.ready.placed_lt hi)]
      exact h₁.not_phi hi
    rcases h₁.current with he | he
    · rw [← he] at hi old ⊢
      rcases h₂.not_phi hi with hi | hi
      · exact old hi
      · exact .inr hi
    · -- the block has been left
      have hlt := h₀.current_lt
      have hcode := h₂.code (Nat.lt_of_lt_of_le hlt h₁.grows.blocks_le)
        (Nat.ne_of_lt (Nat.lt_of_lt_of_le hlt he))
      exact old (Func.insts_of_code hcode ▸ hi)
  laid_out hc hlt := h₁.laid_out (h₂.laid_out hc (Nat.lt_of_lt_of_le hlt h₁.grows.blocks_le)) hlt
  target {c d} hc hd := by
    cases ht : (b₁.func.block c).terminator with
    | none => exact h₁.grows.blocks_le.trans (h₂.target ht hd)
    | some t =>
      have hcode := h₂.grows.ended (by rw [ht]; rfl)
      exact h₁.target hc (Func.successors_of_code hcode ▸ hd)

theorem blank_start (name : String) (params : List String) :
    ∀ c, (start name params).func.Blank c
  | 0 => rfl
  | _ + 1 => Func.blank_of_size_le (Nat.le_add_left 1 _)

theorem ready_start (name : String) (params : List String) : (start name params).Ready where
  current_lt := Nat.one_pos
  not_ended := rfl
  placed_lt {c i} hi := by
    rw [(blank_start name params c).insts] at hi
    exact nomatch hi

/-! ### Instructions and slots -/

@[simp] theorem current_addInst (b : Builder) (op : Operation) (name : String) :
    (b.addInst op name).2.current = b.current := rfl

@[simp] theorem insts_addInst (b : Builder) (op : Operation) (name : String) :
    (b.addInst op name).2.func.insts.size = b.func.insts.size + 1 := by
  simp [addInst, Func.modifyBlock]

theorem op_addInst (b : Builder) (op : Operation) (name : String) (i : InstId) :
    (b.addInst op name).2.func.op i = if i = b.func.insts.size then op else b.func.op i := by
  simp only [addInst, Func.op_modifyBlock]
  simp only [Func.op, Func.inst, Array.getD_eq_getD_getElem?, Array.getElem?_push]
  split <;> rfl

theorem op_addInst_self (b : Builder) (op : Operation) (name : String) :
    (b.addInst op name).2.func.op b.func.insts.size = op := by
  rw [op_addInst, if_pos rfl]

theorem insts_block_addInst (hb : b.Ready) (op : Operation) (name : String) (c : BlockId) :
    ((b.addInst op name).2.func.block c).insts =
      (b.func.block c).insts ++ if c = b.current then [b.func.insts.size] else [] := by
  have hsize : b.current < ({ b.func with
      insts := b.func.insts.push ⟨op, name⟩ } : Func).blocks.size := hb.current_lt
  simp only [addInst, Func.block_modifyBlock, hsize, and_true]
  by_cases hc : c = b.current <;> simp [hc, Func.block]

theorem mem_block_addInst (hb : b.Ready) {op : Operation} {name : String} {c : BlockId}
    {i : InstId} :
    i ∈ ((b.addInst op name).2.func.block c).insts ↔
      i ∈ (b.func.block c).insts ∨ c = b.current ∧ i = b.func.insts.size := by
  rw [insts_block_addInst hb, List.mem_append]
  split <;> simp_all

@[simp] theorem terminator_addInst (b : Builder) (op : Operation) (name : String) (c : BlockId) :
    ((b.addInst op name).2.func.block c).terminator = (b.func.block c).terminator := by
  simp only [addInst, Func.block_modifyBlock]
  split
  · next hc => simp [hc.1, Func.block]
  · rfl

theorem successors_addInst (b : Builder) (op : Operation) (name : String) (c : BlockId) :
    (b.addInst op name).2.func.successors c = b.func.successors c := by
  rw [Func.successors, terminator_addInst, Func.successors]

theorem code_addInst_of_ne (hb : b.Ready) (op : Operation) (name : String) {c : BlockId}
    (hc : c ≠ b.current) : (b.addInst op name).2.func.code c = b.func.code c := by
  simp [Func.code, insts_block_addInst hb, hc]

theorem grows_addInst (hb : b.Ready) (op : Operation) (name : String) :
    b.func.Grows (b.addInst op name).2.func where
  params := rfl
  insts_le := by simp
  slots_le := Nat.le_refl _
  blocks_le := (b.size_addInst op name).ge
  layout := List.prefix_rfl
  op {i} hi := by rw [op_addInst, if_neg (Nat.ne_of_lt hi)]
  insts c := insts_block_addInst hb op name c ▸ List.prefix_append _ _
  fresh hi := ((mem_block_addInst hb).1 hi).imp_right fun h => h.2.ge
  ended {c} hc := by
    refine code_addInst_of_ne hb op name ?_
    rintro rfl
    simp [hb.not_ended] at hc

theorem ready_addInst (hb : b.Ready) (op : Operation) (name : String) :
    (b.addInst op name).2.Ready where
  current_lt := Nat.lt_of_lt_of_le hb.current_lt (grows_addInst hb op name).blocks_le
  not_ended := (b.terminator_addInst op name _).trans hb.not_ended
  placed_lt hi := by
    rw [insts_addInst]
    rcases (mem_block_addInst hb).1 hi with hi | ⟨-, rfl⟩
    · exact Nat.lt_succ_of_lt (hb.placed_lt hi)
    · exact Nat.lt_succ_self _

theorem Growth.addInst (h₀ : b₀.Ready) (h : b₀.Growth b) (op : Operation) (name : String)
    (hop : ¬op.isPhi ∨ b₀.func.blocks.size ≤ b.current) : b₀.Growth (b.addInst op name).2 where
  grows := h.grows.trans (grows_addInst h.ready op name)
  ready := ready_addInst h.ready op name
  current := h.current
  code {c} hc hne := by
    rw [code_addInst_of_ne h.ready op name (h.current_ne hc hne), h.code hc hne]
  not_phi {i} hi := by
    rw [op_addInst]
    rcases (mem_block_addInst h.ready).1 hi with hi | ⟨hc, rfl⟩
    · rw [if_neg (Nat.ne_of_lt (h.ready.placed_lt hi))]
      exact h.not_phi hi
    · rw [if_pos rfl]
      refine .inr (hop.resolve_right fun hle => ?_)
      exact absurd h₀.current_lt (Nat.not_lt.2 (hc ▸ hle))
  laid_out := h.laid_out
  target {c d} hc hd := h.target hc (by rwa [successors_addInst] at hd)

theorem Growth.addSlot (h : b₀.Growth b) (name : String) : b₀.Growth (b.addSlot name).2 where
  grows := h.grows.trans { Func.Grows.refl b.func with slots_le := by simp [Builder.addSlot] }
  ready := ⟨h.ready.current_lt, h.ready.not_ended, h.ready.placed_lt⟩
  current := h.current
  code := h.code
  not_phi := h.not_phi
  laid_out := h.laid_out
  target := h.target

/-! ### Branches -/

/-- The current block ends with `t`, and code goes on in `next`. -/
structure Branches (b b' : Builder) (t : Terminator) (next : BlockId) : Prop extends
    ends : b.func.Ends b'.func b.current t [next] where
  current : b'.current = next
  next_lt : next < b'.func.blocks.size

/-- The block where code goes on is empty if it was. -/
theorem Branches.blank {t : Terminator} {next : BlockId} (h : b.Branches b' t next)
    (hne : next ≠ b.current) (hnext : b.func.Blank next) : b'.func.Blank b'.current := by
  rw [Func.Blank, h.current, h.code_of_ne hne, hnext]

theorem Branches.ready {t : Terminator} {next : BlockId} (h : b.Branches b' t next) (hb : b.Ready)
    (hne : next ≠ b.current) (hnext : b.func.Blank next) : b'.Ready where
  current_lt := h.current ▸ h.next_lt
  not_ended := (h.blank hne hnext).terminator
  placed_lt {c _} hi := by
    rw [h.insts]
    exact hb.placed_lt (h.insts_block c ▸ hi)

theorem Growth.branch {t : Terminator} {next : BlockId} (h : b₀.Growth b)
    (hb : b.Branches b' t next) (hnew : b₀.func.blocks.size ≤ next) (hne : next ≠ b.current)
    (hnext : b.func.Blank next) (ht : ∀ d ∈ t.successors, b₀.func.blocks.size ≤ d) :
    b₀.Growth b' where
  grows := h.grows.trans (hb.grows h.ready.not_ended)
  ready := hb.ready h.ready hne hnext
  current := .inr (hb.current ▸ hnew)
  code {c} hc hn := by rw [hb.code_of_ne (h.current_ne hc hn), h.code hc hn]
  not_phi {i} hi := by
    rw [hb.op]
    exact h.not_phi (hb.insts_block _ ▸ hi)
  laid_out {c} hc hlt := by
    rcases List.mem_append.1 (hb.layout ▸ hc) with hc | hc
    · exact h.laid_out hc hlt
    · exact absurd hlt (Nat.not_lt.2 (List.mem_singleton.1 hc ▸ hnew))
  target {c d} hc hd := by
    by_cases he : c = b.current
    · rw [he, hb.successors] at hd
      exact ht d hd
    · exact h.target hc (hb.successors_of_ne he ▸ hd)

/-- A new block is empty, as one that does not exist. -/
theorem code_createBlock (b : Builder) (name : String) (c : BlockId) :
    (b.createBlock name).2.func.code c = b.func.code c := by
  simp only [createBlock, Func.code, Func.block, Array.getD_eq_getD_getElem?, Array.getElem?_push]
  split
  · next hc => rw [hc, Array.getElem?_eq_none (Nat.le_refl _)]; rfl
  · rfl

theorem size_terminate (b : Builder) (t : Terminator) :
    (b.terminate t).func.blocks.size = b.func.blocks.size := by
  simp [terminate, Func.modifyBlock]

theorem ends_terminate (hb : b.current < b.func.blocks.size) (t : Terminator) :
    b.func.Ends (b.terminate t).func b.current t [] where
  params := rfl
  insts := rfl
  slots := rfl
  blocks_le := (b.size_terminate t).ge
  layout := (List.append_nil _).symm
  insts_block c := by
    simp only [terminate, Func.block_modifyBlock]
    split
    · next hc => rw [hc.1]
    · rfl
  terminator c := by
    simp only [terminate, Func.block_modifyBlock, hb, and_true]
    split <;> rfl

/-- The current block is ended after new blocks were created. -/
theorem branches_terminate (hb : b.Ready) (t : Terminator) {next : BlockId} (blocks : Array Block)
    (hle : b.func.blocks.size ≤ blocks.size) (hnext : next < blocks.size)
    (hcode : ∀ c, ({ b.func with blocks } : Func).code c = b.func.code c) :
    let created : Func := { b.func with blocks, layout := b.func.layout ++ [next] }
    b.Branches (((⟨created, b.current⟩ : Builder).terminate t).position next) t next := by
  intro created
  have hsize := (size_terminate ⟨created, b.current⟩ t).ge
  have hends := ends_terminate (b := ⟨created, b.current⟩)
    (Nat.lt_of_lt_of_le hb.current_lt hle) t
  exact {
    params := rfl
    insts := rfl
    slots := rfl
    blocks_le := hle.trans hsize
    layout := rfl
    insts_block := fun c => (hends.insts_block c).trans (Func.insts_of_code (hcode c))
    terminator := fun c => (hends.terminator c).trans
      (if_congr Iff.rfl rfl (Func.terminator_of_code (hcode c)))
    current := rfl
    next_lt := Nat.lt_of_lt_of_le hnext hsize }

theorem size_switch (b : Builder) (join next : BlockId) :
    (b.switch join next).func.blocks.size = b.func.blocks.size := b.size_terminate (.br join)

theorem branches_switch (hb : b.Ready) (join : BlockId) {next : BlockId}
    (hnext : next < b.func.blocks.size) : b.Branches (b.switch join next) (.br join) next :=
  branches_terminate hb _ b.func.blocks (Nat.le_refl _) hnext fun _ => rfl

theorem branches_enterLoop (hb : b.Ready) :
    b.Branches b.enterLoop (.br b.func.blocks.size) b.func.blocks.size :=
  branches_terminate hb _ (b.createBlock "loop").2.func.blocks (by simp [size_createBlock])
    (by simp [size_createBlock]) (b.code_createBlock "loop")

theorem size_enterLoop (b : Builder) : b.enterLoop.func.blocks.size = b.func.blocks.size + 1 := by
  simp [enterLoop, position, size_terminate, size_appendNewBlock]

theorem size_leaveLoop (b : Builder) (cond : Operand) (loop : BlockId) :
    (b.leaveLoop cond loop).func.blocks.size = b.func.blocks.size + 1 := by
  simp [leaveLoop, position, size_terminate, size_appendNewBlock]

theorem branches_leaveLoop (hb : b.Ready) (cond : Operand) (loop : BlockId) :
    b.Branches (b.leaveLoop cond loop) (.condBr cond loop b.func.blocks.size)
      b.func.blocks.size :=
  branches_terminate hb _ (b.createBlock "afterloop").2.func.blocks (by simp [size_createBlock])
    (by simp [size_createBlock]) (b.code_createBlock "afterloop")

theorem size_fork (b : Builder) (cond : Operand) :
    (b.fork cond).func.blocks.size = b.func.blocks.size + 3 := by
  simp [fork, createBlock, appendNewBlock, appendBlock, terminate, position, Func.modifyBlock]

theorem branches_fork (hb : b.Ready) (cond : Operand) :
    b.Branches (b.fork cond) (.condBr cond b.func.blocks.size (b.func.blocks.size + 1))
      b.func.blocks.size := by
  let thenBlock := (b.createBlock "then").2
  let elseBlock := (thenBlock.createBlock "else").2
  let joinBlock := (elseBlock.createBlock "ifcont").2
  have hsize : joinBlock.func.blocks.size = b.func.blocks.size + 3 := by
    simp [joinBlock, elseBlock, thenBlock, size_createBlock]
  have hno : thenBlock.func.blocks.size = b.func.blocks.size + 1 := b.size_createBlock _
  rw [← hno]
  refine branches_terminate hb _ joinBlock.func.blocks (hsize ▸ Nat.le_add_right _ 3)
    (hsize ▸ Nat.lt_add_of_pos_right (Nat.succ_pos 2)) fun c => ?_
  exact (code_createBlock _ _ c).trans ((code_createBlock _ _ c).trans (code_createBlock _ _ c))

/-! ### Conditionals and loops -/

/-- A branch to the first new block. -/
theorem Growth.branch_new (h : b₀.Growth b) {t : Terminator}
    (hb : b.Branches b' t b.func.blocks.size) (ht : ∀ d ∈ t.successors, b₀.func.blocks.size ≤ d) :
    b₀.Growth b' :=
  h.branch hb h.grows.blocks_le (Nat.ne_of_gt h.ready.current_lt)
    (Func.blank_of_size_le (Nat.le_refl _)) ht

theorem Branches.blank_new (hb : b.Ready) {t : Terminator}
    (h : b.Branches b' t b.func.blocks.size) : b'.func.Blank b'.current :=
  h.blank (Nat.ne_of_gt hb.current_lt) (Func.blank_of_size_le (Nat.le_refl _))

theorem growth_enterLoop (hb : b.Ready) : b.Growth b.enterLoop :=
  (Growth.refl hb).branch_new (branches_enterLoop hb) (by simp [Terminator.successors])

/-- The loop of which `b'` is the end has its head in the first new block. -/
theorem growth_leaveLoop (h : b.Growth b') (cond : Operand) :
    b.Growth (b'.leaveLoop cond b.func.blocks.size) :=
  h.branch_new (branches_leaveLoop h.ready cond _)
    (by simp [Terminator.successors, h.grows.blocks_le])

/-- The code of a conditional: its first branch ends in `y` and its second in `n`. -/
structure Diamond (cond : Operand) (b y n : Builder) : Prop where
  ready : b.Ready
  yes : (b.fork cond).Growth y
  no : (y.switch (b.func.blocks.size + 2) (b.func.blocks.size + 1)).Growth n

namespace Diamond

variable {cond : Operand} {y n : Builder}

theorem growth_fork (hb : b.Ready) (cond : Operand) : b.Growth (b.fork cond) :=
  (Growth.refl hb).branch_new (branches_fork hb cond) (by simp [Terminator.successors])

section

variable (hb : b.Ready) (hy : (b.fork cond).Growth y)
include hb hy

theorem growth_yes : b.Growth y := (growth_fork hb cond).trans hb hy

/-- The first branch leaves the blocks of the second and of what follows as they are. -/
theorem later_blank {c : BlockId} (hc : b.func.blocks.size < c)
    (hc' : c < b.func.blocks.size + 3) :
    c < y.func.blocks.size ∧ c ≠ y.current ∧ y.func.Blank c := by
  have hlt : c < (b.fork cond).func.blocks.size := by rwa [size_fork]
  have hne : c ≠ (b.fork cond).current := Nat.ne_of_gt hc
  refine ⟨Nat.lt_of_lt_of_le hlt hy.grows.blocks_le, hy.current_ne hlt hne, ?_⟩
  rw [Func.Blank, hy.code hlt hne,
    (branches_fork hb cond).code_of_ne (Nat.ne_of_gt (hb.current_lt.trans hc))]
  exact Func.blank_of_size_le hc.le

/-- The first branch does not lay them out either. -/
theorem not_mem_layout_yes (hlt : ∀ {c}, c ∈ b.func.layout → c < b.func.blocks.size)
    {c : BlockId} (hc : b.func.blocks.size < c) (hc' : c < b.func.blocks.size + 3) :
    c ∉ y.func.layout := by
  intro hm
  have hm := hy.laid_out hm (by rwa [size_fork])
  rw [(branches_fork hb cond).layout, List.mem_append, List.mem_singleton] at hm
  rcases hm with hm | rfl
  · exact Nat.lt_asymm hc (hlt hm)
  · exact Nat.lt_irrefl _ hc

theorem branches_switch_no :
    y.Branches (y.switch (b.func.blocks.size + 2) (b.func.blocks.size + 1))
      (.br (b.func.blocks.size + 2)) (b.func.blocks.size + 1) :=
  branches_switch hy.ready _ (later_blank hb hy (Nat.lt_succ_self _) (by simp)).1

theorem growth_switch_no :
    b.Growth (y.switch (b.func.blocks.size + 2) (b.func.blocks.size + 1)) := by
  obtain ⟨-, hne, hblank⟩ := later_blank hb hy (Nat.lt_succ_self _) (by simp)
  exact (growth_yes hb hy).branch (branches_switch_no hb hy) (Nat.le_succ _) hne hblank
    (by simp [Terminator.successors])

end

variable (d : Diamond cond b y n)
include d

theorem growth_no : b.Growth n := (growth_switch_no d.ready d.yes).trans d.ready d.no

theorem join_blank : b.func.blocks.size + 2 < n.func.blocks.size ∧
    b.func.blocks.size + 2 ≠ n.current ∧ n.func.Blank (b.func.blocks.size + 2) := by
  obtain ⟨hlt, hne, hblank⟩ := later_blank d.ready d.yes (c := b.func.blocks.size + 2)
    (by simp) (by simp)
  have hb := branches_switch_no d.ready d.yes
  have hlt' := Nat.lt_of_lt_of_le hlt hb.blocks_le
  have hne' : b.func.blocks.size + 2 ≠
      (y.switch (b.func.blocks.size + 2) (b.func.blocks.size + 1)).current := Nat.succ_ne_self _
  refine ⟨Nat.lt_of_lt_of_le hlt' d.no.grows.blocks_le, d.no.current_ne hlt' hne', ?_⟩
  rw [Func.Blank, d.no.code hlt' hne', hb.code_of_ne hne]
  exact hblank

theorem not_mem_layout_no (hlt : ∀ {c}, c ∈ b.func.layout → c < b.func.blocks.size) :
    b.func.blocks.size + 2 ∉ n.func.layout := by
  intro hm
  have hb := branches_switch_no d.ready d.yes
  have hsize : b.func.blocks.size + 3 ≤ y.func.blocks.size :=
    b.size_fork cond ▸ d.yes.grows.blocks_le
  have hm := d.no.laid_out hm (Nat.lt_of_lt_of_le (Nat.lt_of_succ_le hsize) hb.blocks_le)
  rw [hb.layout, List.mem_append, List.mem_singleton] at hm
  refine not_mem_layout_yes d.ready d.yes hlt (by simp) (by simp) (hm.resolve_right ?_)
  exact Nat.succ_ne_self _

theorem branches_switch_join :
    n.Branches (n.switch (b.func.blocks.size + 2) (b.func.blocks.size + 2))
      (.br (b.func.blocks.size + 2)) (b.func.blocks.size + 2) :=
  branches_switch d.no.ready _ d.join_blank.1

theorem growth_join :
    b.Growth (n.switch (b.func.blocks.size + 2) (b.func.blocks.size + 2)) :=
  d.growth_no.branch d.branches_switch_join (Nat.le_add_right _ 2) d.join_blank.2.1
    d.join_blank.2.2 (by simp [Terminator.successors])

/-- The branches end in different blocks. -/
theorem ends_ne : y.current ≠ n.current := by
  rcases d.no.current with hc | hc
  · rw [hc]
    exact (later_blank d.ready d.yes (Nat.lt_succ_self _) (by simp)).2.1.symm
  · refine Nat.ne_of_lt (Nat.lt_of_lt_of_le ?_ hc)
    exact Nat.lt_of_lt_of_le d.yes.ready.current_lt (y.size_terminate _).ge

/-- Only the ends of the branches lead to where they meet. -/
theorem successors_join (hlt : ∀ {c e}, e ∈ b.func.successors c → e < b.func.blocks.size)
    (p : BlockId) : b.func.blocks.size + 2 ∈
      (n.switch (b.func.blocks.size + 2) (b.func.blocks.size + 2)).func.successors p ↔
      p = y.current ∨ p = n.current := by
  have hfork := branches_fork d.ready cond
  have hswitch := branches_switch_no d.ready d.yes
  have hsize : b.func.blocks.size + 3 ≤ y.func.blocks.size :=
    b.size_fork cond ▸ d.yes.grows.blocks_le
  by_cases hn : p = n.current
  · rw [hn, d.branches_switch_join.successors]
    simp [Terminator.successors]
  rw [d.branches_switch_join.successors_of_ne hn, or_iff_left hn]
  by_cases hy : p = y.current
  · -- the end of the first branch is not touched by the second
    have hcode := d.no.grows.ended (b := p) (by simp [hy, hswitch.terminator])
    rw [Func.successors_of_code hcode, hy, hswitch.successors]
    simp [Terminator.successors]
  refine iff_of_false (fun hjoin => ?_) hy
  cases ht : ((y.switch (b.func.blocks.size + 2)
      (b.func.blocks.size + 1)).func.block p).terminator with
  | none =>
    have hle := hsize.trans (hswitch.blocks_le.trans (d.no.target ht hjoin))
    exact Nat.not_succ_le_self _ hle
  | some t =>
    rw [Func.successors_of_code (d.no.grows.ended (by rw [ht]; rfl)),
      hswitch.successors_of_ne hy] at hjoin
    cases ht' : ((b.fork cond).func.block p).terminator with
    | none =>
      have hle := b.size_fork cond ▸ d.yes.target ht' hjoin
      exact Nat.not_succ_le_self _ hle
    | some t' =>
      rw [Func.successors_of_code (d.yes.grows.ended (by rw [ht']; rfl))] at hjoin
      by_cases hb : p = b.current
      · rw [hb, hfork.successors] at hjoin
        simp [Terminator.successors] at hjoin
      · exact Nat.not_lt.2 (Nat.le_add_right _ 2) (hlt (hfork.successors_of_ne hb ▸ hjoin))

end Diamond

end Builder

end IR

namespace Codegen

open IR (Builder BlockId Func Operand Operation SlotId Terminator InstId)

variable {s s' s₀ s₁ s₂ : State} {vs ws : List Operand} {registry : Registry}

/-! ### Expressions -/

/-- What becomes of the state while code is generated whose results are `vs`. -/
structure State.Grown (s : State) (vs : List Operand) (s' : State) : Prop where
  builder : s.builder.Growth s'.builder
  scope (name : String) : s'.scope.find? name = s.scope.find? name
  result {i : InstId} : .inst i ∈ vs → i < s'.builder.func.insts.size

namespace State.Grown

theorem refl (hs : s.builder.Ready) : s.Grown [] s := ⟨.refl hs, fun _ => rfl, nofun⟩

theorem of_subset (h : s.Grown vs s') (hw : ws ⊆ vs) : s.Grown ws s' :=
  { h with result := fun hi => h.result (hw hi) }

theorem const (h : s.Grown vs s') (v : Float) : s.Grown [.const v] s' :=
  { h with result := fun hi => by simp at hi }

theorem trans (h₁ : s.Grown vs s₁) (hs : s.builder.Ready) (h₂ : s₁.Grown ws s₂) :
    s.Grown (vs ++ ws) s₂ where
  builder := h₁.builder.trans hs h₂.builder
  scope name := (h₂.scope name).trans (h₁.scope name)
  result hi := by
    rcases List.mem_append.1 hi with hi | hi
    · exact Nat.lt_of_lt_of_le (h₁.result hi) h₂.builder.grows.insts_le
    · exact h₂.result hi

/-- Only the last results matter. -/
theorem next (h₁ : s.Grown vs s₁) (hs : s.builder.Ready) (h₂ : s₁.Grown ws s₂) : s.Grown ws s₂ :=
  (h₁.trans hs h₂).of_subset (List.subset_append_right _ _)

theorem update (h : s.Grown vs s') (step : Builder → Builder)
    (hstep : s.builder.Growth (step s'.builder))
    (hinsts : (step s'.builder).func.insts = s'.builder.func.insts) :
    s.Grown vs (s'.update step) where
  builder := hstep
  scope := h.scope
  result hi := Nat.lt_of_lt_of_le (h.result hi) (hinsts ▸ Nat.le_refl _)

theorem addSlot (hs : s.builder.Ready) (name : String) :
    s.Grown [] (s.update fun b => (b.addSlot name).2) :=
  ⟨(Builder.Growth.refl hs).addSlot name, fun _ => rfl, nofun⟩

theorem emit (h : s.Grown vs s') (hs : s.builder.Ready) {op : Operation} (hop : op.isPhi = false)
    (name : String) : s.Grown (s'.nextValue :: vs) (s'.emit op name) where
  builder := h.builder.addInst hs op name (.inl (by simp [hop]))
  scope := h.scope
  result hi := by
    refine Nat.lt_of_lt_of_le ?_ (Builder.insts_addInst ..).ge
    rcases List.mem_cons.1 hi with hi | hi
    · cases hi
      exact Nat.lt_succ_self _
    · exact Nat.lt_succ_of_lt (h.result hi)

theorem known {callee : String} {n : Nat} (h : s.Grown vs s')
    (hk : Known registry callee n s' s₁) : s.Grown vs s₁ where
  builder := hk.builder.symm ▸ h.builder
  scope := hk.scope.symm ▸ h.scope
  result := hk.builder.symm ▸ h.result

/-- A binding is closed after what it was made for. -/
theorem unbind (h : s.Grown vs s₁) (hs : s.builder.Ready) {name : String} {slot : SlotId}
    (hb : (s₁.bind name slot).Grown ws s₂) : s.Grown ws (s₂.unbind s₁ name) where
  builder := h.builder.trans hs hb.builder
  scope x := by
    refine Eq.trans ?_ (h.scope x)
    simp only [State.unbind, Table.find?_restore, hb.scope, State.bind, Table.find?_insert]
    split <;> simp_all
  result := hb.result

end State.Grown

/-- Whatever the generator yields, it has grown the state. -/
def Gen.Grows {α : Type} (g : Gen α) (values : α → List Operand) : Prop :=
  ∀ {s a s'}, g.Yields s a s' → s.builder.Ready → s.Grown (values a) s'

theorem grows_operatorCall (callee : String) (args : List Operand) (name : String) :
    (operatorCall registry callee args name).Grows ([·]) := by
  intro s v s' h hs
  obtain ⟨s₁, hk, rfl, rfl⟩ := yields_operatorCall h
  exact ((State.Grown.refl hs).known hk).emit hs rfl name

theorem grows_number (v : Float) : (genExpr registry (.number v)).Grows ([·]) := by
  intro s a s' h hs
  rw [genExpr, yields_pure] at h
  obtain ⟨rfl, rfl⟩ := h
  exact (State.Grown.refl hs).const v

theorem grows_var (name : String) : (genExpr registry (.var name)).Grows ([·]) := by
  intro s v s' h hs
  obtain ⟨slot, -, rfl, rfl⟩ := yields_var h
  exact (State.Grown.refl hs).emit hs rfl name

theorem grows_unary {op : Char} {e : Expr} (he : (genExpr registry e).Grows ([·])) :
    (genExpr registry (.unary op e)).Grows ([·]) := by
  intro s v s' h hs
  obtain ⟨ve, s₁, s₂, he', hk, rfl, rfl⟩ := yields_unary h
  exact ((he he' hs).known hk |>.emit hs rfl _).of_subset (by simp)

theorem grows_assign {name : String} {e : Expr} (he : (genExpr registry e).Grows ([·])) :
    (genExpr registry (.binary '=' (.var name) e)).Grows ([·]) := by
  intro s v s' h hs
  obtain ⟨s₁, slot, he', -, rfl⟩ := yields_assign h
  exact ((he he' hs).emit hs rfl "").of_subset (by simp)

theorem grows_applyBinary (op : Char) (left right : Operand) :
    (applyBinary registry op left right).Grows ([·]) := by
  intro s v s' h hs
  unfold applyBinary at h
  split at h
  · obtain ⟨rfl, rfl⟩ := yields_emit.1 h
    exact (State.Grown.refl hs).emit hs rfl _
  · split at h
    · simp only [yields_bind, yields_emit] at h
      obtain ⟨_, _, ⟨rfl, rfl⟩, rfl, rfl⟩ := h
      exact ((State.Grown.refl hs).emit hs rfl _ |>.emit hs rfl _).of_subset (by simp)
    · exact grows_operatorCall _ _ _ h hs

theorem grows_binary {op : Char} (hop : op ≠ '=') {left right : Expr}
    (hl : (genExpr registry left).Grows ([·])) (hr : (genExpr registry right).Grows ([·])) :
    (genExpr registry (.binary op left right)).Grows ([·]) := by
  intro s v s' h hs
  obtain ⟨vl, s₁, vr, s₂, hl', hr', h⟩ := yields_binary hop h
  have h₁ := hl hl' hs
  have h₂ := h₁.next hs (hr hr' h₁.builder.ready)
  exact h₂.next hs (grows_applyBinary _ _ _ h h₂.builder.ready)

theorem grows_args_nil : (genArgs registry []).Grows id := by
  intro s vs s' h hs
  rw [genArgs, yields_pure] at h
  obtain ⟨rfl, rfl⟩ := h
  exact .refl hs

theorem grows_init_none : (genInit registry none).Grows ([·]) := by
  intro s v s' h hs
  rw [genInit, yields_pure] at h
  obtain ⟨rfl, rfl⟩ := h
  exact (State.Grown.refl hs).const 0.0

theorem grows_else_none : (genElse registry none).Grows ([·]) := by
  intro s v s' h
  rw [genElse] at h
  exact absurd h yields_throw

theorem grows_args_cons {e : Expr} {rest : List Expr} (he : (genExpr registry e).Grows ([·]))
    (hrest : (genArgs registry rest).Grows id) : (genArgs registry (e :: rest)).Grows id := by
  intro s vs s' h hs
  obtain ⟨v, s₁, vs', he', hr', rfl⟩ := yields_args_cons h
  have h₁ := he he' hs
  exact h₁.trans hs (hrest hr' h₁.builder.ready)

theorem grows_call {callee : String} {args : List Expr} (ha : (genArgs registry args).Grows id) :
    (genExpr registry (.call callee args)).Grows ([·]) := by
  intro s v s' h hs
  obtain ⟨s₁, vs, s₂, hk, ha', rfl, rfl⟩ := yields_call h
  have h₁ := (State.Grown.refl hs).known hk
  have h₂ := h₁.next hs (ha ha' h₁.builder.ready)
  exact (h₂.emit hs rfl _).of_subset (by simp)

theorem grows_vars_cons {name : String} {init : Option Expr} {rest : List (String × Option Expr)}
    {body : Gen Operand} (hi : (genInit registry init).Grows ([·]))
    (hrest : (genVars registry rest body).Grows ([·])) :
    (genVars registry ((name, init) :: rest) body).Grows ([·]) := by
  intro s v s' h hs
  obtain ⟨vi, s₁, s₂, hi', hr', rfl⟩ := yields_vars_cons h
  have h₀ := State.Grown.addSlot hs name
  have h₁ := h₀.next hs (hi hi' h₀.builder.ready)
  have h₂ := h₁.emit hs (rfl : (Operation.store s.builder.func.slots.size vi).isPhi = false) ""
  exact h₂.unbind hs (hrest hr' h₂.builder.ready)

theorem grows_cond {test yes : Expr} {no : Option Expr} (ht : (genExpr registry test).Grows ([·]))
    (hy : (genExpr registry yes).Grows ([·])) (hn : (genElse registry no).Grows ([·])) :
    (genExpr registry (.cond test yes no)).Grows ([·]) := by
  intro s v s' h hs
  obtain ⟨vt, s₁, vy, s₂, vn, s₃, ht', hy', hn', rfl, rfl⟩ := yields_cond h
  have h₁ := (ht ht' hs).emit hs (rfl : (Operation.compare .one vt (.const 0.0)).isPhi = false)
    "ifcond"
  have hready := h₁.builder.ready
  rw [← s₁.builder.size_addInst (.compare .one vt (.const 0.0)) "ifcond"] at hn' ⊢
  have h₂ := hy hy' (Builder.Diamond.growth_fork hready _).ready
  have h₃ := hn hn' (Builder.Diamond.growth_switch_no hready h₂.builder).ready
  have d : Builder.Diamond _ _ _ _ := ⟨hready, h₂.builder, h₃.builder⟩
  exact {
    builder := h₁.builder.trans hs
      (d.growth_join.addInst hready _ "iftmp" (.inr (Nat.le_add_right _ 2)))
    scope := fun x => (h₃.scope x).trans ((h₂.scope x).trans (h₁.scope x))
    result := fun hi => by
      cases List.mem_singleton.1 hi
      exact Nat.lt_of_lt_of_le (Nat.lt_succ_self _) (Builder.insts_addInst ..).ge }

theorem State.Grown.advance (h : s.Grown vs s') (hs : s.builder.Ready) (index : String)
    (slot : SlotId) (increment : Operand) : s.Grown [] (s'.advance index slot increment) :=
  (h.emit hs rfl _ |>.emit hs rfl _ |>.emit hs rfl _).of_subset (List.nil_subset _)

/-- One round of a loop, up to the test at its end. -/
theorem State.Grown.round {index : String} {slot : SlotId} {stop step body : Expr}
    {vb increment vt : Operand} {s₃ : State} (hbody : (genExpr registry body).Grows ([·]))
    (hstep : (genExpr registry step).Grows ([·])) (hstop : (genExpr registry stop).Grows ([·]))
    (hs : s.builder.Ready) (hbody' : (genExpr registry body).Yields s vb s₁)
    (hstep' : (genExpr registry step).Yields s₁ increment s₂)
    (hstop' : (genExpr registry stop).Yields (s₂.advance index slot increment) vt s₃) :
    s.Grown [s₃.nextValue, vt] (s₃.emit (.compare .one vt (.const 0.0)) "loopcond") := by
  have h₁ := hbody hbody' hs
  have h₂ := h₁.next hs (hstep hstep' h₁.builder.ready)
  have h₃ := h₂.advance hs index slot increment
  exact (h₃.next hs (hstop hstop' h₃.builder.ready)).emit hs rfl "loopcond"

theorem grows_loop {index : String} {start stop step body : Expr}
    (hstart : (genExpr registry start).Grows ([·])) (hbody : (genExpr registry body).Grows ([·]))
    (hstep : (genExpr registry step).Grows ([·])) (hstop : (genExpr registry stop).Grows ([·])) :
    (genExpr registry (.loop index start stop step body)).Grows ([·]) := by
  intro s v s' h hs
  obtain ⟨first, s₁, vb, s₂, vs, s₃, vt, s₄, hstart', hbody', hstep', hstop', rfl, rfl⟩ :=
    yields_loop h
  rw [← s₁.builder.size_addInst (.store s.builder.func.slots.size first) ""]
  have h₀ := State.Grown.addSlot hs index
  have h₁ := (h₀.next hs (hstart hstart' h₀.builder.ready)).emit hs
    (rfl : (Operation.store s.builder.func.slots.size first).isPhi = false) ""
  have hl : ((s₁.emit (.store s.builder.func.slots.size first) "").bind index
    s.builder.func.slots.size).builder.Ready := h₁.builder.ready
  have hhead := (State.Grown.refl hl).update (·.enterLoop) (Builder.growth_enterLoop hl) rfl
  have h₂ := hhead.next hl
    (.round hbody hstep hstop hhead.builder.ready hbody' hstep' hstop')
  have h₃ := h₂.update (·.leaveLoop s₄.nextValue _) (Builder.growth_leaveLoop h₂.builder _) rfl
  exact (h₁.unbind hs h₃).const 0.0

/-- Generating an expression only adds code. -/
theorem genExpr_grows (registry : Registry) (e : Expr) : (genExpr registry e).Grows ([·]) :=
  genExpr.induct registry (fun e => (genExpr registry e).Grows ([·]))
    (fun e => (genElse registry e).Grows ([·])) (fun es => (genArgs registry es).Grows id)
    (fun vars => ∀ body, body.Grows ([·]) → (genVars registry vars body).Grows ([·]))
    (fun e => (genInit registry e).Grows ([·]))
    grows_number grows_var (fun _ _ => grows_unary) (fun _ _ => grows_assign)
    (fun _ _ hl _ _ _ h => absurd h (not_yields_assign hl)) (fun _ _ _ hop => grows_binary hop)
    (fun _ _ hv hb => genExpr_declare .. ▸ hv _ hb) (fun _ _ => grows_call) (fun _ _ _ => grows_cond)
    (fun _ _ _ _ _ => grows_loop) (fun _ => id)
    (fun _ _ _ hi hrest _ hb => grows_vars_cons hi (hrest _ hb)) grows_args_nil
    (fun _ _ => grows_args_cons) (fun _ => id) grows_else_none (fun _ => id) grows_init_none e

theorem genArgs_grows (registry : Registry) (es : List Expr) : (genArgs registry es).Grows id := by
  induction es with
  | nil => exact grows_args_nil
  | cons e rest ih => exact grows_args_cons (genExpr_grows registry e) ih

theorem genInit_grows (registry : Registry) : ∀ e, (genInit registry e).Grows ([·])
  | some e => genExpr_grows registry e
  | none => grows_init_none

theorem genElse_grows (registry : Registry) : ∀ e, (genElse registry e).Grows ([·])
  | some e => genExpr_grows registry e
  | none => grows_else_none

theorem genVars_grows (registry : Registry) {body : Gen Operand} (hb : body.Grows ([·])) (vars) :
    (genVars registry vars body).Grows ([·]) := by
  induction vars with
  | nil => exact hb
  | cons var rest ih => exact grows_vars_cons (genInit_grows registry var.2) ih

end Codegen

end ScalarLang
