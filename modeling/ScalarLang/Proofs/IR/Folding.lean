import ScalarLang.IR.Pass.Fold
import ScalarLang.Proofs.IR.Removal
import ScalarLang.Proofs.IR.Replacement

/-! Constant folding. A folded instruction is replaced by its value and then removed. A phi that
receives only one value, besides its own, has that value from the first time its block is
entered. -/

namespace ScalarLang.IR

namespace Func

variable {f : Func}

/-! ### What can be folded -/

/-- An instruction whose value depends on nothing. -/
theorem Replaceable.of_constant {i : InstId} {v : Operand} (hv : ∀ j, v ≠ .inst j)
    (hp : ¬(f.op i).isPhi) (hc : ∀ callee args, f.op i ≠ .call callee args)
    (fits : ∀ type, (f.op i).type? = some type → f.Fits v type)
    (eval : ∀ env, (evalOp i env (f.op i)).results i = env.value v) : f.Replaceable i v where
  ne := hv i
  fits h := fits _ h.2.2
  available _ _ j hj := absurd hj (hv j)
  not_entry _ hi := hp (mem_phis.1 hi).2
  inst _ _ hex := by rw [hex.eq_evalOp hc, eval]
  phi _ _ _ hi := absurd (mem_phis.1 hi).2 hp

section Phi

variable {b : BlockId} {i : InstId} {incoming : List (Operand × BlockId)} {v : Operand}

/-- A phi that receives something is not in the entry block. -/
theorem WellFormed.exists_pred (hf : f.WellFormed) (hb : b ∈ f.layout)
    (hi : i ∈ (f.block b).insts) (ho : f.op i = .phi incoming) (hv : v ∈ incoming.map (·.1)) :
    f.entry? ≠ some b := by
  intro he
  obtain ⟨⟨x, source⟩, hm, -⟩ := List.mem_map.1 hv
  have hs : source ∈ incoming.map (·.2) := List.mem_map_of_mem (f := (·.2)) hm
  have := (hf.toVerified.phi_sources hb hi ho).mem_iff.1 hs
  simp [hf.entry_preds he] at this

/-- What a phi receives first is available on every way to its block. -/
theorem WellFormed.available_of_phi (hf : f.WellFormed) (hb : b ∈ f.layout)
    (hi : i ∈ (f.block b).insts) (ho : f.op i = .phi incoming) (hv : v ∈ incoming.map (·.1))
    (hall : ∀ x ∈ incoming.map (·.1), x = .inst i ∨ x = v) : f.AvailableOperand b [] v := by
  rintro j rfl π hπ
  right
  -- ways that come back to the block pass it earlier
  induction hn : π.length using Nat.strongRecOn generalizing π with
  | ind n ih =>
    have again {π' : List BlockId} (hπ' : f.Path π' b) (hlt : π'.length < n)
        (hs : ∀ c ∈ π', c ∈ π) : ∃ c ∈ π, j ∈ (f.block c).insts := by
      obtain ⟨c, hc, hj⟩ := ih _ hlt π' hπ' rfl
      exact ⟨c, hs c hc, hj⟩
    cases hπ with
    | entry he => exact absurd he (hf.exists_pred hb hi ho hv)
    | @step π' p _ hp hs =>
      have hpl := hp.mem_layout hf.toVerified
      obtain ⟨x, hx⟩ := exists_incoming? ((hf.toVerified.mem_sources hb hi ho).2 ⟨hpl.1, hs⟩)
      have hx := mem_of_incoming? hx
      have ha := hf.dominated_phi hb hi ho hx
      rcases hall x (List.mem_map_of_mem (f := (·.1)) hx) with rfl | rfl
      · rcases ha i rfl π' hp with hm | ⟨c, hc, hm⟩
        · obtain rfl := block_unique hf.live_nodup hb hpl.1 hi hm
          exact again hp (by simp [← hn]) fun c hc => List.mem_cons_of_mem _ hc
        · obtain rfl := block_unique hf.live_nodup hb (hpl.2 c hc) hi hm
          obtain ⟨π₁, π₂, rfl, h₂⟩ := hp.of_mem hc
          exact again h₂ (by simp [← hn]; omega) fun c hc => by simp [hc]
      · rcases ha j rfl π' hp with hm | ⟨c, hc, hm⟩
        · exact ⟨p, List.mem_cons_self .., hm⟩
        · exact ⟨c, List.mem_cons_of_mem _ hc, hm⟩

/-- A phi that receives nothing but `v` and itself. -/
theorem Replaceable.of_phi (hf : f.WellFormed) (hb : b ∈ f.layout) (hi : i ∈ (f.block b).insts)
    (ho : f.op i = .phi incoming) (hv : v ∈ incoming.map (·.1)) (hne : v ≠ .inst i)
    (hall : ∀ x ∈ incoming.map (·.1), x = .inst i ∨ x = v) : f.Replaceable i v where
  ne := hne
  fits h := by
    obtain ⟨-, -, ht⟩ := h
    simp only [ho, Operation.type?, Option.some.injEq] at ht
    subst ht
    refine hf.toVerified.fits_inst hb hi ?_
    simpa [ho, Operation.typedOperands, Operation.operands] using hv
  available {c before after} hb' hl := by
    have hi' : i ∈ (f.block c).insts := by simp [hl]
    obtain rfl := block_unique hf.live_nodup hb hb' hi hi'
    rw [if_pos (by simp [ho, Operation.isPhi])]
    exact hf.available_of_phi hb hi ho hv hall
  not_entry he hi' := by
    obtain rfl := block_unique hf.live_nodup hb (entry_mem_layout he) hi (mem_phis.1 hi').1
    exact hf.exists_pred hb hi ho hv he
  inst hs hr _ := by
    have := not_phi_of_reachable hs i (by simp [hr])
    simp [ho, Operation.isPhi] at this
  phi {s c} hs hr hc hi' heq := by
    have hcl := hf.toVerified.successor_mem hs.mem_layout hc
    obtain ⟨x, hx⟩ := exists_incoming? ((hf.toVerified.mem_sources hcl (mem_phis.1 hi').1 ho).2
      ⟨hs.mem_layout, hc⟩)
    rw [results_enterEnv (mem_phis.1 hi').1 ho hx]
    have hx := mem_of_incoming? hx
    rcases hall x (List.mem_map_of_mem (f := (·.1)) hx) with rfl | rfl
    · exact heq (hf.dominated_phi hb hi ho hx i rfl)
    · rfl

end Phi

end Func

namespace Fold

variable {f : Func}

/-- The value of a folded phi is the only one, besides its own, that it receives. -/
theorem value?_phi {i : InstId} {incoming : List (Operand × BlockId)} {v : Operand}
    (h : value? i (.phi incoming) = some v) : v ∈ incoming.map (·.1) ∧ v ≠ .inst i ∧
      ∀ x ∈ incoming.map (·.1), x = .inst i ∨ x = v := by
  simp only [value?] at h
  split at h
  · cases h
  · next w rest hl =>
    split at h
    · next hall =>
      obtain rfl : w = v := Option.some.inj h
      have hm {x : Operand} : x ∈ w :: rest ↔ x ∈ incoming.map (·.1) ∧ x ≠ .inst i := by
        rw [← hl, List.mem_filter, decide_eq_true_eq]
      obtain ⟨hv, hne⟩ := hm.1 (List.mem_cons_self ..)
      refine ⟨hv, hne, fun x hx => ?_⟩
      by_cases hxi : x = .inst i
      · exact .inl hxi
      · rcases List.mem_cons.1 (hm.2 ⟨hx, hxi⟩) with rfl | hx
        · exact .inr rfl
        · simp only [List.all_eq_true, decide_eq_true_eq] at hall
          exact .inr (hall x hx)
    · cases h

theorem replaceable (hf : f.WellFormed) {i : InstId} (hi : i ∈ f.live) {v : Operand}
    (hv : value? i (f.op i) = some v) : f.Replaceable i v := by
  obtain ⟨b, hb, hi⟩ := Func.mem_live.1 hi
  have constant {op : Operation} (ho : f.op i = op) (h : ∀ j, v ≠ .inst j) (hp : ¬op.isPhi)
      (hc : ∀ callee args, op ≠ .call callee args)
      (fits : ∀ type, op.type? = some type → f.Fits v type)
      (eval : ∀ env, (Func.evalOp i env op).results i = env.value v) : f.Replaceable i v := by
    subst ho
    exact .of_constant h hp hc fits eval
  unfold value? at hv
  split at hv
  · next ho =>
    cases hv
    exact constant ho (by simp) Bool.false_ne_true (by simp)
      (by simp [Operation.type?, Func.Fits]) (by simp [Func.evalOp, Env.value])
  · next ho =>
    cases hv
    exact constant ho (by simp) Bool.false_ne_true (by simp)
      (by simp [Operation.type?, Func.Fits]) (by simp [Func.evalOp, Env.value])
  · next ho =>
    cases hv
    exact constant ho (by simp) Bool.false_ne_true (by simp)
      (by simp [Operation.type?, Func.Fits]) (by simp [Func.evalOp, Env.value])
  · next incoming ho =>
    obtain ⟨hm, hne, hall⟩ := value?_phi hv
    exact .of_phi hf hb hi ho hm hne hall
  · cases hv

/-- A folded value is a constant, or the code uses it. -/
theorem used_of_value? {i j : InstId} (hi : i ∈ f.live)
    (hv : value? i (f.op i) = some (.inst j)) : .inst j ∈ f.usedOperands := by
  obtain ⟨b, hb, hi⟩ := Func.mem_live.1 hi
  cases ho : f.op i with
  | phi incoming =>
    rw [ho] at hv
    refine Func.mem_usedOperands.2 (.inl ⟨b, hb, i, hi, ?_⟩)
    rw [ho]
    exact (value?_phi hv).1
  | _ =>
    rw [ho] at hv
    unfold value? at hv
    grind

theorem isPure_of_value? {i : InstId} {op : Operation} {v : Operand} (hv : value? i op = some v) :
    op.isPure := by
  cases op <;> first | rfl | simp [value?] at hv

/-! ### The pass -/

/-- Function `g` with the list of `dead` instructions is `f` after some folding. -/
structure Folded (f g : Func) (dead : List InstId) : Prop where
  refines : f.Refines g
  live : g.live = f.live
  unused {i : InstId} : i ∈ dead → .inst i ∉ g.usedOperands
  pure {i : InstId} : i ∈ dead → (g.op i).isPure

theorem Folded.inst {g : Func} {dead : List InstId} (h : Folded f g dead) {i : InstId}
    (hi : i ∈ f.live) : Folded f (inst g dead i).1 (inst g dead i).2 := by
  unfold Fold.inst
  split
  · next v hv =>
    rw [← h.live] at hi
    have hr := replaceable h.refines.wellFormed hi hv
    exact {
      refines := h.refines.trans (hr.refines h.refines.wellFormed)
      live := (Func.sameFlow_mapOperands g _).live.trans h.live
      unused := by
        intro j hj
        rcases List.mem_cons.1 hj with rfl | hj
        · exact Func.not_used_replaceUses_self hr.ne
        · -- the folded value is used already
          have hvj : v ≠ .inst j := fun he => h.unused hj (used_of_value? hi (he ▸ hv))
          exact Func.not_used_replaceUses hvj (h.unused hj)
      pure := by
        intro j hj
        rw [Func.replaceUses, Func.op_mapOperands, Operation.isPure_mapOperands]
        rcases List.mem_cons.1 hj with rfl | hj
        · exact isPure_of_value? hv
        · exact h.pure hj }
  · exact h

theorem Folded.foldl {g : Func} {dead insts : List InstId} (h : Folded f g dead)
    (hs : ∀ i ∈ insts, i ∈ f.live) :
    Folded f (insts.foldl (fun (f, dead) i => Fold.inst f dead i) (g, dead)).1
      (insts.foldl (fun (f, dead) i => Fold.inst f dead i) (g, dead)).2 := by
  induction insts generalizing g dead with
  | nil => exact h
  | cons i insts ih =>
    rw [List.forall_mem_cons] at hs
    exact ih (h.inst hs.1) hs.2

theorem run_refines (hf : f.WellFormed) : f.Refines (run f).1 := by
  have h₀ : Folded f f [] := ⟨.refl hf, rfl, nofun, nofun⟩
  have h := h₀.foldl fun i (hi : i ∈ f.live) => hi
  have hr : Func.Removable _ _ := ⟨h.unused, fun hi _ => .inl (h.pure hi)⟩
  exact h.refines.trans (hr.refines h.refines.wellFormed)

end Fold

end ScalarLang.IR
