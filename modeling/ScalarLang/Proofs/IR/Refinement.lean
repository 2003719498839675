import ScalarLang.Proofs.IR.Execution

/-! When one function may take the place of another: it is well formed, behaves the same, and makes
no calls that the other one does not make. -/

namespace ScalarLang.IR

namespace Func

variable {f g h : Func}

/-- A call of this function with this number of arguments is placed somewhere. -/
def CallsWith (f : Func) (callee : String) (n : Nat) : Prop :=
  ∃ i ∈ f.live, ∃ args, f.op i = .call callee args ∧ args.length = n

/-- All calls of one function pass the same number of arguments. -/
def UniformCalls (f : Func) : Prop :=
  ∀ callee n m, f.CallsWith callee n → f.CallsWith callee m → n = m

/-- Function `g` may take the place of `f`. -/
structure Refines (f g : Func) : Prop where
  wellFormed : g.WellFormed
  entry? : g.entry? = f.entry?
  callsWith {callee : String} {n : Nat} : g.CallsWith callee n → f.CallsWith callee n
  behaviour (args : List Float) (o : Oracle) :
    (g.process args).behaviour o = (f.process args).behaviour o

theorem Refines.refl (hf : f.WellFormed) : f.Refines f := ⟨hf, rfl, id, fun _ _ => rfl⟩

theorem Refines.trans (hfg : f.Refines g) (hgh : g.Refines h) : f.Refines h where
  wellFormed := hgh.wellFormed
  entry? := hgh.entry?.trans hfg.entry?
  callsWith hc := hfg.callsWith (hgh.callsWith hc)
  behaviour args o := (hgh.behaviour args o).trans (hfg.behaviour args o)

theorem Refines.uniformCalls (hfg : f.Refines g) (hf : f.UniformCalls) : g.UniformCalls :=
  fun callee n m hn hm => hf callee n m (hfg.callsWith hn) (hfg.callsWith hm)

/-! ### Declarations -/

theorem layout_of_entry?_none (he : f.entry? = none) : f.layout = [] := List.head?_eq_none_iff.1 he

/-- There is nothing in a declaration that could be wrong. -/
theorem wellFormed_of_declaration (he : f.entry? = none) : f.WellFormed := by
  have hl := layout_of_entry?_none he
  have hb {b : BlockId} : b ∉ f.layout := by simp [hl]
  exact {
    verified := verify_eq_ok.2 {
      block_lt := fun h => (hb h).elim
      terminated := fun h => (hb h).elim
      successor_mem := fun h => (hb h).elim
      inst_lt := fun h => (hb h).elim
      phis_first := fun h => (hb h).elim
      phi_sources := fun h => (hb h).elim
      slot_lt := fun h => (hb h).elim
      fits_inst := fun h => (hb h).elim
      fits_terminator := fun h => (hb h).elim }
    layout_nodup := by simp [hl]
    live_nodup := by simp [live, hl]
    entry_preds := fun h => by simp [he] at h
    dominated_inst := fun h => (hb h).elim
    dominated_phi := fun h => (hb h).elim
    dominated_terminator := fun h => (hb h).elim }

/-- A declaration has no code to run. -/
theorem step_declaration (he : f.entry? = none) (args : List Float) :
    f.step (f.startState args) = .stuck := by
  have : f.block f.blocks.size = default := by simp [block]
  simp only [startState, he, step, this]
  rfl

theorem Refines.of_declaration (hf : f.entry? = none) (hg : g.entry? = none) : f.Refines g where
  wellFormed := wellFormed_of_declaration hg
  entry? := hg.trans hf.symm
  callsWith := by
    rintro callee n ⟨i, hi, -⟩
    simp [live, layout_of_entry?_none hg] at hi
  behaviour args o := by
    refine (Simulation.lockstep (p := g.process args) (q := f.process args)
      (fun s s' => s = g.startState args ∧ s' = f.startState args) (fun _ => 0) ⟨rfl, rfl⟩
      ?_).behaviour_eq o
    rintro s s' ⟨rfl, rfl⟩
    left
    change Action.Matches _ (g.step _) (f.step _)
    rw [step_declaration hf, step_declaration hg]
    exact .stuck

end Func

end ScalarLang.IR
