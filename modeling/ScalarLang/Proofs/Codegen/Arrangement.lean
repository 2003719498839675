import ScalarLang.Proofs.Bytecode.Savings
import ScalarLang.Proofs.Codegen.Correctness
import ScalarLang.Proofs.Codegen.WellFormed

/-! How generated blocks are laid out. Code is always added to the last block of the layout, and a
block that is ended leads to blocks that are laid out later, or back to the head of a loop around
it. So generated functions are tidy, and optimised code is no larger than the code was. -/

namespace ScalarLang.IR

open Simplify (AllReached)

/-! ### Layouts -/

namespace Func

variable {f g : Func} {b c d : BlockId}

/-- The place of a block in the layout. -/
def rank (f : Func) (b : BlockId) : Nat := f.layout.idxOf b

theorem rank_lt : f.rank b < f.layout.length ↔ b ∈ f.layout := List.idxOf_lt_length_iff

theorem rank_inj (hb : b ∈ f.layout) (h : f.rank b = f.rank c) : b = c := (List.idxOf_inj hb).1 h

theorem rank_of_prefix (h : f.layout <+: g.layout) (hb : b ∈ f.layout) : g.rank b = f.rank b :=
  (h.idxOf_eq_of_mem hb).symm

/-- What is not laid out comes later than all that is. -/
theorem le_rank_of_prefix (h : f.layout <+: g.layout) (hb : b ∉ f.layout) :
    f.layout.length ≤ g.rank b := by
  rw [← List.idxOf_of_notMem hb]
  exact h.idxOf_le b

/-- An edge from `b` back to `c` closes a loop: control comes to the blocks between them through
`c` only. -/
structure Loops (f : Func) (b c : BlockId) : Prop where
  mem : c ∈ f.layout
  no_phi : f.phis c = []
  le : f.rank c ≤ f.rank b
  inside {d e : BlockId} : e ∈ f.successors d → e ∈ f.layout → f.rank c < f.rank e →
    f.rank e ≤ f.rank b → f.rank c ≤ f.rank d ∧ f.rank d ≤ f.rank b

theorem Loops.closes (h : f.Loops b c) (hv : f.Verified) : f.Closes b c := by
  have passed {π : List BlockId} {d : BlockId} (hπ : f.Path π d) (hc : f.rank c ≤ f.rank d)
      (hb : f.rank d ≤ f.rank b) : c ∈ d :: π := by
    induction hπ with
    | @entry d he =>
      have hzero : f.rank d = 0 :=
        (List.idxOf_eq_zero_iff_eq_nil_or_head_eq d).2 (.inr he)
      exact List.mem_cons.2 (.inl (rank_inj h.mem (Nat.le_antisymm hc (hzero ▸ Nat.zero_le _))))
    | @step π d e hπ he ih =>
      by_cases hce : c = e
      · exact List.mem_cons.2 (.inl hce)
      · have hmem := ((hπ.step he).mem_layout hv).1
        have hlt : f.rank c < f.rank e :=
          Nat.lt_of_le_of_ne hc fun heq => hce (rank_inj h.mem heq)
        obtain ⟨hc, hb⟩ := h.inside he hmem hlt hb
        exact List.mem_cons_of_mem _ (ih hc hb)
  exact ⟨h.no_phi, fun hπ => passed hπ h.le (Nat.le_refl _)⟩

/-- An edge from the last block back to `c` would close a loop, without being in the way of those
that are closed. -/
structure Open (f : Func) (c : BlockId) : Prop where
  mem : c ∈ f.layout
  no_phi : f.phis c = []
  after {d e : BlockId} : e ∈ f.successors d → e ∈ f.layout → f.rank c < f.rank e →
    f.rank c ≤ f.rank d
  outside {d e : BlockId} : e ∈ f.successors d → e ∈ f.layout → f.rank e ≤ f.rank d →
    f.rank e < f.rank c → f.rank d < f.rank c

theorem isSome_of_successor (h : c ∈ f.successors b) : (f.block b).terminator.isSome := by
  rw [successors] at h
  cases ht : (f.block b).terminator with
  | none => simp [ht] at h
  | some t => rfl

theorem Grows.successors (h : f.Grows g) (hc : c ∈ f.successors b) : c ∈ g.successors b :=
  successors_of_code (h.ended (isSome_of_successor hc)) ▸ hc

theorem Grows.path (h : f.Grows g) {π : List BlockId} (hπ : f.Path π b) : g.Path π b := by
  induction hπ with
  | entry he =>
    obtain ⟨rest, hrest⟩ := h.layout
    refine .entry ?_
    rw [ entry?] at he
    rw [ entry?, ← hrest, List.head?_append, he, Option.some_or]
  | step _ hc ih => exact ih.step (h.successors hc)

theorem Ends.phis {t : Terminator} {new : List BlockId} (h : f.Ends g b t new) (c : BlockId) :
    g.phis c = f.phis c := by
  rw [Func.phis, h.insts_block]
  exact List.filter_congr fun i _ => by rw [isPhiInst, h.op, isPhiInst]

end Func

/-! ### Builders -/

namespace Builder

variable {b b' : Builder}

/-- The current block is the last of the layout, and all edges go forward or close loops. -/
structure Arranged (b : Builder) : Prop where
  last : b.func.rank b.current + 1 = b.func.layout.length
  layout_lt {c : BlockId} : c ∈ b.func.layout → c < b.func.blocks.size
  target_lt {c d : BlockId} : d ∈ b.func.successors c → d < b.func.blocks.size
  source_mem {c d : BlockId} : d ∈ b.func.successors c → c ∈ b.func.layout
  phis (c : BlockId) : (b.func.phis c).length ≤ 1
  reached : AllReached b.func
  edge {c d : BlockId} : d ∈ b.func.successors c → d ∈ b.func.layout →
    b.func.rank c < b.func.rank d ∨ b.func.Loops c d

namespace Arranged

variable (h : b.Arranged)
include h

theorem current_mem : b.current ∈ b.func.layout :=
  Func.rank_lt.1 (Nat.lt_of_lt_of_le (Nat.lt_succ_self _) h.last.le)

theorem rank_le {c : BlockId} (hc : c ∈ b.func.layout) : b.func.rank c ≤ b.func.rank b.current :=
  Nat.le_of_lt_succ (Nat.lt_of_lt_of_le (Func.rank_lt.2 hc) h.last.ge)

theorem not_mem_of_size_le {c : BlockId} (hc : b.func.blocks.size ≤ c) : c ∉ b.func.layout :=
  fun hm => absurd (h.layout_lt hm) (Nat.not_lt.2 hc)

/-- No loop has been closed to the current block. -/
theorem ne_current (hb : b.Ready) {c d : BlockId} (hd : d ∈ b.func.successors c)
    (hl : b.func.Loops c d) : d ≠ b.current := by
  rintro rfl
  have hc := h.source_mem hd
  have he := Func.rank_inj hc (Nat.le_antisymm (h.rank_le hc) hl.le)
  have hended := Func.isSome_of_successor hd
  rw [he, hb.not_ended] at hended
  cases hended

/-- Only the phis of the current block may change. -/
theorem of_same (hb : b.Ready) (hcurrent : b'.current = b.current)
    (hlayout : b'.func.layout = b.func.layout)
    (hsize : b'.func.blocks.size = b.func.blocks.size)
    (hsucc : ∀ c, b'.func.successors c = b.func.successors c)
    (hphis : ∀ c, c ≠ b.current → b'.func.phis c = b.func.phis c)
    (hone : (b'.func.phis b.current).length ≤ 1) : b'.Arranged := by
  have hrank (c : BlockId) : b'.func.rank c = b.func.rank c := by
    rw [Func.rank, hlayout, Func.rank]
  have hpath {π : List BlockId} {c : BlockId} (hπ : b.func.Path π c) : b'.func.Path π c := by
    induction hπ with
    | entry he => exact .entry (by rwa [ Func.entry?, hlayout])
    | step _ hc ih => exact ih.step (by rwa [hsucc])
  exact {
    last := by rw [hrank, hcurrent, hlayout, h.last]
    layout_lt := fun hc => hsize ▸ h.layout_lt (hlayout ▸ hc)
    target_lt := fun hd => hsize ▸ h.target_lt (hsucc _ ▸ hd)
    source_mem := fun hd => hlayout ▸ h.source_mem (hsucc _ ▸ hd)
    phis := fun c => by
      by_cases hc : c = b.current
      · rwa [hc]
      · rw [hphis c hc]
        exact h.phis c
    reached := fun c hc => (h.reached c (hlayout ▸ hc)).imp fun _ => hpath
    edge := fun {c d} hd hm => by
      rw [hsucc] at hd
      rw [hlayout] at hm
      rw [hrank, hrank]
      refine (h.edge hd hm).imp_right fun hl => ⟨hlayout ▸ hl.mem, ?_, ?_, ?_⟩
      · rw [hphis d (h.ne_current hb hd hl), hl.no_phi]
      · rw [hrank, hrank]
        exact hl.le
      · simp only [hsucc, hlayout, hrank]
        exact hl.inside }

theorem addInst (hb : b.Ready) (op : Operation) (name : String)
    (hop : op.isPhi = false ∨ b.func.phis b.current = []) : (b.addInst op name).2.Arranged := by
  have hphis (c : BlockId) : (b.addInst op name).2.func.phis c =
      b.func.phis c ++ if c = b.current ∧ op.isPhi then [b.func.insts.size] else [] := by
    have hold : (b.func.block c).insts.filter (b.addInst op name).2.func.isPhiInst =
        b.func.phis c := by
      refine List.filter_congr fun i hi => ?_
      rw [Func.isPhiInst, op_addInst, if_neg (Nat.ne_of_lt (hb.placed_lt hi)), Func.isPhiInst]
    rw [Func.phis, insts_block_addInst hb, List.filter_append, hold]
    by_cases hc : c = b.current
    · simp [hc, Func.isPhiInst, op_addInst, List.filter_singleton]
    · simp [hc]
  refine h.of_same hb rfl rfl (b.size_addInst op name) (b.successors_addInst op name)
    (fun c hc => ?_) ?_
  · rw [hphis, if_neg fun hp => hc hp.1, List.append_nil]
  · rw [hphis]
    rcases hop with hop | hop
    · simpa [hop] using h.phis b.current
    · rw [hop]
      split <;> simp

theorem addSlot (hb : b.Ready) (name : String) : (b.addSlot name).2.Arranged :=
  h.of_same hb rfl rfl rfl (fun _ => rfl) (fun _ _ => rfl) (h.phis b.current)

theorem ret (hb : b.Ready) (v : Operand) : (b.terminate (.ret v)).Arranged := by
  have hends := ends_terminate hb.current_lt (.ret v)
  refine h.of_same hb rfl rfl (b.size_terminate _) (fun c => ?_) (fun c _ => hends.phis c) ?_
  · by_cases hc : c = b.current
    · rw [hc, hends.successors, Func.successors, hb.not_ended]
      rfl
    · exact hends.successors_of_ne hc
  · rw [hends.phis]
    exact h.phis _

end Arranged

/-! ### Branches -/

namespace Branches

variable {t : Terminator} {next : BlockId} (hbr : b.Branches b' t next)
include hbr

theorem mem_layout {c : BlockId} : c ∈ b'.func.layout ↔ c ∈ b.func.layout ∨ c = next := by
  rw [hbr.layout, List.mem_append, List.mem_singleton]

theorem rank_eq {c : BlockId} (hc : c ∈ b.func.layout) : b'.func.rank c = b.func.rank c :=
  Func.rank_of_prefix (hbr.layout ▸ List.prefix_append ..) hc

theorem rank_next (hnext : next ∉ b.func.layout) : b'.func.rank next = b.func.layout.length := by
  rw [Func.rank, hbr.layout, List.idxOf_append_of_notMem hnext, List.idxOf_cons_self, Nat.add_zero]

theorem rank_lt_next (hnext : next ∉ b.func.layout) {c : BlockId} (hc : c ∈ b.func.layout) :
    b'.func.rank c < b'.func.rank next := by
  rw [hbr.rank_eq hc, hbr.rank_next hnext]
  exact Func.rank_lt.2 hc

/-- What comes before a block that was laid out was laid out too. -/
theorem mem_of_rank_le (hnext : next ∉ b.func.layout) {c e : BlockId} (hc : c ∈ b.func.layout)
    (he : e ∈ b'.func.layout) (hle : b'.func.rank e ≤ b'.func.rank c) : e ∈ b.func.layout := by
  refine (hbr.mem_layout.1 he).resolve_right ?_
  rintro rfl
  exact absurd (hbr.rank_lt_next hnext hc) (Nat.not_lt.2 hle)

end Branches

namespace Arranged

variable {t : Terminator} {next : BlockId} (h : b.Arranged) (hbr : b.Branches b' t next)
  (hnext : next ∉ b.func.layout)
include h hbr

theorem source_mem_branch {c d : BlockId} (hd : d ∈ b'.func.successors c) :
    c ∈ b.func.layout := by
  by_cases hc : c = b.current
  · exact hc ▸ h.current_mem
  · exact h.source_mem (hbr.successors_of_ne hc ▸ hd)

include hnext

/-- The current block may lead back to a block that is open. -/
theorem loops_of_open {d : BlockId} (hd : b.func.Open d) : b'.func.Loops b.current d where
  mem := hbr.mem_layout.2 (.inl hd.mem)
  no_phi := (hbr.phis d).trans hd.no_phi
  le := by
    rw [hbr.rank_eq hd.mem, hbr.rank_eq h.current_mem]
    exact h.rank_le hd.mem
  inside {c e} he hm hlt hle := by
    have hm := hbr.mem_of_rank_le hnext h.current_mem hm hle
    have hc := h.source_mem_branch hbr he
    rw [hbr.rank_eq hd.mem, hbr.rank_eq hm] at hlt
    rw [hbr.rank_eq hd.mem, hbr.rank_eq h.current_mem, hbr.rank_eq hc]
    refine ⟨?_, h.rank_le hc⟩
    by_cases hcur : c = b.current
    · rw [hcur]
      exact h.rank_le hd.mem
    · exact hd.after (hbr.successors_of_ne hcur ▸ he) hm hlt

/-- Loops that are closed stay so, since the new edge does not lead into them. -/
theorem loops_stay (ht : ∀ d ∈ t.successors, d ∉ b.func.layout ∨ b.func.Open d) {c d : BlockId}
    (hd : d ∈ b.func.successors c) (hl : b.func.Loops c d) : b'.func.Loops c d := by
  have hc := h.source_mem hd
  refine ⟨hbr.mem_layout.2 (.inl hl.mem), (hbr.phis d).trans hl.no_phi, ?_, ?_⟩
  · rw [hbr.rank_eq hl.mem, hbr.rank_eq hc]
    exact hl.le
  · intro p e he hm hlt hle
    have hm := hbr.mem_of_rank_le hnext hc hm hle
    have hp := h.source_mem_branch hbr he
    rw [hbr.rank_eq hl.mem, hbr.rank_eq hm] at hlt
    rw [hbr.rank_eq hm, hbr.rank_eq hc] at hle
    rw [hbr.rank_eq hl.mem, hbr.rank_eq hc, hbr.rank_eq hp]
    by_cases hcur : p = b.current
    · rw [hcur, hbr.successors] at he
      have hopen := (ht e he).resolve_left (not_not_intro hm)
      exact absurd (hopen.outside hd hl.mem hl.le hlt) (Nat.not_lt.2 hle)
    · exact hl.inside (hbr.successors_of_ne hcur ▸ he) hm hlt hle

/-- The current block is ended, and the next one is laid out. The block leads to blocks that are not
laid out, or back to the heads of loops. -/
theorem branch (hb : b.Ready)
    (ht : ∀ d ∈ t.successors, d < b'.func.blocks.size ∧ (d ∉ b.func.layout ∨ b.func.Open d))
    (hpred : ∃ c ∈ b.func.layout, next ∈ b'.func.successors c) : b'.Arranged where
  last := by
    rw [hbr.current, hbr.rank_next hnext, hbr.layout, List.length_append, List.length_singleton]
  layout_lt {c} hc := by
    rcases hbr.mem_layout.1 hc with hc | rfl
    · exact Nat.lt_of_lt_of_le (h.layout_lt hc) hbr.blocks_le
    · exact hbr.next_lt
  target_lt {c d} hd := by
    by_cases hc : c = b.current
    · rw [hc, hbr.successors] at hd
      exact (ht d hd).1
    · rw [hbr.successors_of_ne hc] at hd
      exact Nat.lt_of_lt_of_le (h.target_lt hd) hbr.blocks_le
  source_mem hd := hbr.mem_layout.2 (.inl (h.source_mem_branch hbr hd))
  phis c := hbr.phis c ▸ h.phis c
  reached c hc := by
    have old {c : BlockId} (hc : c ∈ b.func.layout) : ∃ π, b'.func.Path π c :=
      (h.reached c hc).imp fun _ => (hbr.grows hb.not_ended).path
    rcases hbr.mem_layout.1 hc with hc | rfl
    · exact old hc
    · obtain ⟨p, hp, hs⟩ := hpred
      obtain ⟨π, hπ⟩ := old hp
      exact ⟨_, hπ.step hs⟩
  edge {c d} hd hm := by
    have hc := h.source_mem_branch hbr hd
    rcases hbr.mem_layout.1 hm with hm | rfl
    · by_cases hcur : c = b.current
      · rw [hcur, hbr.successors] at hd
        rw [hcur]
        exact .inr (h.loops_of_open hbr hnext ((ht d hd).2.resolve_left (not_not_intro hm)))
      · rw [hbr.successors_of_ne hcur] at hd
        rw [hbr.rank_eq hc, hbr.rank_eq hm]
        exact (h.edge hd hm).imp_right (h.loops_stay hbr hnext (fun d hd => (ht d hd).2) hd)
    · exact .inl (hbr.rank_lt_next hnext hc)

end Arranged

/-! ### Conditionals and loops -/

section

variable (hg : b.Growth b')
include hg

/-- An edge was there, or it leads to a new block. -/
theorem Growth.old_or_new {c d : BlockId} (hd : d ∈ b'.func.successors c) :
    d ∈ b.func.successors c ∨ b.func.blocks.size ≤ d := by
  cases ht : (b.func.block c).terminator with
  | none => exact .inr (hg.target ht hd)
  | some t =>
    have hcode := hg.grows.ended (b := c) (by rw [ht]; rfl)
    exact .inl (Func.successors_of_code hcode ▸ hd)

/-- The block where code is generated gets no phis. -/
theorem Growth.phis_current (hblank : b.func.Blank b.current) : b'.func.phis b.current = [] := by
  refine List.filter_eq_nil_iff.2 fun i hi hphi => ?_
  rcases hg.not_phi hi with hi | hi
  · rw [hblank.insts] at hi
    cases hi
  · exact hi hphi

/-- What was not laid out comes after what was. -/
theorem Growth.rank_lt (h : b.Arranged) {c : BlockId} (hc : c ∉ b.func.layout) :
    b'.func.rank b.current < b'.func.rank c := by
  rw [Func.rank_of_prefix hg.grows.layout h.current_mem]
  calc b.func.rank b.current < b.func.rank b.current + 1 := Nat.lt_succ_self _
    _ = b.func.layout.length := h.last
    _ ≤ b'.func.rank c := Func.le_rank_of_prefix hg.grows.layout hc

/-- The block where a loop began stays open while its body is generated. -/
theorem Growth.open_head (h : b.Arranged) (hblank : b.func.Blank b.current) :
    b'.func.Open b.current where
  mem := hg.grows.layout.subset h.current_mem
  no_phi := hg.phis_current hblank
  after {c d} hd hm hlt := by
    rcases hg.old_or_new hd with hold | hnew
    · -- the target would have been laid out before the head
      have hdl : d ∈ b.func.layout := hg.laid_out hm (h.target_lt hold)
      rw [Func.rank_of_prefix hg.grows.layout h.current_mem,
        Func.rank_of_prefix hg.grows.layout hdl] at hlt
      exact absurd (h.rank_le hdl) (Nat.not_le.2 hlt)
    · by_cases hc : c = b.current
      · rw [hc]
      · by_cases hcl : c ∈ b.func.layout
        · have hcode := hg.code (h.layout_lt hcl) hc
          rw [Func.successors_of_code hcode] at hd
          exact absurd (h.target_lt hd) (Nat.not_lt.2 hnew)
        · exact (hg.rank_lt h hcl).le
  outside {c d} hd hm hle hlt := by
    rcases hg.old_or_new hd with hold | hnew
    · have hcl := h.source_mem hold
      have hne : b.func.rank c ≠ b.func.rank b.current := by
        intro he
        rw [Func.rank_inj hcl he, Func.successors, hblank.terminator] at hold
        cases hold
      rw [Func.rank_of_prefix hg.grows.layout h.current_mem,
        Func.rank_of_prefix hg.grows.layout hcl]
      exact Nat.lt_of_le_of_ne (h.rank_le hcl) hne
    · exact absurd hlt (Nat.lt_asymm (hg.rank_lt h (h.not_mem_of_size_le hnew)))

end

namespace Arranged

variable (h : b.Arranged) (hb : b.Ready)
include h hb

/-- The current block is ended and leads to a new one. -/
theorem branch_new {t : Terminator} (hbr : b.Branches b' t b.func.blocks.size)
    (hmem : b.func.blocks.size ∈ t.successors)
    (ht : ∀ d ∈ t.successors, d < b'.func.blocks.size ∧
      (b.func.blocks.size ≤ d ∨ b.func.Open d)) : b'.Arranged := by
  refine h.branch hbr (h.not_mem_of_size_le (Nat.le_refl _)) hb (fun d hd => ?_) ?_
  · exact (ht d hd).imp_right (Or.imp_left h.not_mem_of_size_le)
  · exact ⟨b.current, h.current_mem, hbr.successors ▸ hmem⟩

theorem enterLoop : b.enterLoop.Arranged :=
  h.branch_new hb (branches_enterLoop hb) (by simp [Terminator.successors])
    (by simp [Terminator.successors, size_enterLoop])

theorem leaveLoop (cond : Operand) {head : BlockId} (hopen : b.func.Open head) :
    (b.leaveLoop cond head).Arranged := by
  refine h.branch_new hb (branches_leaveLoop hb cond head) (by simp [Terminator.successors]) ?_
  have hlt := Nat.lt_succ_of_lt (h.layout_lt hopen.mem)
  simpa [Terminator.successors, size_leaveLoop, hopen] using hlt

theorem fork (cond : Operand) : (b.fork cond).Arranged :=
  h.branch_new hb (branches_fork hb cond) (by simp [Terminator.successors])
    (by simp [Terminator.successors, size_fork])

theorem switch_no {cond : Operand} {y : Builder} (hy : (b.fork cond).Growth y) (h' : y.Arranged) :
    (y.switch (b.func.blocks.size + 2) (b.func.blocks.size + 1)).Arranged := by
  have hbr := Diamond.branches_switch_no hb hy
  have hnew {c : BlockId} (hc : b.func.blocks.size < c) (hc' : c < b.func.blocks.size + 3) :
      c ∉ y.func.layout := Diamond.not_mem_layout_yes hb hy h.layout_lt hc hc'
  refine h'.branch hbr (hnew (by simp) (by simp)) hy.ready (fun d hd => ?_) ?_
  · obtain rfl : d = b.func.blocks.size + 2 := by simpa [Terminator.successors] using hd
    have hlt := (Diamond.later_blank hb hy (c := b.func.blocks.size + 2) (by simp) (by simp)).1
    exact ⟨Nat.lt_of_lt_of_le hlt hbr.blocks_le, .inl (hnew (by simp) (by simp))⟩
  · -- the block before the conditional leads to its second branch
    have hfork := branches_fork hb cond
    have hsucc : b.func.blocks.size + 1 ∈ (b.fork cond).func.successors b.current := by
      simp [hfork.successors, Terminator.successors]
    refine ⟨b.current, ?_, (hbr.grows hy.ready.not_ended).successors (hy.grows.successors hsucc)⟩
    exact hy.grows.layout.subset (hfork.mem_layout.2 (.inl h.current_mem))

omit hb in
theorem switch_join {cond : Operand} {y n : Builder} (d : Diamond cond b y n) (h' : n.Arranged) :
    (n.switch (b.func.blocks.size + 2) (b.func.blocks.size + 2)).Arranged := by
  have hbr := d.branches_switch_join
  have hnew := d.not_mem_layout_no h.layout_lt
  refine h'.branch hbr hnew d.no.ready (fun c hc => ?_)
    ⟨n.current, h'.current_mem, by simp [hbr.successors, Terminator.successors]⟩
  obtain rfl : c = b.func.blocks.size + 2 := by simpa [Terminator.successors] using hc
  exact ⟨hbr.next_lt, .inl hnew⟩

end Arranged

theorem arranged_start (name : String) (params : List String) :
    (start name params).Arranged := by
  have hblank := blank_start name params
  have hsucc {c d : BlockId} (hd : d ∈ (start name params).func.successors c) : False := by
    simp [Func.successors, (hblank c).terminator] at hd
  exact {
    last := rfl
    layout_lt := fun hc => List.mem_singleton.1 hc ▸ Nat.one_pos
    target_lt := fun hd => (hsucc hd).elim
    source_mem := fun hd => (hsucc hd).elim
    phis := fun c => by simp [Func.phis, (hblank c).insts]
    reached := fun c hc => ⟨[], .entry (List.mem_singleton.1 hc ▸ rfl)⟩
    edge := fun hd => (hsucc hd).elim }

/-- An arranged function whose edges all lead to laid out blocks is tidy. -/
theorem Arranged.tidy (h : b.Arranged) (hv : b.func.Verified) : b.func.Tidy b.func.rank where
  phis _ := h.phis _
  edge hb hc := (h.edge hc (hv.successor_mem hb hc)).imp_right (·.closes hv)

end Builder

end ScalarLang.IR

namespace ScalarLang.Codegen

open IR (Builder Operand Operation SlotId)

variable {s s' : State} {registry : Registry}

/-! ### Expressions -/

/-- Code can be added to the function, and its blocks are arranged. -/
structure State.Arranged (s : State) : Prop where
  ready : s.builder.Ready
  builder : s.builder.Arranged

namespace State.Arranged

theorem emit (h : s.Arranged) {op : Operation} (hop : op.isPhi = false) (name : String) :
    (s.emit op name).Arranged :=
  ⟨Builder.ready_addInst h.ready op name, h.builder.addInst h.ready op name (.inl hop)⟩

theorem addSlot (h : s.Arranged) (name : String) :
    (s.update fun b => (b.addSlot name).2).Arranged :=
  ⟨(State.Grown.addSlot h.ready name).builder.ready, h.builder.addSlot h.ready name⟩

theorem known (h : s.Arranged) {callee : String} {n : Nat} (hk : Known registry callee n s s') :
    s'.Arranged := ⟨hk.builder ▸ h.ready, hk.builder ▸ h.builder⟩

theorem bind (h : s.Arranged) (name : String) (slot : SlotId) : (s.bind name slot).Arranged :=
  ⟨h.ready, h.builder⟩

theorem unbind (h : s'.Arranged) (s : State) (name : String) : (s'.unbind s name).Arranged :=
  ⟨h.ready, h.builder⟩

theorem advance (h : s.Arranged) (index : String) (slot : SlotId) (increment : Operand) :
    (s.advance index slot increment).Arranged :=
  ((h.emit rfl _).emit rfl _).emit rfl _

end State.Arranged

/-- Whatever the generator yields, it keeps the blocks arranged. -/
def Gen.Arranges {α : Type} (g : Gen α) : Prop :=
  ∀ {s a s'}, g.Yields s a s' → s.Arranged → s'.Arranged

theorem arranges_pure {α : Type} (a : α) : (pure a : Gen α).Arranges := by
  intro s b s' h hs
  obtain ⟨-, rfl⟩ := yields_pure.1 h
  exact hs

theorem arranges_var (name : String) : (genExpr registry (.var name)).Arranges := by
  intro s v s' h hs
  obtain ⟨slot, -, -, rfl⟩ := yields_var h
  exact hs.emit rfl name

theorem arranges_operatorCall (callee : String) (args : List Operand) (name : String) :
    (operatorCall registry callee args name).Arranges := by
  intro s v s' h hs
  obtain ⟨s₁, hk, -, rfl⟩ := yields_operatorCall h
  exact (hs.known hk).emit rfl name

theorem arranges_unary {op : Char} {e : Expr} (he : (genExpr registry e).Arranges) :
    (genExpr registry (.unary op e)).Arranges := by
  intro s v s' h hs
  obtain ⟨ve, s₁, s₂, he', hk, -, rfl⟩ := yields_unary h
  exact ((he he' hs).known hk).emit rfl _

theorem arranges_assign {name : String} {e : Expr} (he : (genExpr registry e).Arranges) :
    (genExpr registry (.binary '=' (.var name) e)).Arranges := by
  intro s v s' h hs
  obtain ⟨s₁, slot, he', -, rfl⟩ := yields_assign h
  exact (he he' hs).emit rfl ""

theorem arranges_applyBinary (op : Char) (left right : Operand) :
    (applyBinary registry op left right).Arranges := by
  intro s v s' h hs
  unfold applyBinary at h
  split at h
  · obtain ⟨-, rfl⟩ := yields_emit.1 h
    exact hs.emit rfl _
  · split at h
    · simp only [yields_bind, yields_emit] at h
      obtain ⟨_, _, ⟨rfl, rfl⟩, -, rfl⟩ := h
      exact (hs.emit rfl _).emit rfl _
    · exact arranges_operatorCall _ _ _ h hs

theorem arranges_binary {op : Char} (hop : op ≠ '=') {left right : Expr}
    (hl : (genExpr registry left).Arranges) (hr : (genExpr registry right).Arranges) :
    (genExpr registry (.binary op left right)).Arranges := by
  intro s v s' h hs
  obtain ⟨vl, s₁, vr, s₂, hl', hr', h⟩ := yields_binary hop h
  exact arranges_applyBinary _ _ _ h (hr hr' (hl hl' hs))

theorem arranges_args_cons {e : Expr} {rest : List Expr} (he : (genExpr registry e).Arranges)
    (hrest : (genArgs registry rest).Arranges) : (genArgs registry (e :: rest)).Arranges := by
  intro s vs s' h hs
  obtain ⟨v, s₁, vs', he', hr', -⟩ := yields_args_cons h
  exact hrest hr' (he he' hs)

theorem arranges_call {callee : String} {args : List Expr} (ha : (genArgs registry args).Arranges) :
    (genExpr registry (.call callee args)).Arranges := by
  intro s v s' h hs
  obtain ⟨s₁, vs, s₂, hk, ha', -, rfl⟩ := yields_call h
  exact (ha ha' (hs.known hk)).emit rfl _

theorem arranges_vars_cons {name : String} {init : Option Expr}
    {rest : List (String × Option Expr)} {body : Gen Operand}
    (hi : (genInit registry init).Arranges) (hrest : (genVars registry rest body).Arranges) :
    (genVars registry ((name, init) :: rest) body).Arranges := by
  intro s v s' h hs
  obtain ⟨vi, s₁, s₂, hi', hr', rfl⟩ := yields_vars_cons h
  have h₁ := (hi hi' (hs.addSlot name)).emit
    (rfl : (Operation.store s.builder.func.slots.size vi).isPhi = false) ""
  exact (hrest hr' (h₁.bind name _)).unbind s₁ name

theorem arranges_cond {test yes : Expr} {no : Option Expr} (ht : (genExpr registry test).Arranges)
    (hy : (genExpr registry yes).Arranges) (hn : (genElse registry no).Arranges) :
    (genExpr registry (.cond test yes no)).Arranges := by
  intro s v s' h hs
  obtain ⟨vt, s₁, vy, s₂, vn, s₃, ht', hy', hn', -, rfl⟩ := yields_cond h
  have h₁ := (ht ht' hs).emit (rfl : (Operation.compare .one vt (.const 0.0)).isPhi = false)
    "ifcond"
  rw [← s₁.builder.size_addInst (.compare .one vt (.const 0.0)) "ifcond"] at hn' ⊢
  have hfork := (Builder.Diamond.growth_fork h₁.ready s₁.nextValue).ready
  have gy := (genExpr_grows registry yes hy' hfork).builder
  have h₂ := hy hy' ⟨hfork, h₁.builder.fork h₁.ready _⟩
  have hswitch := (Builder.Diamond.growth_switch_no h₁.ready gy).ready
  have gn := (genElse_grows registry no hn' hswitch).builder
  have h₃ := hn hn' ⟨hswitch, h₁.builder.switch_no h₁.ready gy h₂.builder⟩
  have d : Builder.Diamond _ _ _ _ := ⟨h₁.ready, gy, gn⟩
  have hjoin := h₁.builder.switch_join d h₃.builder
  have hblank := d.branches_switch_join.blank d.join_blank.2.1 d.join_blank.2.2
  have hready := d.growth_join.ready
  -- the block where the branches meet is empty, so it can take the phi
  refine ⟨Builder.ready_addInst hready _ _, hjoin.addInst hready _ _ (.inr ?_)⟩
  exact List.filter_eq_nil_iff.2 fun i hi => by
    rw [hblank.insts] at hi
    cases hi

theorem arranges_loop {index : String} {start stop step body : Expr}
    (hstart : (genExpr registry start).Arranges) (hbody : (genExpr registry body).Arranges)
    (hstep : (genExpr registry step).Arranges) (hstop : (genExpr registry stop).Arranges) :
    (genExpr registry (.loop index start stop step body)).Arranges := by
  intro s v s' h hs
  obtain ⟨first, s₁, vb, s₂, vs, s₃, vt, s₄, hstart', hbody', hstep', hstop', -, rfl⟩ :=
    yields_loop h
  rw [← s₁.builder.size_addInst (.store s.builder.func.slots.size first) ""]
  have h₁ := (hstart hstart' (hs.addSlot index)).emit
    (rfl : (Operation.store s.builder.func.slots.size first).isPhi = false) ""
  have henter := Builder.growth_enterLoop h₁.ready
  have hhead := h₁.builder.enterLoop h₁.ready
  have hround := (State.Grown.round (genExpr_grows registry body) (genExpr_grows registry step)
    (genExpr_grows registry stop) henter.ready hbody' hstep' hstop').builder
  have h₂ := hbody hbody' ⟨henter.ready, hhead⟩
  have h₃ := (hstep hstep' h₂).advance index s.builder.func.slots.size vs
  have h₄ := (hstop hstop' h₃).emit
    (rfl : (Operation.compare .one vt (.const 0.0)).isPhi = false) "loopcond"
  have hopen := hround.open_head hhead ((Builder.branches_enterLoop h₁.ready).blank_new h₁.ready)
  have hleave := Builder.growth_leaveLoop (henter.trans h₁.ready hround) s₄.nextValue
  exact ⟨hleave.ready, h₄.builder.leaveLoop h₄.ready _ hopen⟩

/-- Generating an expression keeps the blocks arranged. -/
theorem genExpr_arranges (registry : Registry) (e : Expr) : (genExpr registry e).Arranges :=
  genExpr.induct registry (fun e => (genExpr registry e).Arranges)
    (fun e => (genElse registry e).Arranges) (fun es => (genArgs registry es).Arranges)
    (fun vars => ∀ body, body.Arranges → (genVars registry vars body).Arranges)
    (fun e => (genInit registry e).Arranges)
    (fun _ => arranges_pure _) arranges_var (fun _ _ => arranges_unary)
    (fun _ _ => arranges_assign) (fun _ _ hl _ _ _ h => absurd h (not_yields_assign hl))
    (fun _ _ _ hop => arranges_binary hop) (fun _ _ hv hb => genExpr_declare .. ▸ hv _ hb)
    (fun _ _ => arranges_call) (fun _ _ _ => arranges_cond) (fun _ _ _ _ _ => arranges_loop) (fun _ => id)
    (fun _ _ _ hi hrest _ hb => arranges_vars_cons hi (hrest _ hb)) (arranges_pure _)
    (fun _ _ => arranges_args_cons) (fun _ => id) (fun h => absurd h yields_throw) (fun _ => id)
    (arranges_pure _) e

/-! ### Functions -/

theorem arranges_params (params : List String) (index : Nat) :
    (genParams params index).Arranges := by
  induction params generalizing index with
  | nil => exact arranges_pure ()
  | cons param rest ih =>
    intro s u s' h hs
    exact ih _ (yields_params_cons h) (((hs.addSlot param).emit rfl "").bind param _)

theorem arranged_genBody {unit : IR.Module} {proto : Prototype} {body : Expr}
    (h : (genBody registry proto body).Yields (startState unit proto) () s) :
    s.builder.Arranged := by
  obtain ⟨s₁, v, s₂, hp, hb, rfl⟩ := yields_body h
  have hstart : (startState unit proto).Arranged :=
    ⟨Builder.ready_start .., Builder.arranged_start ..⟩
  have hs := genExpr_arranges registry body hb (arranges_params _ _ hp hstart)
  exact hs.builder.ret hs.ready v

/-- Optimisation never makes a function too large. If a function can be generated without it, it can
be generated with it, by any pipeline; and if there is code for the first there is for the second,
with no more registers and no more bytes. -/
theorem optimised_code_le (registry : Registry) (hreg : registry.Keyed) (unit : IR.Module)
    (proto : Prototype) (body : Expr) (f : IR.Func) (generated : IR.Module)
    (h : function registry [] unit proto body = (.ok f, generated)) (passes : IR.Pipeline) :
    ∃ g optimised, function registry passes unit proto body = (.ok g, optimised) ∧
      ∀ chunk, Bytecode.lower f = .ok chunk → ∃ chunk', Bytecode.lower g = .ok chunk' ∧
        chunk'.registers ≤ chunk.registers ∧ chunk'.code.size ≤ chunk.code.size := by
  obtain ⟨s, hs, hv, rfl, -⟩ := function_eq_ok h
  have hwf := (wellFormed_genBody hreg hs).1
  have harranged := arranged_genBody hs
  refine ⟨(passes.run s.builder.func).1, s.unit.define (passes.run s.builder.func).1, ?_, ?_⟩
  · rw [Gen.Yields] at hs
    simp only [function_eq_exec, hs, hv]
  · intro chunk hl
    rw [run_nil] at hl
    exact Bytecode.exists_lower_run passes (harranged.tidy hwf.toVerified) hwf harranged.reached hl

/-- A function that chooses between its arguments. -/
def choice : Expr := .cond (.var "x") (.var "x") (some (.var "y"))

theorem optimised_code_le_choice : ∃ f generated chunk g optimised chunk',
    function {} [] ⟨"unit", []⟩ ⟨"choose", ["x", "y"], .plain⟩ choice = (.ok f, generated) ∧
      Bytecode.lower f = .ok chunk ∧
      function {} .standard ⟨"unit", []⟩ ⟨"choose", ["x", "y"], .plain⟩ choice =
        (.ok g, optimised) ∧ Bytecode.lower g = .ok chunk' ∧
      chunk'.registers ≤ chunk.registers ∧ chunk'.code.size ≤ chunk.code.size := by
  have hok : ((function {} [] ⟨"unit", []⟩ ⟨"choose", ["x", "y"], .plain⟩ choice).1.toOption.map
      fun f => (Bytecode.lower f).isOk) = some true := by
    decide +kernel
  cases h : function {} [] ⟨"unit", []⟩ ⟨"choose", ["x", "y"], .plain⟩ choice with
  | mk result generated =>
    cases result with
    | error e => simp [h, Except.toOption] at hok
    | ok f =>
      cases hl : Bytecode.lower f with
      | error e => simp [h, hl, Except.toOption, Except.isOk, Except.toBool] at hok
      | ok chunk =>
        obtain ⟨g, optimised, hg, hle⟩ := optimised_code_le {} Registry.keyed_empty _ _ _ f
          generated h .standard
        obtain ⟨chunk', hl', hregisters, hcode⟩ := hle chunk hl
        exact ⟨f, generated, chunk, g, optimised, chunk', rfl, hl, hg, hl', hregisters, hcode⟩

end ScalarLang.Codegen
