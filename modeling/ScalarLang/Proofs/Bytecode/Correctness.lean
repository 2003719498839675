import ScalarLang.Proofs.Bytecode.Instructions
import ScalarLang.Proofs.Machine.Frames

/-! The code of a function behaves as the function. While a block is run, the machine is at the code
of the instructions that are left, and its registers hold the values that they have by then. -/

namespace ScalarLang.Bytecode

open IR (BlockId Env Func InstId Operand Operation Terminator)

variable {f : Func} {chunk : Chunk} {blocks : List (List Line)} {regs : Nat → Float} {env : Env}
  {m m₀ : Machine} {rest : List Line} {image : Image} {maxDepth : Nat}

section

variable (hf : f.Verified) (hl : Lowers f chunk blocks)
include hl

/-! ### Constants -/

/-- Once `n` more constants are loaded, from the `j`-th on, nothing else has changed. -/
theorem run_constants {j n : Nat} (hn : j + n = (Registers.allocate f).constants.length)
    (h : Reaches chunk (functionLines f blocks) (((List.range' j n).map fun k =>
      .instr (.ldc ((Registers.allocate f).firstConstant + k).toUInt16 k.toUInt16)) ++ rest)
      regs m) :
    ∃ m' regs', (m₀.process image maxDepth).Silent (.next m) (.next m') ∧
      Reaches chunk (functionLines f blocks) rest regs' m' ∧
      (∀ k v, j ≤ k → (Registers.allocate f).constants[k]? = some v →
        regs' ((Registers.allocate f).firstConstant + k) = v) ∧
      ∀ k, k < (Registers.allocate f).firstConstant + j ∨
        (Registers.allocate f).firstConstant + (Registers.allocate f).constants.length ≤ k →
        regs' k = regs k := by
  induction n generalizing j regs m with
  | zero =>
    refine ⟨m, regs, .refl, h, fun k v hk hv => ?_, fun _ _ => rfl⟩
    exact absurd (List.getElem?_eq_some_iff.1 hv).1 (by omega)
  | succ n ih =>
    have hj : j < (Registers.allocate f).constants.length := by omega
    have hlt : (Registers.allocate f).firstConstant + j < chunk.registers :=
      hl.lt_registers (Nat.lt_of_lt_of_le (Nat.add_lt_add_left hj _)
        (Registers.numbered_results f).le)
    have hle := hlt.le.trans hl.assembled.registers_le
    have hdst := toNat_toUInt16 hle
    have hindex := toNat_toUInt16 ((Nat.le_add_left j _).trans hle)
    obtain ⟨m₁, hact, hm₁⟩ := Reaches.ldc h hl.assembled (hdst.symm ▸ hlt)
      (by rw [hindex, hl.constants, List.getElem?_toArray, List.getElem?_eq_getElem hj])
    rw [hdst] at hm₁
    obtain ⟨m', regs', hsilent, hm', hloaded, hkept⟩ := ih (by omega) hm₁
    refine ⟨m', regs', .head hact hsilent, hm', fun k v hk hv => ?_, fun k hk => ?_⟩
    · rcases Nat.eq_or_lt_of_le hk with rfl | hk
      · rw [hkept _ (.inl (by omega)), Function.update_self]
        exact Option.some.inj ((List.getElem?_eq_getElem hj).symm.trans hv)
      · exact hloaded k v hk hv
    · rw [hkept k (by omega), Function.update_of_ne (by omega)]

/-- A new frame comes to the first block with all values in their registers. -/
theorem run_prologue {args : List Float} (hargs : args.length = f.arity)
    (hm : m.At chunk 0 fun k => args.getD k 0.0) :
    ∃ m' regs, (m₀.process image maxDepth).Silent (.next m) (.next m') ∧
      Reaches chunk (functionLines f blocks) blocks.flatten regs m' ∧
      Holds f (.start args) regs := by
  have hlines : functionLines f blocks =
      ((List.range' 0 (Registers.allocate f).constants.length).map fun k =>
        .instr (.ldc ((Registers.allocate f).firstConstant + k).toUInt16 k.toUInt16)) ++
      blocks.flatten := by
    rw [functionLines, constantLines, List.range_eq_range']
  obtain ⟨m', regs, hsilent, hm', hloaded, hkept⟩ :=
    run_constants hl (Nat.zero_add _) ⟨[], hlines, hm⟩
  have hzero {k : Nat} (hk : f.arity ≤ k) : args.getD k 0.0 = 0.0 := by
    rw [List.getD_eq_getElem?_getD, List.getElem?_eq_none (hargs ▸ hk), Option.getD_none]
  have hslots := Registers.numbered_slots f
  refine ⟨m', regs, hsilent, hm', ?_, ?_, ?_, ?_⟩
  · exact fun hn => hkept _ (.inl (Nat.lt_of_lt_of_le hn hslots.le))
  · intro s n hn
    exact (hkept n (.inl (hslots.range hn).2)).trans (hzero (hslots.range hn).1)
  · intro v hv
    have hlt : (Registers.allocate f).constants.findIdx (· = v) <
        (Registers.allocate f).constants.length :=
      List.findIdx_lt_length_of_exists ⟨v, hv, by simp⟩
    have hfound : (Registers.allocate f).constants[
        (Registers.allocate f).constants.findIdx (· = v)] = v := by
      simpa using List.findIdx_getElem (w := hlt)
    exact hloaded _ v (Nat.zero_le _) (List.getElem?_eq_some_iff.2 ⟨hlt, hfound⟩)
  · intro i n hn
    have hrange := (Registers.numbered_results f).range hn
    exact (hkept n (.inr hrange.1)).trans (hzero ((Registers.arity_le f).trans hrange.1))

/-! ### Places -/

omit hl in
/-- Phis have no code. -/
theorem LowersInsts.body {b : BlockId} {insts : List (List Line)}
    (h : LowersInsts f (f.block b).insts insts) :
    ∃ insts', LowersInsts f (f.body b) insts' ∧ insts'.flatten = insts.flatten := by
  unfold Func.body
  generalize (f.block b).insts = l at h
  induction h with
  | nil => exact ⟨[], .nil, rfl⟩
  | @cons i ls l insts hi _ ih =>
    obtain ⟨insts', hlower, hflat⟩ := ih
    by_cases hphi : f.isPhiInst i
    · have hls : ls = [] := by
        cases ho : f.op i with
        | phi incoming => rw [ho] at hi; exact (Except.ok.inj hi).symm
        | _ => simp [Func.isPhiInst, ho, Operation.isPhi] at hphi
      refine ⟨insts', ?_, by rw [hls, hflat, List.flatten_cons, List.nil_append]⟩
      rwa [List.filter_cons_of_neg (by simpa using hphi)]
    · refine ⟨ls :: insts', ?_, by rw [List.flatten_cons, List.flatten_cons, hflat]⟩
      rw [List.filter_cons_of_pos (by simpa using hphi)]
      exact .cons hi hlower

omit hl in
theorem mem_layout_of_mem_zipIdx {b : BlockId} {n : Nat} (h : (b, n) ∈ f.layout.zipIdx) :
    b ∈ f.layout := List.mem_of_getElem? (List.mem_zipIdx_iff_getElem?.1 h)

/-- The machine is at the code of what is left of a block, with all values in their registers. -/
inductive Tracks (f : Func) (chunk : Chunk) (blocks : List (List Line)) :
    IR.State → Step → Prop where
  | intro {b : BlockId} {n : Nat} {left : List InstId} {insts : List (List Line)}
      {t : Terminator} {last after : List Line} {env : Env} {regs : Nat → Float} {m : Machine}
      (hb : (b, n) ∈ f.layout.zipIdx) (hleft : ∀ i ∈ left, i ∈ f.body b)
      (hinsts : LowersInsts f left insts) (ht : (f.block b).terminator = some t)
      (hlast : lowerTerminator f (.allocate f) n b t = .ok last)
      (hm : Reaches chunk (functionLines f blocks) (insts.flatten ++ (last ++ after)) regs m)
      (hh : Holds f env regs) : Tracks f chunk blocks ⟨b, left, env⟩ (.next m)

theorem tracks_of_label {b : BlockId} {note : String} (hh : Holds f env regs)
    (hm : Reaches chunk (functionLines f blocks) (.label (.block b) note :: rest) regs m) :
    Tracks f chunk blocks ⟨b, f.body b, env⟩ (.next m) := by
  obtain ⟨b', n, hb, hlabelled⟩ := hl.exists_labelled hm
  obtain ⟨hinsts, ht, hlast⟩ | - := hlabelled
  obtain ⟨insts', hinsts', hflat⟩ := hinsts.body
  have hm := hm.label
  rw [List.append_assoc, ← hflat] at hm
  exact .intro hb (fun _ hi => hi) hinsts' ht hlast hm hh

include hf

/-- The code of a way from one block to the next. -/
theorem run_edge {source target : BlockId} {ls : List Line} (hs : source ∈ f.layout)
    (ht : target ∈ f.successors source)
    (hls : edgeLines f (.allocate f) source target = .ok ls)
    (h : Reaches chunk (functionLines f blocks) (ls ++ rest) regs m) (hh : Holds f env regs) :
    ∃ m', (m₀.process image maxDepth).SilentPlus (.next m) (.next m') ∧
      Tracks f chunk blocks (f.enter source target env) (.next m') := by
  obtain ⟨copies, hcopies, rfl⟩ := edgeLines_eq_ok.1 hls
  have htl := hf.successor_mem hs ht
  have hlt := copies_lt hf hl.count_lt hh htl hcopies
  have hcount : (Registers.allocate f).phiScratch + copies.length ≤ chunk.registers := by
    rw [hl.registers]
    exact Nat.add_le_add_left ((length_edgeCopies hcopies).trans (countP_le_maxPhis htl)) _
  rw [copyMoves_eq, List.append_assoc] at h
  obtain ⟨m₁, hsilent, hm₁⟩ := h.moves hl.assembled fun c hc =>
    ⟨Nat.lt_of_lt_of_le (schedule_lt hlt hc).1 hcount,
      Nat.lt_of_lt_of_le (schedule_lt hlt hc).2 hcount⟩
  obtain ⟨m', note, rest', hact, hm'⟩ := Reaches.jmp hm₁ hl.assembled
  exact ⟨m', .tail' hsilent hact, tracks_of_label hl (hh.enter hf hl hs ht hcopies) hm'⟩

/-- The code behind the label of the second way of a branch. -/
theorem run_second {b : BlockId} {n : Nat} {cond : Operand} {yes no : BlockId} {note : String}
    (hb : (b, n) ∈ f.layout.zipIdx) (ht : (f.block b).terminator = some (.condBr cond yes no))
    (h : Reaches chunk (functionLines f blocks) (.label (.edge n) note :: rest) regs m)
    (hh : Holds f env regs) :
    ∃ m', (m₀.process image maxDepth).SilentPlus (.next m) (.next m') ∧
      Tracks f chunk blocks (f.enter b no env) (.next m') := by
  obtain ⟨b', n', hb', hlabelled⟩ := hl.exists_labelled h
  obtain - | ⟨ht', hlines⟩ := hlabelled
  have hbn := List.mem_zipIdx_iff_getElem?.1 hb
  obtain rfl : b = b' := Option.some.inj (hbn.symm.trans (List.mem_zipIdx_iff_getElem?.1 hb'))
  cases ht.symm.trans ht'
  exact run_edge hf hl (List.mem_of_getElem? hbn) (by simp [Func.successors, ht,
    Terminator.successors]) hlines h.label hh

theorem run_condBr {b : BlockId} {n : Nat} {cond : Operand} {yes no : BlockId} {last : List Line}
    (hb : (b, n) ∈ f.layout.zipIdx) (ht : (f.block b).terminator = some (.condBr cond yes no))
    (hlast : lowerTerminator f (.allocate f) n b (.condBr cond yes no) = .ok last)
    (h : Reaches chunk (functionLines f blocks) (last ++ rest) regs m) (hh : Holds f env regs) :
    ∃ m', (m₀.process image maxDepth).SilentPlus (.next m) (.next m') ∧
      Tracks f chunk blocks (f.enter b (if env.value cond == 0.0 then no else yes) env)
        (.next m') := by
  have hbl := mem_layout_of_mem_zipIdx hb
  have hyes : yes ∈ f.successors b := by simp [Func.successors, ht, Terminator.successors]
  have hused : cond ∈ f.usedOperands :=
    Func.mem_usedOperands.2 (.inr ⟨b, hbl, _, ht, by simp [Terminator.operands]⟩)
  obtain ⟨c, yesLines, hc, hyesLines, hlines⟩ := lowerTerminator_condBr hlast
  obtain ⟨hclt, hcv⟩ := hh.operandRegister hf hl hused hc
  rcases hlines with ⟨noLines, note, hnoLines, rfl⟩ | ⟨hphis, rfl⟩
  · rw [List.cons_append, List.append_assoc] at h
    obtain ⟨m₁, hact, hm₁⟩ := Reaches.jmpIfFalse h hl.assembled (hl.lt_registers hclt)
    rw [hcv] at hm₁
    split at hm₁
    · next hzero =>
      obtain ⟨note, rest', hm₁⟩ := hm₁
      obtain ⟨m', hplus, htracks⟩ := run_second hf hl hb ht hm₁ hh
      exact ⟨m', .head hact hplus, by rwa [if_pos hzero]⟩
    · next hzero =>
      obtain ⟨m', hplus, htracks⟩ := run_edge hf hl hbl hyes hyesLines hm₁ hh
      exact ⟨m', .head hact hplus, by rwa [if_neg hzero]⟩
  · obtain ⟨m₁, hact, hm₁⟩ := Reaches.jmpIfFalse h hl.assembled (hl.lt_registers hclt)
    rw [hcv] at hm₁
    split at hm₁
    · next hzero =>
      obtain ⟨note, rest', hm₁⟩ := hm₁
      refine ⟨m₁, .single hact, ?_⟩
      rw [if_pos hzero, Func.enter, Func.enterEnv_of_not_phi hphis]
      exact tracks_of_label hl hh hm₁
    · next hzero =>
      obtain ⟨m', hplus, htracks⟩ := run_edge hf hl hbl hyes hyesLines hm₁ hh
      exact ⟨m', .head hact hplus, by rwa [if_neg hzero]⟩

/-! ### Steps -/

omit hf hl in
theorem stepInst_of_not_isCall {i : InstId} (h : ¬isCall (f.op i)) (b : BlockId)
    (left : List InstId) (env : Env) :
    f.stepInst b i left env = .next ⟨b, left, Func.evalOp i env (f.op i)⟩ := by
  unfold Func.stepInst
  split
  · next ho => simp [ho, isCall] at h
  · rfl

theorem Tracks.next {s s₁ : IR.State} {q : Step} (h : Tracks f chunk blocks s q)
    (hs : f.step s = .next s₁) :
    ∃ q₁, (m₀.process image maxDepth).SilentPlus q q₁ ∧ Tracks f chunk blocks s₁ q₁ := by
  obtain @⟨b, _, _, _, t, _, _, _, _, _, hb, hleft, hinsts, ht, hlast, hm, hh⟩ := h
  cases hinsts with
  | nil =>
    simp only [Func.step, ht] at hs
    cases t with
    | br target =>
      cases hs
      obtain ⟨m', hplus, htracks⟩ := run_edge hf hl (mem_layout_of_mem_zipIdx hb)
        (by simp [Func.successors, ht, Terminator.successors]) hlast hm hh
      exact ⟨_, hplus, htracks⟩
    | condBr cond yes no =>
      cases hs
      obtain ⟨m', hplus, htracks⟩ := run_condBr hf hl hb ht hlast hm hh
      exact ⟨_, hplus, htracks⟩
    | ret v => cases hs
  | @cons i ls left insts hi hinsts =>
    obtain ⟨hbody, hleft⟩ := List.forall_mem_cons.1 hleft
    obtain ⟨hib, hphi⟩ := Func.mem_body.1 hbody
    have hlive := Func.mem_live.2 ⟨b, mem_layout_of_mem_zipIdx hb, hib⟩
    by_cases hcall : isCall (f.op i)
    · cases ho : f.op i <;> simp [ho, isCall, Func.step, Func.stepInst] at hcall hs
    · cases (stepInst_of_not_isCall hcall ..).symm.trans hs
      rw [List.flatten_cons, List.append_assoc] at hm
      obtain ⟨m', regs', hact, hm', hh'⟩ := run_inst hf hl hlive hphi hcall hi hm hh
      exact ⟨_, .single hact, .intro hb hleft hinsts ht hlast hm' hh'⟩

theorem Tracks.ask (hc : f.UniformCalls) {s : IR.State} {q : Step} {c : Call}
    {resume : Float → IR.State} (h : Tracks f chunk blocks s q) (hs : f.step s = .ask c resume) :
    ∃ q₁ resume', (m₀.process image maxDepth).Silent q q₁ ∧
      q₁.act image maxDepth = .ask c resume' ∧
      ∀ v, Tracks f chunk blocks (resume v) (resume' v) := by
  obtain @⟨b, _, _, _, t, _, _, _, _, _, hb, hleft, hinsts, ht, hlast, hm, hh⟩ := h
  cases hinsts with
  | nil =>
    simp only [Func.step, ht] at hs
    cases t <;> cases hs
  | @cons i ls left insts hi hinsts =>
    obtain ⟨hbody, hleft⟩ := List.forall_mem_cons.1 hleft
    have hlive := Func.mem_live.2 ⟨b, mem_layout_of_mem_zipIdx hb, (Func.mem_body.1 hbody).1⟩
    cases ho : f.op i with
    | call callee args =>
      simp only [Func.step, Func.stepInst, ho] at hs
      cases hs
      rw [List.flatten_cons, List.append_assoc] at hm
      obtain ⟨m₁, resume', hsilent, hact, hresume⟩ := run_call hf hl hc hlive ho hi hm hh
      refine ⟨_, resume', hsilent, hact, fun v => ?_⟩
      obtain ⟨m', regs', he, hm', hh'⟩ := hresume v
      rw [he]
      exact .intro hb hleft hinsts ht hlast hm' hh'
    | _ =>
      simp only [Func.step, Func.stepInst, ho] at hs
      cases hs

theorem Tracks.done {s : IR.State} {q : Step} {v : Float} (h : Tracks f chunk blocks s q)
    (hs : f.step s = .done v) : q.act image maxDepth = .done v := by
  obtain @⟨b, _, _, _, t, _, _, _, _, _, hb, -, hinsts, ht, hlast, hm, hh⟩ := h
  cases hinsts with
  | nil =>
    simp only [Func.step, ht] at hs
    cases t with
    | ret v =>
      cases hs
      obtain ⟨w, hw, rfl⟩ := lowerTerminator_ret hlast
      have hused : v ∈ f.usedOperands := Func.mem_usedOperands.2
        (.inr ⟨b, mem_layout_of_mem_zipIdx hb, _, ht, by simp [Terminator.operands]⟩)
      obtain ⟨hlt, hvalue⟩ := hh.operandRegister hf hl hused hw
      rw [← hvalue]
      exact Reaches.ret hm hl.assembled (hl.lt_registers hlt)
    | _ => cases hs
  | cons =>
    simp only [Func.step, Func.stepInst] at hs
    split at hs <;> cases hs

omit hf hl in
theorem Tracks.not_stuck {s : IR.State} {q : Step} (h : Tracks f chunk blocks s q) :
    f.step s ≠ .stuck := by
  intro hs
  obtain @⟨_, _, _, _, t, _, _, _, _, _, -, -, hinsts, ht, -, -, -⟩ := h
  cases hinsts with
  | nil =>
    simp only [Func.step, ht] at hs
    cases t <;> cases hs
  | cons =>
    simp only [Func.step, Func.stepInst] at hs
    split at hs <;> cases hs

/-! ### Runs -/

omit hf in
theorem exists_entry_label {b : BlockId} (he : f.entry? = some b) :
    ∃ note rest, blocks.flatten = .label (.block b) note :: rest := by
  obtain ⟨layout, hlayout⟩ := List.head?_eq_some_iff.1 he
  have hblocks := hl.blocks
  rw [hlayout, List.zipIdx_cons] at hblocks
  cases hblocks with
  | cons hblock _ =>
    cases hblock
    exact ⟨_, _, rfl⟩

omit hf in
theorem tracks_start {b : BlockId} (he : f.entry? = some b) {args : List Float}
    (hargs : args.length = f.arity) (hm : m.At chunk 0 fun k => args.getD k 0.0) :
    ∃ q, (m₀.process image maxDepth).Silent (.next m) q ∧
      Tracks f chunk blocks (f.startState args) q := by
  obtain ⟨m', regs, hsilent, hm', hh⟩ := run_prologue hl hargs hm
  obtain ⟨note, rest, hlabel⟩ := exists_entry_label hl he
  rw [hlabel] at hm'
  rw [Func.startState_of_entry he]
  exact ⟨.next m', hsilent, tracks_of_label hl hh hm'⟩

/-- The machine follows the function. -/
def simulation (hc : f.UniformCalls) {b : BlockId} (he : f.entry? = some b) {args : List Float}
    (hargs : args.length = f.arity) (hm : m.At chunk 0 fun k => args.getD k 0.0) :
    Simulation (f.process args) (m.process image maxDepth) where
  rel := Tracks f chunk blocks
  rank _ := 0
  start := tracks_start hl he hargs hm
  next h hs := .inl (h.next hf hl hs)
  ask h hs := h.ask hf hl hc hs
  done h hs := ⟨_, .refl, h.done hf hl hs⟩
  stuck h hs := absurd hs h.not_stuck

omit hf in
/-- There is no code for a declaration. -/
theorem code_of_declaration (he : f.entry? = none) : chunk.code = #[] := by
  have hlayout : f.layout = [] := List.head?_eq_none_iff.1 he
  have hblocks := hl.blocks
  rw [hlayout] at hblocks
  cases hblocks
  have hconstants : (Registers.allocate f).constants = [] := by
    simp [Registers.allocate, constantsOf, Func.usedOperands, hlayout, distinct]
  have hcode := hl.assembled.code
  simpa [functionLines, constantLines, hconstants] using hcode

end

theorem act_of_declaration (hm : m.frame.fn.chunk.code = #[]) :
    ∃ s, m.act image maxDepth = .next (.stop s) := by
  simp only [Machine.act, Machine.step, hm]
  exact ⟨_, rfl⟩

/-- Where there is nothing to run, both stop at once. -/
def simulationOfDeclaration (he : f.entry? = none) (hm : m.frame.fn.chunk.code = #[])
    (args : List Float) : Simulation (f.process args) (m.process image maxDepth) where
  rel s q := f.step s = .stuck ∧ q.act image maxDepth = .stuck
  rank _ := 0
  start := by
    obtain ⟨s, hs⟩ := act_of_declaration hm
    exact ⟨.stop s, .single hs, Func.step_declaration he args, rfl⟩
  next h hs := nomatch h.1.symm.trans hs
  ask h hs := nomatch h.1.symm.trans hs
  done h hs := nomatch h.1.symm.trans hs
  stuck h _ := ⟨_, .refl, h.2⟩

/-- The frame of a function makes the calls of the function, returns its value, and runs forever if
the function does. The machine makes each step of the frame's run, with calls that are answered by
the host or run in frames of their own. -/
theorem lower_behaviour_eq (f : Func) (hf : f.verify = .ok ()) (hc : f.UniformCalls) (m : Machine)
    (hl : lower f = .ok m.frame.fn.chunk) (args : List Float) (hargs : args.length = f.arity)
    (hm : m.Begins args) (image : Image) (maxDepth : Nat) (o : Oracle) :
    (m.process image maxDepth).behaviour o = (f.process args).behaviour o ∧
    ∀ m' : Machine, (m.process image maxDepth).Reachable (Step.next m') →
      m'.CarriesOut image maxDepth (m'.act image maxDepth) (m'.step image maxDepth) := by
  refine ⟨?_, fun m' => hm.carriesOut⟩
  have hf := Func.verify_eq_ok.1 hf
  obtain ⟨blocks, hl⟩ := lowers_of_eq_ok hf hl
  cases he : f.entry? with
  | some b =>
    have hat := hm.at (hargs ▸ hl.arity_le)
    exact ((simulation hf hl hc he hargs hat).behaviour_eq o).symm
  | none =>
    exact ((simulationOfDeclaration he (code_of_declaration hl he) args).behaviour_eq o).symm

/-- Two values that change places for as long as a function of both says so. -/
def alternate : Func where
  name := "alternate"
  params := ["x"]
  insts := #[⟨.phi [(.arg 0, 0), (.inst 1, 1)], "a"⟩, ⟨.phi [(.const 1.0, 0), (.inst 0, 1)], "b"⟩,
    ⟨.call "more" [.inst 0, .inst 1], "more"⟩, ⟨.compare .one (.inst 2) (.const 0.0), "test"⟩]
  blocks := #[⟨"entry", [], some (.br 1)⟩, ⟨"loop", [0, 1, 2, 3], some (.condBr (.inst 3) 1 2)⟩,
    ⟨"done", [], some (.ret (.inst 0))⟩]
  layout := [0, 1, 2]

theorem uniformCalls_alternate : alternate.UniformCalls := by
  have length_eq {callee : String} {n : Nat} (h : alternate.CallsWith callee n) : n = 2 := by
    obtain ⟨i, hi, args, ho, rfl⟩ := h
    have hi : i ∈ [0, 1, 2, 3] := hi
    simp only [List.mem_cons, List.not_mem_nil, or_false] at hi
    rcases hi with rfl | rfl | rfl | rfl <;> cases ho
    rfl
  exact fun callee n m hn hm => (length_eq hn).trans (length_eq hm).symm

theorem lower_behaviour_eq_alternate :
    ∃ chunk, lower alternate = .ok chunk ∧ ∀ x image maxDepth o,
      let m := Machine.start ⟨"alternate", 1, chunk, #[none]⟩ [x]
      (m.process image maxDepth).behaviour o = (alternate.process [x]).behaviour o ∧
      m.CarriesOut image maxDepth (m.act image maxDepth) (m.step image maxDepth) := by
  have hok : (lower alternate).isOk = true := by decide +kernel
  match h : lower alternate with
  | .ok chunk =>
    refine ⟨chunk, rfl, fun x image maxDepth o => ?_⟩
    intro m
    obtain ⟨hbehaviour, hcarries⟩ := lower_behaviour_eq alternate (by rfl) uniformCalls_alternate m h
      [x] rfl (Machine.begins_start _ _) image maxDepth o
    exact ⟨hbehaviour, hcarries m .start⟩
  | .error e => simp [h, Except.isOk, Except.toBool] at hok

end ScalarLang.Bytecode
