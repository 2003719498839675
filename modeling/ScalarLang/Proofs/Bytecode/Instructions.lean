import ScalarLang.Proofs.Bytecode.Lowering

/-! What the code of an instruction does to the registers, and what the copies at the end of a block
do to them. -/

namespace ScalarLang.Bytecode

open IR (BlockId Env Func InstId Operand Operation Terminator)

variable {f : Func} {chunk : Chunk} {blocks : List (List Line)} {regs : Nat → Float} {env : Env}
  {m m₀ : Machine} {rest : List Line} {image : Image} {maxDepth : Nat}

section

variable (hf : f.Verified) (hl : Lowers f chunk blocks)
include hl

/-! ### Registers -/

theorem Lowers.count_lt : (Registers.allocate f).count < Registers.limit :=
  Nat.lt_succ_of_le (hl.registers ▸ hl.assembled.registers_le)

theorem Lowers.callScratch_le : (Registers.allocate f).callScratch ≤ chunk.registers :=
  hl.registers ▸ (Registers.callScratch_le f).trans (Registers.phiScratch_le f)

/-- All registers that are no scratch registers belong to the frame. -/
theorem Lowers.lt_registers {n : Nat} (hn : n < (Registers.allocate f).callScratch) :
    n < chunk.registers := Nat.lt_of_lt_of_le hn hl.callScratch_le

theorem Lowers.arity_le : f.arity ≤ chunk.registers :=
  (Registers.arity_le f).trans ((Registers.numbered_results f).le.trans hl.callScratch_le)

include hf

/-- The register that an instruction names for an operand holds its value. -/
theorem Holds.operandRegister (h : Holds f env regs) {v : Operand} {w : UInt16}
    (hv : v ∈ f.usedOperands) (hw : operandRegister (.allocate f) v = .ok w) :
    w.toNat < (Registers.allocate f).callScratch ∧ regs w.toNat = env.value v := by
  obtain ⟨n, hn, hlt, hvalue⟩ := h.operand hf hl.count_lt hv
  simp only [Bytecode.operandRegister, hn, Except.ok.injEq] at hw
  have hle := (hl.lt_registers hlt).le.trans hl.assembled.registers_le
  rw [← hw, toNat_toUInt16 hle]
  exact ⟨hlt, hvalue⟩

/-- The register that an instruction names for its result. -/
theorem Lowers.exists_result {i : InstId} (hi : i ∈ f.live) (htype : (f.op i).type?.isSome) :
    ∃ n, (Registers.allocate f).results.getD i none = some n ∧
      ((Registers.allocate f).result i).toUInt16.toNat = n ∧ n < chunk.registers := by
  obtain ⟨n, hn⟩ := Registers.exists_result hf hi htype
  have hlt := hl.lt_registers ((Registers.numbered_results f).range hn).2
  refine ⟨n, hn, ?_, hlt⟩
  rw [Registers.result, hn, Option.getD_some,
    toNat_toUInt16 (hlt.le.trans hl.assembled.registers_le)]

theorem Lowers.exists_slot {i : InstId} (hi : i ∈ f.live) {s : IR.SlotId}
    (hs : (f.op i).slot? = some s) :
    ∃ n, (Registers.allocate f).slots.getD s none = some n ∧
      ((Registers.allocate f).slot s).toUInt16.toNat = n ∧ n < chunk.registers := by
  obtain ⟨n, hn⟩ := Registers.exists_slot hf hi hs
  have hlt := hl.lt_registers (Nat.lt_of_lt_of_le ((Registers.numbered_slots f).range hn).2
    ((Nat.le_add_right _ _).trans (Registers.numbered_results f).le))
  refine ⟨n, hn, ?_, hlt⟩
  rw [Registers.slot, hn, Option.getD_some,
    toNat_toUInt16 (hlt.le.trans hl.assembled.registers_le)]

/-! ### Instructions -/

theorem Holds.instOperand (h : Holds f env regs) {i : InstId} (hi : i ∈ f.live) {v : Operand}
    {w : UInt16} (hv : v ∈ (f.op i).operands)
    (hw : Bytecode.operandRegister (.allocate f) v = .ok w) :
    w.toNat < (Registers.allocate f).callScratch ∧ regs w.toNat = env.value v := by
  obtain ⟨b, hb, hib⟩ := Func.mem_live.1 hi
  exact h.operandRegister hf hl (Func.mem_usedOperands.2 (.inl ⟨b, hb, i, hib, hv⟩)) hw

/-- The code of an instruction that does not call anything. -/
theorem run_inst {i : InstId} {ls : List Line} (hi : i ∈ f.live) (hphi : ¬(f.op i).isPhi)
    (hcall : ¬isCall (f.op i)) (hls : lowerInst (.allocate f) (importsOf f)
      ((Registers.allocate f).result i).toUInt16 (f.op i) = .ok ls)
    (h : Reaches chunk (functionLines f blocks) (ls ++ rest) regs m) (hh : Holds f env regs) :
    ∃ m' regs', (m₀.process image maxDepth).Moves (.next m) (.next m') ∧
      Reaches chunk (functionLines f blocks) rest regs' m' ∧
      Holds f (Func.evalOp i env (f.op i)) regs' := by
  have ha := hl.assembled
  cases ho : f.op i with
  | binary op left right =>
    obtain ⟨n, hn, hdst, hlt⟩ := hl.exists_result hf hi (by rw [ho]; rfl)
    simp only [ho, lowerInst, bind_eq_ok, pure_eq_ok] at hls
    obtain ⟨a, hleft, b, hright, rfl⟩ := hls
    obtain ⟨hal, hav⟩ := hh.instOperand hf hl hi (by simp [ho, Operation.operands]) hleft
    obtain ⟨hbl, hbv⟩ := hh.instOperand hf hl hi (by simp [ho, Operation.operands]) hright
    obtain ⟨m', hact, hm'⟩ := h.binary ha (hdst.symm ▸ hlt) (hl.lt_registers hal)
      (hl.lt_registers hbl)
    rw [hav, hbv, hdst] at hm'
    exact ⟨m', _, hact, hm', hh.setResult hn _⟩
  | compare test left right =>
    obtain ⟨n, hn, hdst, hlt⟩ := hl.exists_result hf hi (by rw [ho]; rfl)
    simp only [ho, lowerInst, bind_eq_ok, pure_eq_ok] at hls
    obtain ⟨a, hleft, b, hright, rfl⟩ := hls
    obtain ⟨hal, hav⟩ := hh.instOperand hf hl hi (by simp [ho, Operation.operands]) hleft
    obtain ⟨hbl, hbv⟩ := hh.instOperand hf hl hi (by simp [ho, Operation.operands]) hright
    obtain ⟨m', hact, hm'⟩ := h.compare ha (hdst.symm ▸ hlt) (hl.lt_registers hal)
      (hl.lt_registers hbl)
    rw [hav, hbv, hdst] at hm'
    exact ⟨m', _, hact, hm', hh.setResult hn _⟩
  | toDouble v =>
    obtain ⟨n, hn, hdst, hlt⟩ := hl.exists_result hf hi (by rw [ho]; rfl)
    simp only [ho, lowerInst, bind_eq_ok, pure_eq_ok] at hls
    obtain ⟨a, hv, rfl⟩ := hls
    obtain ⟨hal, hav⟩ := hh.instOperand hf hl hi (by simp [ho, Operation.operands]) hv
    obtain ⟨m', hact, hm'⟩ := h.mov ha (hdst.symm ▸ hlt) (hl.lt_registers hal)
    rw [hav, hdst] at hm'
    exact ⟨m', _, hact, hm', hh.setResult hn _⟩
  | load s =>
    obtain ⟨n, hn, hdst, hlt⟩ := hl.exists_result hf hi (by rw [ho]; rfl)
    obtain ⟨k, hk, hsrc, hklt⟩ := hl.exists_slot hf hi (by rw [ho]; rfl)
    rw [ho] at hls
    cases hls
    obtain ⟨m', hact, hm'⟩ := h.mov ha (hdst.symm ▸ hlt) (hsrc.symm ▸ hklt)
    rw [hsrc, hdst, hh.slot hk] at hm'
    exact ⟨m', _, hact, hm', hh.setResult hn _⟩
  | store s v =>
    obtain ⟨n, hn, hdst, hlt⟩ := hl.exists_slot hf hi (by rw [ho]; rfl)
    simp only [ho, lowerInst, bind_eq_ok, pure_eq_ok] at hls
    obtain ⟨a, hv, rfl⟩ := hls
    obtain ⟨hal, hav⟩ := hh.instOperand hf hl hi (by simp [ho, Operation.operands]) hv
    obtain ⟨m', hact, hm'⟩ := h.mov ha (hdst.symm ▸ hlt) (hl.lt_registers hal)
    rw [hav, hdst] at hm'
    exact ⟨m', _, hact, hm', hh.setSlot hn _⟩
  | call callee args => simp [ho, isCall] at hcall
  | phi incoming => simp [ho, Operation.isPhi] at hphi

/-! ### Calls -/

/-- Copies of the arguments of a call; they are only saved, so they have no destinations. -/
def argCopies (sources : List UInt16) : List Copy := sources.map fun w => (0, w.toNat)

omit hl hf in
theorem argMoves_eq (scratch : Nat) (sources : List UInt16) :
    (sources.zipIdx.map fun (src, k) => Line.instr (.mov (scratch + k).toUInt16 src)) =
      (saves scratch (argCopies sources)).map fun (dst, src) => Line.mov dst src := by
  simp [saves, argCopies, List.zipIdx_map, Line.mov, Function.comp_def]

omit hl hf in
theorem source_lt {scratch : Nat} {args : List Operand} {sources : List UInt16}
    (h : List.Forall₂ (fun v w => w.toNat < scratch ∧ regs w.toNat = env.value v) args sources) :
    ∀ w ∈ sources, w.toNat < scratch := by
  induction h with
  | nil => nofun
  | cons hw _ ih => exact List.forall_mem_cons.2 ⟨hw.1, ih⟩

omit hl hf in
/-- Once the arguments are saved, the scratch registers hold their values. -/
theorem values_eq {scratch : Nat} {args : List Operand} {sources : List UInt16}
    (h : List.Forall₂ (fun v w => w.toNat < scratch ∧ regs w.toNat = env.value v) args sources) :
    ((List.range args.length).map fun k =>
      runMoves (saves scratch (argCopies sources)) regs (scratch + k)) = args.map env.value := by
  have hlength := h.length_eq
  have hlt : ∀ c ∈ argCopies sources, c.2 < scratch := by
    intro c hc
    obtain ⟨w, hw, rfl⟩ := List.mem_map.1 hc
    exact source_lt h w hw
  refine List.ext_getElem (by simp) fun k hk hk' => ?_
  have hka : k < args.length := by simpa using hk
  have hcopy : (argCopies sources)[k]? = some (0, (sources.get ⟨k, hlength ▸ hka⟩).toNat) := by
    simp [argCopies, hlength ▸ hka]
  rw [List.getElem_map, List.getElem_range, runMoves_saves hlt hcopy, List.getElem_map]
  exact ((List.forall₂_iff_get.1 h).2 k hka (hlength ▸ hka)).2

theorem run_call (hc : f.UniformCalls) {i : InstId} {callee : String} {args : List Operand}
    {ls : List Line} (hi : i ∈ f.live) (ho : f.op i = .call callee args)
    (hls : lowerInst (.allocate f) (importsOf f) ((Registers.allocate f).result i).toUInt16
      (f.op i) = .ok ls)
    (h : Reaches chunk (functionLines f blocks) (ls ++ rest) regs m) (hh : Holds f env regs) :
    ∃ m₁ resume, (m₀.process image maxDepth).Silent (.next m) (.next m₁) ∧
      m₁.act image maxDepth = .ask ⟨callee, args.map env.value⟩ resume ∧
      ∀ v, ∃ m' regs', resume v = .next m' ∧
        Reaches chunk (functionLines f blocks) rest regs' m' ∧
        Holds f (env.setResult i v) regs' := by
  obtain ⟨n, hn, hdst, hlt⟩ := hl.exists_result hf hi (by rw [ho]; rfl)
  simp only [ho, lowerInst, guard_eq_ok, bind_eq_ok, pure_eq_ok] at hls
  obtain ⟨-, sources, hsources, rfl⟩ := hls
  have hsources : List.Forall₂ (fun v w => w.toNat < (Registers.allocate f).callScratch ∧
      regs w.toNat = env.value v) args sources :=
    ((List.forall₂_and_left ..).2 ⟨fun v hv => hv, mapM_eq_ok.1 hsources⟩).imp fun v w hw =>
      hh.instOperand hf hl hi (by simpa [ho, Operation.operands] using hw.1) hw.2
  have hscratch : (Registers.allocate f).callScratch + args.length ≤ chunk.registers := by
    rw [hl.registers]
    exact (Nat.add_le_add_left (length_le_maxCallArgs hi ho) _).trans (Registers.phiScratch_le f)
  have hfirst : (Registers.allocate f).callScratch.toUInt16.toNat =
      (Registers.allocate f).callScratch :=
    toNat_toUInt16 ((Nat.le_add_right _ _).trans (hscratch.trans hl.assembled.registers_le))
  have himport := getElem?_importsOf hc hi ho
  have hindex : ((importsOf f).findIdx (·.name = callee)).toUInt16.toNat =
      (importsOf f).findIdx (·.name = callee) :=
    toNat_toUInt16 ((List.getElem?_eq_some_iff.1 himport).1.le.trans hl.length_imports_le)
  have hmoves : ∀ c ∈ saves (Registers.allocate f).callScratch (argCopies sources),
      c.1 < chunk.registers ∧ c.2 < chunk.registers := by
    intro c hc
    obtain ⟨k, d, hd, rfl⟩ := mem_saves.1 hc
    obtain ⟨w, hw, rfl⟩ := List.mem_map.1 (List.mem_of_getElem? hd)
    have hk : k < args.length := by
      simpa [argCopies, hsources.length_eq] using (List.getElem?_eq_some_iff.1 hd).1
    exact ⟨Nat.lt_of_lt_of_le (Nat.add_lt_add_left hk _) hscratch,
      hl.lt_registers (source_lt hsources w hw)⟩
  rw [argMoves_eq, List.append_assoc] at h
  obtain ⟨m₁, hsilent, hm₁⟩ := h.moves hl.assembled hmoves
  obtain ⟨resume, hact, hresume⟩ := hm₁.call (i := ⟨callee, args.length⟩) hl.assembled
    (by rw [hindex, hl.imports, List.getElem?_toArray, himport]) (hdst.symm ▸ hlt)
    (hfirst.symm ▸ hscratch)
  rw [hfirst, values_eq hsources] at hact
  refine ⟨m₁, resume, hsilent, hact, fun v => ?_⟩
  obtain ⟨m', hm', hr⟩ := hresume v
  rw [hdst] at hr
  exact ⟨m', _, hm', hr, (hh.of_agree fun n => runMoves_saves_of_lt).setResult hn v⟩

/-! ### Copies -/

omit hf hl in
theorem mem_usedOperands_of_incoming? {source target : BlockId} {i : InstId}
    {incoming : List (Operand × BlockId)} {v : Operand} (ht : target ∈ f.layout)
    (hi : i ∈ (f.block target).insts) (ho : f.op i = .phi incoming)
    (hv : IR.incoming? incoming source = some v) : v ∈ f.usedOperands := by
  refine Func.mem_usedOperands.2 (.inl ⟨target, ht, i, hi, ?_⟩)
  rw [ho]
  exact List.mem_map_of_mem (f := (·.1)) (Func.mem_of_incoming? hv)

omit hf hl in
/-- No two copies go to the same register. -/
theorem Receives.inj {source : BlockId} {i j : InstId} {c d : Copy}
    (hc : Receives f (.allocate f) source i c) (hd : Receives f (.allocate f) source j d)
    (h : c.1 = d.1) : c = d := by
  obtain ⟨ho, hn, hv, hs⟩ := hc
  obtain ⟨ho', hn', hv', hs'⟩ := hd
  cases h
  obtain rfl := (Registers.numbered_results f).inj hn hn'
  cases ho.symm.trans ho'
  cases hv.symm.trans hv'
  cases hs.symm.trans hs'
  rfl

omit hl in
/-- A copy goes to the register of a phi, and brings the value that the phi gets. -/
theorem Receives.spec (hcount : (Registers.allocate f).count < Registers.limit)
    (hh : Holds f env regs) {source target : BlockId} (ht : target ∈ f.layout) {i : InstId}
    (hi : i ∈ (f.block target).insts) {c : Copy} (hc : Receives f (.allocate f) source i c) :
    i ∈ f.phis target ∧ (Registers.allocate f).results.getD i none = some c.1 ∧
      c.2 < (Registers.allocate f).callScratch ∧
      regs c.2 = (f.enterEnv source target env).results i := by
  obtain @⟨incoming, v, dst, src, ho, hd, hv, hs⟩ := hc
  obtain ⟨n, hn, hlt, hvalue⟩ :=
    hh.operand hf hcount (mem_usedOperands_of_incoming? ht hi ho hv)
  cases hn.symm.trans hs
  exact ⟨Func.mem_phis.2 ⟨hi, by rw [ho]; rfl⟩, hd, hlt,
    hvalue.trans (Func.results_enterEnv hi ho hv).symm⟩

omit hl in
/-- Every phi of a successor receives a value. -/
theorem exists_receives (hcount : (Registers.allocate f).count < Registers.limit)
    (hh : Holds f env regs) {source target : BlockId} (hs : source ∈ f.layout)
    (ht : target ∈ f.successors source) {i : InstId} {n : Nat} (hi : i ∈ f.phis target)
    (hn : (Registers.allocate f).results.getD i none = some n) :
    ∃ src, Receives f (.allocate f) source i (n, src) := by
  obtain ⟨hi, hphi⟩ := Func.mem_phis.1 hi
  have htl := hf.successor_mem hs ht
  cases ho : f.op i with
  | phi incoming =>
    obtain ⟨v, hv⟩ := Func.exists_incoming? ((hf.mem_sources htl hi ho).2 ⟨hs, ht⟩)
    obtain ⟨src, hsrc, -⟩ :=
      hh.operand hf hcount (mem_usedOperands_of_incoming? htl hi ho hv)
    exact ⟨src, .intro ho hn hv hsrc⟩
  | _ => simp [ho, Operation.isPhi] at hphi

omit hl in
theorem copies_lt (hcount : (Registers.allocate f).count < Registers.limit) (hh : Holds f env regs)
    {source target : BlockId} (ht : target ∈ f.layout) {copies : List Copy}
    (hcopies : edgeCopies f (.allocate f) source target = .ok copies) :
    ∀ c ∈ copies, c.1 < (Registers.allocate f).phiScratch ∧
      c.2 < (Registers.allocate f).phiScratch := by
  intro c hc
  obtain ⟨i, hi, hc⟩ := (mem_edgeCopies hcopies).1 hc
  obtain ⟨-, hn, hlt, -⟩ := hc.spec hf hcount hh ht hi
  have hle := Registers.callScratch_le f
  exact ⟨Nat.lt_of_lt_of_le ((Registers.numbered_results f).range hn).2 hle,
    Nat.lt_of_lt_of_le hlt hle⟩

/-- The copies at the end of a block give the phis of its successor their values. -/
theorem Holds.enter (hh : Holds f env regs) {source target : BlockId} (hs : source ∈ f.layout)
    (ht : target ∈ f.successors source) {copies : List Copy}
    (hcopies : edgeCopies f (.allocate f) source target = .ok copies) :
    Holds f (f.enterEnv source target env)
      (runMoves (schedule (Registers.allocate f).phiScratch copies) regs) := by
  have htl := hf.successor_mem hs ht
  have hr := Registers.numbered_results f
  have hmem {c : Copy} := mem_edgeCopies (c := c) hcopies
  have hlt := copies_lt hf hl.count_lt hh htl hcopies
  have hscratch := hr.le.trans (Registers.callScratch_le f)
  refine hh.of_results (fun n hn => ?_) fun i n hn => ?_
  · refine runMoves_schedule_of_ne (Nat.lt_of_lt_of_le hn hscratch) fun c hc => ?_
    obtain ⟨i, hi, hc⟩ := hmem.1 hc
    have hrange := hr.range (hc.spec hf hl.count_lt hh htl hi).2.1
    exact Nat.ne_of_gt (Nat.lt_of_lt_of_le hn hrange.1)
  · by_cases hphi : i ∈ f.phis target
    · obtain ⟨src, hc⟩ := exists_receives hf hl.count_lt hh hs ht hphi hn
      have hi := (Func.mem_phis.1 hphi).1
      rw [runMoves_schedule hlt (fun c hc d hd he => ?_) (hmem.2 ⟨i, hi, hc⟩)]
      · exact (hc.spec hf hl.count_lt hh htl hi).2.2.2
      · obtain ⟨_, -, hc⟩ := hmem.1 hc
        obtain ⟨_, -, hd⟩ := hmem.1 hd
        rw [hc.inj hd he]
    · have hnlt := Nat.lt_of_lt_of_le (hr.range hn).2 (Registers.callScratch_le f)
      rw [runMoves_schedule_of_ne hnlt fun c hc he => ?_, hh.result hn]
      · exact (Func.value_enterEnv (v := .inst i) fun j hj => by cases hj; exact hphi).symm
      · obtain ⟨j, hj, hc⟩ := hmem.1 hc
        obtain ⟨hjphi, hjn, -⟩ := hc.spec hf hl.count_lt hh htl hj
        exact hphi (hr.inj hjn (he ▸ hn) ▸ hjphi)

end

end ScalarLang.Bytecode
