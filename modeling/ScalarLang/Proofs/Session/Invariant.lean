import ScalarLang.Proofs.Session.Evaluation
import ScalarLang.Proofs.Syntax.Suffixes

/-! Sessions that are reached. Between any two items the parts of a session fit together, whatever was
evaluated before. So a run can fail in two ways only: calls nest too deeply, or a function is called
that was not there when its caller was linked, and still is not or takes other arguments. -/

namespace ScalarLang

open Bytecode (Import)

namespace Image

variable {image : Image}

/-! ### Calls that fail -/

/-- An import of loaded code that was left open fails like this when it is looked up. -/
inductive Defers (image : Image) : LinkError → Prop where
  | unresolved {fn : LinkedFn} {index : Nat} {i : Import} (hfn : image.Loaded fn)
      (hi : fn.chunk.imports[index]? = some i) (hopen : fn.imports[index]? = some none)
      (hfind : image.find? i.name = none) : Defers image (.unresolved i.name)
  | mismatch {fn : LinkedFn} {index n : Nat} {i : Import} {a : Address} (hfn : image.Loaded fn)
      (hi : fn.chunk.imports[index]? = some i) (hopen : fn.imports[index]? = some none)
      (hfind : image.find? i.name = some a) (harity : image.arity? a = some n) (hn : n ≠ i.arity) :
      Defers image (.arityMismatch i.name n i.arity)

theorem reach_of_arity {i : Import} {bound : Option Address} {a : Address}
    (htarget : Machine.callTarget image i bound = .ok a) (ha : image.arity? a = some i.arity) :
    ∃ callee, image.reach i bound = .ok callee := by
  rw [arity?_eq] at ha
  obtain ⟨callee, hcallee, harity⟩ := Option.map_eq_some_iff.1 ha
  exact ⟨callee, by simp only [reach, htarget, hcallee, harity, if_true]⟩

/-- A call of an import that is bound does not fail, and one that is open fails as its lookup does. -/
theorem Consistent.reach_error (h : image.Consistent) {fn : LinkedFn} {index : Nat} {i : Import}
    {bound : Option Address} {e : RuntimeError} (hfn : image.Loaded fn)
    (hi : fn.chunk.imports[index]? = some i) (hbound : fn.imports[index]? = some bound)
    (he : image.reach i bound = .error e) : ∃ l, e = .link l ∧ image.Defers l := by
  cases bound with
  | some a =>
    have htarget : Machine.callTarget image i (some a) = .ok a := rfl
    obtain ⟨callee, hcallee⟩ := reach_of_arity htarget (h.bound hfn hi hbound)
    cases he.symm.trans hcallee
  | none =>
    cases hfind : image.find? i.name with
    | none =>
      simp only [reach, Machine.callTarget, hfind] at he
      cases he
      exact ⟨_, rfl, .unresolved hfn hi hbound hfind⟩
    | some a =>
      obtain ⟨n, hn⟩ := h.toTidy.arity?_of_find? hfind
      by_cases harity : n = i.arity
      · have htarget : Machine.callTarget image i none = .ok a := by
          simp only [Machine.callTarget, hfind, hn, harity, if_true]
        obtain ⟨callee, hcallee⟩ := reach_of_arity htarget (harity ▸ hn)
        cases he.symm.trans hcallee
      · simp only [reach, Machine.callTarget, hfind, hn, if_neg harity] at he
        cases he
        exact ⟨_, rfl, .mismatch hfn hi hbound hfind hn harity⟩

theorem Consistent.sound (h : image.Consistent) : image.Sound := by
  intro fn hfn
  obtain ⟨f, bound, hf⟩ := h.implemented fn hfn
  exact ⟨f, hf.toCodeOf⟩

theorem Consistent.call (h : image.Consistent) {maxDepth fuel k : Nat} {fn : LinkedFn}
    {args : List Float} {stop : Stop} (hfn : image.compiled? k = some fn)
    (hargs : fn.arity = args.length)
    (hstop : image.call maxDepth fuel (.compiled k) args = some stop) {e : RuntimeError}
    (he : stop.result = .error e) :
    e = .stackOverflow maxDepth ∨ ∃ l, e = .link l ∧ image.Defers l := by
  obtain ⟨fn', hfn', hhalts⟩ := h.sound.call hfn hargs hstop
  rw [he] at hhalts
  cases hhalts with
  | tooDeep => exact .inl rfl
  | unreached hi hbound hreach => exact .inr (h.reach_error hfn' hi hbound hreach)

end Image

namespace Session

variable {s : Session} {n : Nat}

/-! ### Histories -/

/-- A session without items, with these functions of the host. -/
def start (options : SessionOptions) (hosts : List HostFn) : Session :=
  hosts.foldl addHost (new options)

/-- The session comes about by adding host functions and evaluating items, and `n` definitions have
succeeded. Once there may be code, a host function is replaced only by one with as many arguments. -/
inductive Reached : Session → Nat → Prop where
  | start (options : SessionOptions) (hosts : List HostFn) : Reached (start options hosts) 0
  | addHost {s : Session} {n : Nat} {host : HostFn} (h : Reached s n)
      (hhost : ∀ old ∈ s.image.hosts, old.name = host.name → old.arity = host.arity) :
      Reached (s.addHost host) n
  | eval {s : Session} {n fuel : Nat} {item : Item} {e : Evaluated} (h : Reached s n)
      (he : s.evalItem fuel item = some e) :
      Reached e.session (n + if item.isDefinition && e.result.isOk then 1 else 0)

theorem Consistent.addHost (hs : s.Consistent) {host : HostFn}
    (hhost : ∀ old ∈ s.image.hosts, old.name = host.name → old.arity = host.arity) :
    (s.addHost host).Consistent :=
  ⟨hs.keyed, hs.declares, hs.agrees, hs.image.addHost hhost,
    fun hfn => hs.named (Image.loaded_addHost.1 hfn)⟩

/-- What holds before there is any code, however often host functions are replaced. -/
structure Blank (s : Session) : Prop where
  registry : s.registry = {}
  unit : s.openUnit.functions = []
  tidy : s.image.Tidy
  unloaded (fn : LinkedFn) : ¬s.image.Loaded fn
  count : s.image.moduleCount = 0

theorem Blank.consistent (h : s.Blank) : s.Consistent where
  keyed := h.registry ▸ Registry.keyed_empty
  declares := ⟨by simp [h.unit], by simp [h.unit]⟩
  agrees {name n} harity := by simp [IR.Module.arity?, IR.Module.find?, h.unit] at harity
  image := h.tidy.consistent h.unloaded
  named {fn} hfn := absurd hfn (h.unloaded fn)

theorem options_start (options : SessionOptions) (hosts : List HostFn) :
    (start options hosts).options = options :=
  List.foldlRecOn (motive := fun s : Session => s.options = options) hosts addHost rfl
    fun _ hs _ _ => hs

theorem blank_start (options : SessionOptions) (hosts : List HostFn) :
    (start options hosts).Blank := by
  refine List.foldlRecOn hosts addHost (motive := Blank) ⟨rfl, rfl, Image.tidy_empty, ?_, rfl⟩ ?_
  · intro fn
    rw [Image.loaded_iff]
    exact Array.not_mem_empty _
  · intro s hs host _
    exact ⟨hs.registry, hs.unit, hs.tidy.addHost host,
      fun fn hfn => hs.unloaded fn (Image.loaded_addHost.1 hfn),
      (s.image.moduleCount_addHost host).trans hs.count⟩

theorem Reached.consistent (h : Reached s n) : s.Consistent := by
  induction h with
  | start options hosts => exact (blank_start options hosts).consistent
  | addHost _ hhost ih => exact ih.addHost hhost
  | @eval s n fuel item e _ he ih =>
    rw [(ih.result?_of_evalItem he).2]
    exact ih.after item

theorem Reached.moduleCount (h : Reached s n) : s.image.moduleCount = n := by
  induction h with
  | start options hosts => exact (blank_start options hosts).count
  | @addHost s n host _ _ ih => exact (s.image.moduleCount_addHost host).trans ih
  | @eval s n fuel item e h he ih =>
    obtain ⟨hresult, hsession⟩ := h.consistent.result?_of_evalItem he
    rw [hsession, h.consistent.moduleCount_after hresult, ih]

/-! ### Errors -/

/-- A function of the open unit is declared as the registry knows it. -/
theorem Consistent.declared (hs : s.Consistent) {f : IR.Func} (hf : f ∈ s.openUnit.functions) :
    f.isDeclaration = true ∧
      ∃ proto, s.registry.find? f.name = some proto ∧ f.arity = proto.arity := by
  have hfind := hs.declares.find?_of_mem hf
  obtain ⟨proto, hproto, harity⟩ := Option.map_eq_some_iff.1
    (hs.agrees (by rw [IR.Module.arity?, hfind, Option.map_some]))
  exact ⟨hs.declares.declaration hf, proto, hproto, harity.symm⟩

/-- The ways in which an item from a text can fail. -/
inductive Fails (s : Session) (item : Item) : SessionError → Prop where
  | codegen (e : CodegenError) : Fails s item (.codegen e)
  | link (e : LinkError) : Fails s item (.link e)
  | tooDeep : Fails s item (.runtime (.stackOverflow s.options.maxDepth))
  /-- A call of an import that was left open. -/
  | deferred {proto : Prototype} {body : Expr} {unit : IR.Module} {linked : Image.Linked}
      {e : LinkError} (hitem : item = .function proto body)
      (hunit : (s.generate proto body).1 = .ok unit) (hlink : s.image.link unit = .ok linked)
      (he : linked.image.Defers e) : Fails s item (.runtime (.link e))

theorem Consistent.fails (hs : s.Consistent) {item : Item} (hitem : item.Written) {fuel : Nat}
    {err : SessionError} (h : s.result? fuel item = some (.error err)) : s.Fails item err := by
  have hstaged := s.staged item
  unfold result? at h
  generalize s.stage item = stage at hstaged h
  cases hstaged with
  | declared proto => cases h
  | invalid =>
    cases h
    exact .codegen _
  | unlinked =>
    cases h
    exact .link _
  | defined => cases h
  | @ready proto body f fn hproto hgenerated hprepare =>
    obtain ⟨hlinks, -⟩ := hs.links hgenerated hprepare
    have hcompiled := hs.compiled hgenerated
    have harity : fn.arity = ([] : List Float).length := by
      rw [hlinks.arity, hcompiled.arity, Prototype.arity, hitem.params_of_anonymous hproto]
      rfl
    have hfn : (s.image.install fn).compiled? s.image.code.size = some fn := by
      rw [Image.compiled?_install, if_pos rfl]
    obtain ⟨stop, hstop, hanswer⟩ := Option.map_eq_some_iff.1 h
    cases hresult : stop.result with
    | ok v =>
      rw [hresult] at hanswer
      cases hanswer
    | error e =>
      rw [hresult] at hanswer
      cases hanswer
      have himage := hs.image.install hcompiled.toCallable hlinks
      rcases himage.call hfn harity hstop hresult with rfl | ⟨l, rfl, hl⟩
      · exact .tooDeep
      · obtain ⟨unit, hgenerate, hunit⟩ := hs.generate_of_ok hgenerated
        exact .deferred rfl (by rw [hgenerate]) (by rw [Image.link_eq hunit, hprepare]; rfl) hl

/-- Between any two items, the open unit only declares functions, as the registry knows them; no
top-level expression is loaded, and as many modules as definitions have succeeded; and imports that
are bound lead to functions with the right number of arguments. So an item fails because no code is
generated or linked for it, because calls nest too deeply, or because of an import that was left
open. -/
theorem Reached.session_invariant (h : Reached s n) :
    (∀ f ∈ s.openUnit.functions, f.isDeclaration = true ∧
      ∃ proto, s.registry.find? f.name = some proto ∧ f.arity = proto.arity) ∧
    (∀ fn, s.image.Loaded fn → fn.name ≠ Prototype.anonymousName) ∧ s.image.moduleCount = n ∧
    (∀ (fn : LinkedFn) (index : Nat) (i : Import) (a : Address), s.image.Loaded fn →
      fn.chunk.imports[index]? = some i → fn.imports[index]? = some (some a) →
        s.image.arity? a = some i.arity) ∧
    ∀ fuel item e err, item.Written → s.evalItem fuel item = some e → e.result = .error err →
      s.Fails item err := by
  have hs := h.consistent
  refine ⟨fun f => hs.declared, fun fn => hs.named, h.moduleCount,
    fun fn index i a => hs.image.bound, ?_⟩
  intro fuel item e err hitem he herr
  have hresult := (hs.result?_of_evalItem he).1
  rw [herr] at hresult
  exact hs.fails hitem hresult

/-- A session in which `relay` calls a function that is declared but never defined. -/
def relaying : Session :=
  let s := start { optimize := false } [.ofFunction "zero" 0 fun _ => 0.0]
  let s := (s.evalForeign ⟨"zero", [], .plain⟩).evalForeign ⟨"later", ["x"], .plain⟩
  (s.evalDefinition ⟨"relay", ["x"], .plain⟩ (.call "later" [.var "x"])).session

theorem reached_relaying : Reached relaying 1 := by
  have hstart := Reached.start { optimize := false } [.ofFunction "zero" 0 fun _ => 0.0]
  have hzero := hstart.eval (rfl : evalItem 0 _ (.foreign ⟨"zero", [], .plain⟩) = some _)
  have hlater := hzero.eval (rfl : evalItem 0 _ (.foreign ⟨"later", ["x"], .plain⟩) = some _)
  convert hlater.eval (rfl : evalItem 0 _
    (.function ⟨"relay", ["x"], .plain⟩ (.call "later" [.var "x"])) = some _) using 1
  · rfl
  · decide +kernel

theorem session_invariant_relaying :
    (readProgram {} "relay(zero())").program.items.length = 1 ∧ relaying.image.moduleCount = 1 ∧
      ∀ item ∈ (readProgram {} "relay(zero())").program.items, ∃ e err,
        relaying.evalItem 50 item = some e ∧ e.result = .error err ∧ relaying.Fails item err := by
  obtain ⟨-, -, hcount, -, hfails⟩ := reached_relaying.session_invariant
  have hfailed : (readProgram {} "relay(zero())").program.items.all (fun item =>
      (relaying.evalItem 50 item).any (!·.result.isOk)) = true := by decide +kernel
  refine ⟨by decide +kernel, hcount, fun item hitem => ?_⟩
  have hfailed := List.all_eq_true.1 hfailed item hitem
  cases he : relaying.evalItem 50 item with
  | none => simp [he] at hfailed
  | some e =>
    cases herr : e.result with
    | ok v => simp [he, herr, Except.isOk, Except.toBool] at hfailed
    | error err => exact ⟨e, err, rfl, herr, hfails 50 item e err ⟨{}, _, hitem⟩ he herr⟩

end Session

end ScalarLang
