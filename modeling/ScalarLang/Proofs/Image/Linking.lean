import ScalarLang.Proofs.Machine.Safety

/-! Linking and removing modules. A module is loaded as a whole behind all code that there is; what
is removed leaves its places empty. So whatever is loaded was linked once, and runs safely. -/

namespace ScalarLang

open IR (Func Module)

namespace Image

variable {image : Image} {m : Module} {l : Linked} {f : Func} {fn : LinkedFn}

/-! ### Linked functions -/

/-- Function `f` of a module becomes `fn`. -/
structure Links (image : Image) (definitions : List Func) (f : Func) (fn : LinkedFn) : Prop where
  name : fn.name = f.name
  arity : fn.arity = f.arity
  code : lowerFunc f = .ok fn.chunk
  imports : List.Forall₂ (fun i bound => image.bindImport image.code.size definitions i = .ok bound)
    fn.chunk.imports.toList fn.imports.toList

theorem lower_of_lowerFunc {chunk : Bytecode.Chunk} (h : lowerFunc f = .ok chunk) :
    Bytecode.lower f = .ok chunk := by
  unfold lowerFunc at h
  split at h
  · cases h
  · split at h
    · next hl =>
      cases h
      exact hl
    · cases h
    · cases h

theorem linkFunc_eq_ok {definitions : List Func} {chunk : Bytecode.Chunk} :
    image.linkFunc image.code.size definitions f chunk = .ok fn ∧ lowerFunc f = .ok chunk ↔
      image.Links definitions f fn ∧ fn.chunk = chunk := by
  simp only [linkFunc, bind_eq_ok, pure_eq_ok, mapM_eq_ok]
  constructor
  · rintro ⟨⟨imports, himports, rfl⟩, hcode⟩
    exact ⟨⟨rfl, rfl, hcode, himports⟩, rfl⟩
  · rintro ⟨h, rfl⟩
    refine ⟨⟨fn.imports.toList, h.imports, ?_⟩, h.code⟩
    rw [← h.name, ← h.arity]

theorem forall₂_links {definitions fs : List Func} {chunks : List Bytecode.Chunk}
    {functions : List LinkedFn}
    (hchunks : List.Forall₂ (fun f chunk => lowerFunc f = .ok chunk) fs chunks)
    (hfunctions : List.Forall₂
      (fun x fn => image.linkFunc image.code.size definitions x.1 x.2 = .ok fn) (fs.zip chunks)
      functions) : List.Forall₂ (image.Links definitions) fs functions := by
  induction hchunks generalizing functions with
  | nil =>
    cases hfunctions
    exact .nil
  | cons hf _ ih =>
    cases hfunctions with
    | cons hfn hrest => exact .cons (linkFunc_eq_ok.1 ⟨hfn, hf⟩).1 (ih hrest)

/-- All definitions of a module are linked, in their order. -/
theorem linkAll_eq_ok {functions : List LinkedFn} (h : image.linkAll m = .ok functions) :
    List.Forall₂ (image.Links m.definitions) m.definitions functions := by
  simp only [linkAll, bind_eq_ok, mapM_eq_ok] at h
  obtain ⟨chunks, hchunks, hfunctions⟩ := h
  exact forall₂_links hchunks hfunctions

theorem Links.codeOf {definitions : List Func} (h : image.Links definitions f fn)
    (hf : f.verify = .ok ()) (hd : f.isDeclaration = false) : fn.CodeOf f where
  verified := Func.verify_eq_ok.1 hf
  layout := by simpa [Func.isDeclaration] using hd
  lower := lower_of_lowerFunc h.code
  arity := h.arity
  imports := by simpa using h.imports.length_eq.symm

/-! ### Loaded functions -/

theorem loaded_iff : image.Loaded fn ↔ some fn ∈ image.code := by
  simp only [Loaded, compiled?, Array.getD_eq_getD_getElem?, Array.mem_iff_getElem?]
  refine exists_congr fun k => ?_
  cases image.code[k]? <;> simp

/-- What is left of the image when its symbols are forgotten. -/
structure Extends (image image' : Image) (functions : List LinkedFn) : Prop where
  code : image'.code = image.code ++ (functions.map some).toArray
  hosts : image'.hosts = image.hosts

theorem extends_foldl_load (key : ModuleKey) (image : Image) (functions : List LinkedFn) :
    image.Extends (functions.foldl (load key) image) functions := by
  induction functions generalizing image with
  | nil => exact ⟨by simp, rfl⟩
  | cons fn functions ih =>
    obtain ⟨hcode, hhosts⟩ := ih (load key image fn)
    refine ⟨?_, hhosts⟩
    rw [List.foldl_cons, hcode]
    simp [load]

theorem link_eq_ok (h : image.link m = .ok l) :
    List.Forall₂ (image.Links m.definitions) m.definitions l.functions ∧
      image.Extends l.image l.functions := by
  simp only [link, bind_eq_ok, pure_eq_ok] at h
  obtain ⟨functions, hfunctions, rfl⟩ := h
  have hext := extends_foldl_load image.nextKey image functions
  exact ⟨linkAll_eq_ok hfunctions, hext.code, hext.hosts⟩

theorem loaded_link (h : image.link m = .ok l) :
    l.image.Loaded fn ↔ image.Loaded fn ∨ fn ∈ l.functions := by
  rw [loaded_iff, loaded_iff, (link_eq_ok h).2.code]
  simp

theorem loaded_addHost {host : HostFn} : (image.addHost host).Loaded fn ↔ image.Loaded fn := by
  unfold addHost
  split <;> rfl

theorem loaded_unload {key : ModuleKey} {name : String} {index : Nat}
    (h : (unload key image name index).Loaded fn) : image.Loaded fn := by
  rw [loaded_iff, Array.mem_iff_getElem?] at h ⊢
  obtain ⟨k, hk⟩ := h
  refine ⟨k, ?_⟩
  simp only [unload, Array.getElem?_setIfInBounds] at hk
  split at hk
  · split at hk <;> cases hk
  · exact hk

theorem loaded_foldl_unload {key : ModuleKey} {defined : List (String × Nat)}
    (h : (defined.foldl (fun image (name, index) => unload key image name index) image).Loaded fn) :
    image.Loaded fn := by
  induction defined generalizing image with
  | nil => exact h
  | cons d defined ih => exact loaded_unload (ih h)

theorem loaded_remove {image' : Image} {key : ModuleKey} (h : image.remove? key = some image')
    (hfn : image'.Loaded fn) : image.Loaded fn := by
  obtain ⟨defined, -, rfl⟩ := Option.map_eq_some_iff.1 h
  have hfn := loaded_foldl_unload hfn
  rw [loaded_iff] at hfn ⊢
  exact hfn

/-! ### Images of well-formed modules -/

/-- The images that host functions and modules of well-formed functions lead to. -/
inductive Built : Image → Prop where
  | empty : Built {}
  | addHost {image : Image} (h : Built image) (host : HostFn) : Built (image.addHost host)
  | link {image : Image} {m : Module} {l : Linked} (h : Built image)
      (hm : ∀ f ∈ m.definitions, f.verify = .ok ()) (hl : image.link m = .ok l) : Built l.image
  | remove {image image' : Image} {key : ModuleKey} (h : Built image)
      (hr : image.remove? key = some image') : Built image'

theorem Sound.link (hs : image.Sound) (hm : ∀ f ∈ m.definitions, f.verify = .ok ())
    (hl : image.link m = .ok l) : l.image.Sound := by
  intro fn hfn
  rcases (loaded_link hl).1 hfn with hfn | hfn
  · exact hs fn hfn
  · obtain ⟨f, hf, hlinks⟩ := exists_of_forall₂ (link_eq_ok hl).1 hfn
    have hd : f.isDeclaration = false := by simpa using (List.mem_filter.1 hf).2
    exact ⟨f, hlinks.codeOf (hm f hf) hd⟩

theorem Built.sound (h : image.Built) : image.Sound := by
  induction h with
  | empty =>
    intro fn hfn
    rw [loaded_iff] at hfn
    simp at hfn
  | addHost _ host ih => exact fun fn hfn => ih fn (loaded_addHost.1 hfn)
  | link _ hm hl ih => exact ih.link hm hl
  | remove _ hr ih => exact fun fn hfn => ih fn (loaded_remove hr hfn)

theorem Sound.call_ne_invalid (hs : image.Sound) {maxDepth fuel : Nat} {address : Address}
    {args : List Float} {stop : Stop} (h : image.call maxDepth fuel address args = some stop)
    (name : String) (offset : Nat) : stop.result ≠ .error (.invalidInstruction name offset) := by
  cases address with
  | host k =>
    simp only [Image.call] at h
    split at h
    · cases h
      simp
    · split at h <;> cases h <;> simp
  | compiled k =>
    cases hfn : image.compiled? k with
    | none =>
      simp only [Image.call, hfn] at h
      cases h
      simp
    | some fn =>
      by_cases hargs : fn.arity = args.length
      · obtain ⟨fn', -, hhalts⟩ := hs.call hfn hargs h
        exact hhalts.ne_invalid name offset
      · simp only [Image.call, hfn, hargs, if_false] at h
        cases h
        simp

/-- However well-formed modules were linked and removed, no run ever comes to an instruction that
makes no sense, and every machine on the way stays within its code and its registers. -/
theorem Built.call_inBounds (h : image.Built) (maxDepth : Nat) (address : Address)
    (args : List Float) :
    (∀ fuel stop, image.call maxDepth fuel address args = some stop →
      ∀ name offset, stop.result ≠ .error (.invalidInstruction name offset)) ∧
    ∀ index fn, address = .compiled index → image.compiled? index = some fn →
      fn.arity = args.length → ∀ m, (Machine.start fn args).Leads image maxDepth m → m.InBounds := by
  refine ⟨fun fuel stop hstop => h.sound.call_ne_invalid hstop, ?_⟩
  intro index fn _ hfn hargs m hm
  exact ((Machine.safe_start h.sound ⟨index, hfn⟩ hargs.symm).leads h.sound hm).inBounds

theorem call_inBounds_alternate :
    ∃ l fn, (addHost {} (.ofFunction "more" 2 fun _ => 0.0)).link ⟨"unit", [Bytecode.alternate]⟩ =
        .ok l ∧ l.image.compiled? 0 = some fn ∧
      ∀ maxDepth x,
        (∀ fuel stop, l.image.call maxDepth fuel (.compiled 0) [x] = some stop →
          ∀ name offset, stop.result ≠ .error (.invalidInstruction name offset)) ∧
        ∀ m, (Machine.start fn [x]).Leads l.image maxDepth m → m.InBounds := by
  let image := addHost {} (.ofFunction "more" 2 fun _ => 0.0)
  let unit : Module := ⟨"unit", [Bytecode.alternate]⟩
  have hunit : ∀ f ∈ unit.definitions, f.verify = .ok () := by
    intro f hf
    cases List.mem_singleton.1 (show f ∈ [Bytecode.alternate] from hf)
    rfl
  have harity : (image.link unit).map (fun l => (l.image.compiled? 0).map (·.arity)) =
      .ok (some 1) := by decide +kernel
  cases h : image.link unit with
  | error e =>
    rw [h] at harity
    cases harity
  | ok l =>
    rw [h] at harity
    obtain ⟨fn, hfn, harity⟩ := Option.map_eq_some_iff.1 (Except.ok.inj harity)
    have hbuilt : l.image.Built := .link (.addHost .empty _) hunit h
    refine ⟨l, fn, rfl, hfn, fun maxDepth x => ?_⟩
    obtain ⟨hvalid, hbounds⟩ := hbuilt.call_inBounds maxDepth (.compiled 0) [x]
    exact ⟨hvalid, hbounds 0 fn rfl hfn harity⟩

end Image

end ScalarLang
