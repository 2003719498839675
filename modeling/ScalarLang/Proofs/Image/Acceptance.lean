import ScalarLang.Proofs.Image.Inventory

/-! Which modules are linked. The first call of every name in a function decides: it has to pass as
many arguments as the function takes that the name stands for. Later calls of the name share its
import, so they are right if they pass as many as the first. -/

namespace ScalarLang

open Bytecode (Import exists_firstCall firstCall? mem_importsOf)
open IR (Func Module)

namespace Image

variable {image : Image} {m : Module} {l : Linked} {f : Func} {name : String} {n : Nat}

/-- When the module is linked, the name stands for a function that takes `n` arguments: that of the
module itself, else one that is loaded, else one of the host. -/
inductive Resolves (image : Image) (m : Module) (name : String) : Nat → Prop where
  | own {f : Func} (hf : m.definitions.find? (·.name = name) = some f) :
      Resolves image m name f.arity
  | loaded {a : Address} {n : Nat} (hnone : m.definitions.find? (·.name = name) = none)
      (hfind : image.find? name = some a) (harity : image.arity? a = some n) :
      Resolves image m name n

theorem map_find?_zipIdx (definitions : List Func) (name : String) :
    (definitions.zipIdx.find? (·.1.name = name)).map (·.1) =
      definitions.find? (·.name = name) := by
  have h := List.find?_map (f := Prod.fst) (l := definitions.zipIdx)
    (p := fun f : Func => decide (f.name = name))
  rw [List.zipIdx_map_fst] at h
  exact h.symm

theorem resolves_iff (base : Nat) :
    image.Resolves m name n ↔ ∃ a, image.resolve? base m.definitions name = some (a, n) := by
  have hmap := map_find?_zipIdx m.definitions name
  unfold resolve?
  split
  · next f k hfind =>
    rw [hfind, Option.map_some] at hmap
    constructor
    · intro h
      cases h with
      | own hf =>
        cases hmap.trans hf
        exact ⟨_, rfl⟩
      | loaded hnone => cases hmap.trans hnone
    · rintro ⟨a, ha⟩
      cases ha
      exact .own hmap.symm
  · next hfind =>
    rw [hfind, Option.map_none] at hmap
    constructor
    · intro h
      cases h with
      | own hf => cases hmap.trans hf
      | @loaded a _ hnone hfind harity => exact ⟨a, by simp [hfind, harity]⟩
    · rintro ⟨a, ha⟩
      obtain ⟨a', hfind, ha⟩ := Option.bind_eq_some_iff.1 ha
      obtain ⟨n', harity, ha⟩ := Option.bind_eq_some_iff.1 ha
      cases ha
      exact .loaded hmap.symm hfind harity

/-- Why a module is not linked. -/
inductive Objection (image : Image) (m : Module) : LinkError → Prop where
  | tooLarge {f : Func} (hf : f ∈ m.definitions)
      (hcode : lowerFunc f = .error (.tooLarge f.name)) : Objection image m (.tooLarge f.name)
  | arityMismatch {f : Func} {name : String} {expected found : Nat} (hf : f ∈ m.definitions)
      (hcall : firstCall? f name = some found) (hname : image.Resolves m name expected)
      (hne : expected ≠ found) : Objection image m (.arityMismatch name expected found)

theorem imports_of_lowerFunc {chunk : Bytecode.Chunk} (hf : f.Verified)
    (h : lowerFunc f = .ok chunk) : chunk.imports.toList = Bytecode.importsOf f := by
  obtain ⟨blocks, hlowers⟩ := Bytecode.lowers_of_eq_ok hf (lower_of_lowerFunc h)
  rw [hlowers.imports]

theorem objection_of_bindImport {i : Import} {e : LinkError} (hf : f ∈ m.definitions)
    (hi : i ∈ Bytecode.importsOf f)
    (h : image.bindImport image.code.size m.definitions i = .error e) : image.Objection m e := by
  unfold bindImport at h
  split at h
  · cases h
  · next a n hresolve =>
    split at h
    · cases h
    · next hne =>
      cases h
      exact .arityMismatch hf (mem_importsOf.1 hi) ((resolves_iff _).2 ⟨a, hresolve⟩) hne

theorem objection_of_linkAll {e : LinkError} (hm : ∀ f ∈ m.definitions, f.Verified)
    (h : image.linkAll m = .error e) : image.Objection m e := by
  rcases bind_eq_error.1 h with h | ⟨chunks, hchunks, h⟩
  · obtain ⟨f, hf, hcode⟩ := mapM_eq_error h
    cases lowerFunc_eq_error (hm f hf) hcode
    exact .tooLarge hf hcode
  · obtain ⟨⟨f, chunk⟩, hmem, h⟩ := mapM_eq_error h
    have hf := (List.of_mem_zip hmem).1
    have hcode := (List.forall₂_iff_zip.1 (mapM_eq_ok.1 hchunks)).2 hmem
    rcases bind_eq_error.1 h with h | ⟨imports, -, h⟩
    · obtain ⟨i, hi, h⟩ := mapM_eq_error h
      rw [imports_of_lowerFunc (hm f hf) hcode] at hi
      exact objection_of_bindImport hf hi h
    · cases h

/-- The first call of a name passes as many arguments as the function takes that it stands for. -/
theorem firstCall?_of_link (hm : ∀ f ∈ m.definitions, f.Verified) (hl : image.link m = .ok l)
    (hf : f ∈ m.definitions) {found : Nat} (hcall : firstCall? f name = some found)
    (hname : image.Resolves m name n) : found = n := by
  obtain ⟨fn, -, hlinks⟩ := exists_of_forall₂ (link_eq_ok hl).1.flip hf
  have hi : ⟨name, found⟩ ∈ fn.chunk.imports.toList := by
    rw [imports_of_lowerFunc (hm f hf) hlinks.code]
    exact mem_importsOf.2 hcall
  obtain ⟨bound, -, hbind⟩ := exists_of_forall₂ hlinks.imports.flip hi
  obtain ⟨a, ha⟩ := (resolves_iff image.code.size).1 hname
  obtain ⟨a', -, he⟩ := Option.map_eq_some_iff.1 ((resolve?_of_bindImport hbind).symm.trans ha)
  exact (Prod.mk.inj he).2

/-- Linking looks at the first call of every name. If a module is linked, a call of a name that
stands for a function is right just if it passes as many arguments as the first call of that name in
its function; if not, there is a reason, and the image stays as it is. -/
theorem link_checks_first_calls (image : Image) (m : Module)
    (hm : ∀ f ∈ m.definitions, f.verify = .ok ()) :
    (∃ l, image.link m = .ok l ∧ ∀ f ∈ m.definitions, ∀ i ∈ f.live, ∀ name args n,
      f.op i = .call name args → image.Resolves m name n →
        firstCall? f name = some n ∧ (args.length = n ↔ firstCall? f name = some args.length)) ∨
    ∃ e, image.link m = .error e ∧ image.Objection m e ∧
      image.serve (.link m) = (.refused e, image) := by
  have hverified : ∀ f ∈ m.definitions, f.Verified := fun f hf => Func.verify_eq_ok.1 (hm f hf)
  cases hl : image.link m with
  | ok l =>
    refine .inl ⟨l, rfl, fun f hf i hi name args n ho hname => ?_⟩
    obtain ⟨found, hcall⟩ := exists_firstCall hi ho
    have hfound := firstCall?_of_link hverified hl hf hcall hname
    subst hfound
    refine ⟨hcall, ?_⟩
    rw [hcall, Option.some.injEq]
    exact eq_comm
  | error e =>
    have hall : image.linkAll m = .error e := by
      rcases bind_eq_error.1 hl with h | ⟨functions, -, h⟩
      · exact h
      · cases h
    exact .inr ⟨e, rfl, objection_of_linkAll hverified hall, serve_of_error hl⟩

/-- A function that passes one argument to another function, and then two. -/
def wavering : Func where
  name := "f"
  params := []
  insts := #[⟨.call "g" [.const 1.0], "a"⟩, ⟨.call "g" [.const 1.0, .const 2.0], "b"⟩]
  blocks := #[⟨"entry", [0, 1], some (.ret (.inst 1))⟩]
  layout := [0]

/-- An image with a function of the host that takes one argument. -/
def unary : Image := addHost {} (.ofFunction "g" 1 List.sum)

theorem verify_wavering : ∀ f ∈ (⟨"unit", [wavering]⟩ : Module).definitions, f.verify = .ok () := by
  intro f hf
  obtain rfl : f = wavering := List.mem_singleton.1 hf
  rfl

theorem isOk_link_unary : (unary.link ⟨"unit", [wavering]⟩).isOk = true := by decide +kernel

theorem resolves_unary : unary.Resolves ⟨"unit", [wavering]⟩ "g" 1 :=
  .loaded (a := .host 0) (by decide +kernel) (by decide +kernel) (by decide +kernel)

/-- A call that is not the first one of its name is linked though it passes too many arguments. -/
theorem link_wavering :
    (∀ f ∈ (⟨"unit", [wavering]⟩ : Module).definitions, f.verify = .ok ()) ∧
    (∃ l, unary.link ⟨"unit", [wavering]⟩ = .ok l) ∧
    wavering ∈ (⟨"unit", [wavering]⟩ : Module).definitions ∧ 1 ∈ wavering.live ∧
    ∃ args, wavering.op 1 = .call "g" args ∧ unary.Resolves ⟨"unit", [wavering]⟩ "g" 1 ∧
      args.length ≠ 1 := by
  refine ⟨verify_wavering, ?_, List.mem_singleton_self wavering, by decide, _, rfl, resolves_unary,
    by decide⟩
  have hok := isOk_link_unary
  cases h : unary.link ⟨"unit", [wavering]⟩ with
  | ok l => exact ⟨l, rfl⟩
  | error e => simp [h, Except.isOk, Except.toBool] at hok

theorem link_checks_first_calls_wavering :
    (∀ f ∈ (⟨"unit", [wavering]⟩ : Module).definitions, f.verify = .ok ()) ∧
    ∃ l, unary.link ⟨"unit", [wavering]⟩ = .ok l ∧ firstCall? wavering "g" = some 1 := by
  have hok := isOk_link_unary
  refine ⟨verify_wavering, ?_⟩
  rcases link_checks_first_calls unary ⟨"unit", [wavering]⟩ verify_wavering with
    ⟨l, hl, hcalls⟩ | ⟨e, he, -⟩
  · have hfirst := hcalls wavering (List.mem_singleton_self wavering) 0 (by decide) "g" _ 1 rfl
      resolves_unary
    exact ⟨l, hl, hfirst.1⟩
  · simp [he, Except.isOk, Except.toBool] at hok

end Image

end ScalarLang
