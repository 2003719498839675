import ScalarLang.Proofs.Bytecode.Completeness
import ScalarLang.Proofs.IR.Header
import ScalarLang.Proofs.Image.Conduct
import ScalarLang.Proofs.Image.Linking

/-! Loading one function. A function that is loaded hides the older ones of its name; when it is
removed again, what is loaded and what names stand for is as before. All along, imports that are
bound lead to loaded functions with the right number of arguments. -/

namespace ScalarLang

open Bytecode (Import)
open IR (Func Module)

/-! ### Tables -/

namespace Table

variable {κ α : Type} [DecidableEq κ] {t : Table κ α} {k : κ}

theorem size_insert (h : t.find? k = none) (a : α) : (t.insert k a).size = t.size + 1 := by
  rw [size, insert_of_find?_none h, List.length_cons, size]

theorem erase_insert (h : t.find? k = none) (a : α) : (t.insert k a).erase k = t := by
  have hrestore := t.restore_insert k a
  rwa [h] at hrestore

end Table

namespace Image

variable {image image' : Image} {f : Func} {fn : LinkedFn}

/-! ### One function -/

/-- The definitions of a name, the oldest first. -/
def entries (image : Image) (name : String) : List (ModuleKey × Nat) :=
  (image.symbols.find? name).getD []

theorem find?_eq (image : Image) (name : String) : image.find? name =
    match (image.entries name).getLast? with
    | some (_, index) => some (.compiled index)
    | none => (image.hosts.findIdx? (·.name = name)).map .host := by
  unfold find? entries
  cases image.symbols.find? name <;> rfl

/-- A function with its imports bound, ready to be loaded. -/
def prepare (image : Image) (f : Func) : Except LinkError LinkedFn := do
  let chunk ← lowerFunc f
  image.linkFunc image.code.size [f] f chunk

/-- The image with one more function, as a module of its own. -/
def install (image : Image) (fn : LinkedFn) : Image :=
  { load image.nextKey image fn with
    modules := image.modules.insert image.nextKey [(fn.name, image.code.size)]
    nextKey := image.nextKey + 1 }

theorem link_eq {m : Module} (hm : m.definitions = [f]) :
    image.link m = (image.prepare f).map fun fn => ⟨image.nextKey, [fn], image.install fn⟩ := by
  unfold link linkAll prepare
  rw [hm]
  simp only [List.mapM_cons, List.mapM_nil, bind, Except.bind, pure, Except.pure]
  cases lowerFunc f with
  | error e => rfl
  | ok chunk =>
    simp only [List.zip_cons_cons, List.zip_nil_right, List.mapM_cons, List.mapM_nil, bind,
      Except.bind, pure, Except.pure]
    cases image.linkFunc image.code.size [f] f chunk <;> rfl

theorem prepare_eq_ok : image.prepare f = .ok fn ↔ image.Links [f] f fn := by
  rw [prepare, bind_eq_ok]
  constructor
  · rintro ⟨chunk, hcode, hlink⟩
    exact (linkFunc_eq_ok.1 ⟨hlink, hcode⟩).1
  · intro h
    exact ⟨fn.chunk, h.code, (linkFunc_eq_ok.2 ⟨h, rfl⟩).1⟩

/-- Why a function that is well put together cannot be loaded. -/
inductive Refusal : LinkError → Prop where
  | tooLarge (name : String) : Refusal (.tooLarge name)
  | arityMismatch (name : String) (expected found : Nat) :
      Refusal (.arityMismatch name expected found)

theorem lowerFunc_eq_error (hf : f.Verified) {e : LinkError} (h : lowerFunc f = .error e) :
    e = .tooLarge f.name := by
  unfold lowerFunc at h
  split at h
  · cases h
    rfl
  · split at h
    · cases h
    · cases h
      rfl
    · next hlower => cases Bytecode.lower_eq_tooLarge hf hlower

theorem bindImport_refusal {base : Nat} {definitions : List Func} {i : Import} {e : LinkError}
    (h : image.bindImport base definitions i = .error e) : Refusal e := by
  unfold bindImport at h
  split at h
  · cases h
  · split at h
    · cases h
    · cases h
      exact .arityMismatch ..

theorem prepare_refusal (hf : f.Verified) {e : LinkError} (h : image.prepare f = .error e) :
    Refusal e := by
  rcases bind_eq_error.1 h with h | ⟨chunk, -, h⟩
  · rw [lowerFunc_eq_error hf h]
    exact .tooLarge _
  · rcases bind_eq_error.1 h with h | ⟨imports, -, h⟩
    · obtain ⟨i, -, h⟩ := mapM_eq_error h
      exact bindImport_refusal h
    · cases h

theorem compiled?_install (image : Image) (fn : LinkedFn) (k : Nat) :
    (image.install fn).compiled? k =
      if k = image.code.size then some fn else image.compiled? k := by
  simp only [install, load, compiled?, Array.getD_eq_getD_getElem?, Array.getElem?_push]
  split <;> rfl

theorem lt_of_compiled? {k : Nat} (h : image.compiled? k = some fn) : k < image.code.size := by
  by_contra hk
  simp [compiled?, Array.getD_eq_getD_getElem?, Array.getElem?_eq_none (Nat.not_lt.1 hk)] at h

/-- What is loaded stays where it is. -/
theorem compiled?_install_of_some {k : Nat} (h : image.compiled? k = some fn) (fn' : LinkedFn) :
    (image.install fn').compiled? k = some fn := by
  rw [compiled?_install, if_neg (Nat.ne_of_lt (lt_of_compiled? h)), h]

theorem arity?_install {a : Address} {n : Nat} (h : image.arity? a = some n) (fn : LinkedFn) :
    (image.install fn).arity? a = some n := by
  cases a with
  | host k => exact h
  | compiled k =>
    obtain ⟨fn', hfn', rfl⟩ := Option.map_eq_some_iff.1 h
    rw [arity?, compiled?_install_of_some hfn', Option.map_some]

theorem loaded_install {fn' : LinkedFn} (h : (image.install fn).Loaded fn') :
    fn' = fn ∨ image.Loaded fn' := by
  obtain ⟨k, hk⟩ := h
  rw [compiled?_install] at hk
  split at hk
  · exact .inl (Option.some.inj hk).symm
  · exact .inr ⟨k, hk⟩

theorem entries_load (key : ModuleKey) (image : Image) (fn : LinkedFn) (name : String) :
    (load key image fn).entries name =
      if name = fn.name then image.entries name ++ [(key, image.code.size)]
      else image.entries name := by
  unfold entries load
  rw [Table.find?_insert]
  split
  · next h => rw [h, Option.getD_some]
  · rfl

theorem entries_install (image : Image) (fn : LinkedFn) (name : String) :
    (image.install fn).entries name =
      if name = fn.name then image.entries name ++ [(image.nextKey, image.code.size)]
      else image.entries name :=
  entries_load image.nextKey image fn name

/-- The newest function of a name is the one that counts. -/
theorem find?_install (image : Image) (fn : LinkedFn) (name : String) :
    (image.install fn).find? name =
      if name = fn.name then some (.compiled image.code.size) else image.find? name := by
  rw [find?_eq, entries_install]
  by_cases hname : name = fn.name
  · simp only [if_pos hname, List.getLast?_concat]
  · simp only [if_neg hname, find?_eq image]
    rfl

/-! ### Keys -/

/-- The keys of what is loaded are used up, and names stand for what is loaded. -/
structure Tidy (image : Image) : Prop where
  entry {name : String} {key : ModuleKey} {index : Nat} : (key, index) ∈ image.entries name →
    key < image.nextKey ∧ ∃ fn, image.compiled? index = some fn ∧ fn.name = name
  fresh {key : ModuleKey} : image.nextKey ≤ key → image.modules.find? key = none

theorem tidy_empty : Tidy {} := ⟨nofun, fun _ => rfl⟩

theorem Tidy.install (h : image.Tidy) (fn : LinkedFn) : (image.install fn).Tidy where
  entry {name key index} hmem := by
    rw [entries_install] at hmem
    split at hmem
    · next hname =>
      rcases List.mem_append.1 hmem with hmem | hmem
      · obtain ⟨hkey, fn', hfn', hn⟩ := h.entry hmem
        exact ⟨Nat.lt_succ_of_lt hkey, fn', compiled?_install_of_some hfn' fn, hn⟩
      · cases List.mem_singleton.1 hmem
        refine ⟨Nat.lt_succ_self _, fn, ?_, hname.symm⟩
        rw [compiled?_install, if_pos rfl]
    · obtain ⟨hkey, fn', hfn', hn⟩ := h.entry hmem
      exact ⟨Nat.lt_succ_of_lt hkey, fn', compiled?_install_of_some hfn' fn, hn⟩
  fresh {key} hkey := by
    have hlt : image.nextKey < key := hkey
    change (image.modules.insert _ _).find? key = none
    rw [Table.find?_insert, if_neg (Nat.ne_of_gt hlt)]
    exact h.fresh (Nat.le_of_lt hlt)

theorem Tidy.moduleCount_install (h : image.Tidy) (fn : LinkedFn) :
    (image.install fn).moduleCount = image.moduleCount + 1 :=
  Table.size_insert (h.fresh (Nat.le_refl _)) _

/-- A name of compiled code stands for a loaded function of that name. -/
theorem Tidy.compiled?_of_find? (h : image.Tidy) {name : String} {k : Nat}
    (hfind : image.find? name = some (.compiled k)) :
    ∃ fn, image.compiled? k = some fn ∧ fn.name = name := by
  rw [find?_eq] at hfind
  split at hfind
  · next key index hlast =>
    cases hfind
    exact (h.entry (List.mem_of_getLast? hlast)).2
  · simp at hfind

/-- A name of the host stands for its function of that name. -/
theorem host?_of_find? {name : String} {k : Nat} (hfind : image.find? name = some (.host k)) :
    ∃ host, image.host? k = some host ∧ host.name = name := by
  rw [find?_eq] at hfind
  split at hfind
  · cases hfind
  · obtain ⟨index, hindex, he⟩ := Option.map_eq_some_iff.1 hfind
    cases he
    obtain ⟨hlt, hname, -⟩ := Array.findIdx?_eq_some_iff_getElem.1 hindex
    exact ⟨image.hosts[k], Array.getElem?_eq_getElem hlt, of_decide_eq_true hname⟩

/-- A name stands for a function that is there. -/
theorem Tidy.arity?_of_find? (h : image.Tidy) {name : String} {a : Address}
    (hfind : image.find? name = some a) : ∃ n, image.arity? a = some n := by
  cases a with
  | compiled k =>
    obtain ⟨fn, hfn, -⟩ := h.compiled?_of_find? hfind
    exact ⟨fn.arity, by rw [arity?, hfn, Option.map_some]⟩
  | host k =>
    obtain ⟨host, hhost, -⟩ := host?_of_find? hfind
    exact ⟨host.arity, by rw [arity?, hhost, Option.map_some]⟩

/-! ### Removal -/

/-- The images have the same functions, and names stand for the same ones. -/
structure Same (image image' : Image) : Prop where
  compiled (k : Nat) : image'.compiled? k = image.compiled? k
  hosts : image'.hosts = image.hosts
  find (name : String) : image'.find? name = image.find? name

theorem Same.arity? (h : image.Same image') (a : Address) : image'.arity? a = image.arity? a := by
  cases a with
  | compiled k => simp only [Image.arity?, h.compiled]
  | host k => simp only [Image.arity?, host?, h.hosts]

theorem Same.loaded (h : image.Same image') : image'.Loaded fn ↔ image.Loaded fn :=
  exists_congr fun k => by rw [h.compiled]

/-- The image after a function is installed and removed again. -/
def uninstalled (image : Image) (fn : LinkedFn) : Image :=
  unload image.nextKey { image.install fn with modules := (image.install fn).modules.erase image.nextKey }
    fn.name image.code.size

theorem remove_install (image : Image) (fn : LinkedFn) :
    (image.install fn).remove? image.nextKey = some (image.uninstalled fn) := by
  have hfind : (image.install fn).modules.find? image.nextKey =
      some [(fn.name, image.code.size)] := by
    change (image.modules.insert _ _).find? _ = _
    rw [Table.find?_insert, if_pos rfl]
  rw [remove?, hfind]
  rfl

theorem compiled?_unload (key : ModuleKey) (image : Image) (name : String) (index k : Nat) :
    (unload key image name index).compiled? k = if k = index then none else image.compiled? k := by
  simp only [unload, compiled?, Array.getD_eq_getD_getElem?, Array.getElem?_setIfInBounds]
  by_cases hk : index = k
  · rw [if_pos hk, if_pos hk.symm]
    split <;> rfl
  · rw [if_neg hk, if_neg (Ne.symm hk)]

theorem entries_unload (key : ModuleKey) (image : Image) (name : String) (index : Nat)
    (x : String) : (unload key image name index).entries x =
      if x = name then (image.entries x).filter (·.1 ≠ key) else image.entries x := by
  unfold entries unload
  by_cases hx : x = name
  · subst hx
    simp only [if_true]
    split
    · next hnil => rw [Table.find?_erase, if_pos rfl, List.isEmpty_iff.1 hnil, Option.getD_none]
    · rw [Table.find?_insert, if_pos rfl, Option.getD_some]
  · rw [if_neg hx]
    dsimp only
    split
    · rw [Table.find?_erase, if_neg hx]
    · rw [Table.find?_insert, if_neg hx]

theorem Tidy.entries_uninstalled (h : image.Tidy) (fn : LinkedFn) (name : String) :
    (image.uninstalled fn).entries name = image.entries name := by
  have hkeep : (image.entries name).filter (·.1 ≠ image.nextKey) = image.entries name :=
    List.filter_eq_self.2 fun p hp => by simpa using Nat.ne_of_lt (h.entry hp).1
  rw [uninstalled, entries_unload]
  change (if name = fn.name then ((image.install fn).entries name).filter _
    else (image.install fn).entries name) = _
  rw [entries_install]
  split
  · rw [List.filter_append, hkeep]
    simp
  · rfl

/-- What was removed leaves no trace. -/
theorem Tidy.same_uninstalled (h : image.Tidy) (fn : LinkedFn) :
    image.Same (image.uninstalled fn) where
  compiled k := by
    rw [Image.uninstalled, compiled?_unload]
    change (if k = image.code.size then none else (image.install fn).compiled? k) = _
    rw [compiled?_install]
    split
    · next hk =>
      by_contra hsome
      obtain ⟨fn', hfn'⟩ := Option.ne_none_iff_exists'.1 (Ne.symm hsome)
      exact Nat.ne_of_lt (lt_of_compiled? hfn') hk
    · rfl
  hosts := rfl
  find name := by
    rw [find?_eq, find?_eq, h.entries_uninstalled]
    rfl

theorem Tidy.uninstalled (h : image.Tidy) (fn : LinkedFn) : (image.uninstalled fn).Tidy where
  entry {name key index} hmem := by
    rw [h.entries_uninstalled] at hmem
    obtain ⟨hkey, fn', hfn', hname⟩ := h.entry hmem
    exact ⟨Nat.lt_succ_of_lt hkey, fn', by rw [(h.same_uninstalled fn).compiled, hfn'], hname⟩
  fresh {key} hkey := by
    have hlt : image.nextKey < key := hkey
    change ((image.modules.insert _ _).erase _).find? key = none
    rw [Table.erase_insert (h.fresh (Nat.le_refl _))]
    exact h.fresh (Nat.le_of_lt hlt)

theorem Tidy.moduleCount_uninstalled (h : image.Tidy) (fn : LinkedFn) :
    (image.uninstalled fn).moduleCount = image.moduleCount := by
  change ((image.modules.insert _ _).erase _).size = _
  rw [Table.erase_insert (h.fresh (Nat.le_refl _))]
  rfl

/-! ### Imports -/

/-- The address that a function binds a name to when it is linked. -/
def binding (image : Image) (f : Func) (name : String) : Option Address :=
  (image.resolve? image.code.size [f] name).map (·.1)

theorem resolve?_self (image : Image) (f : Func) :
    image.resolve? image.code.size [f] f.name = some (.compiled image.code.size, f.arity) := by
  simp [resolve?]

/-- A name of the module itself. -/
theorem resolve?_of_mem (image : Image) (base : Nat) {definitions : List Func} {name : String}
    (h : ∃ f ∈ definitions, f.name = name) : ∃ k f, definitions[k]? = some f ∧ f.name = name ∧
      image.resolve? base definitions name = some (.compiled (base + k), f.arity) := by
  obtain ⟨f, hf, hname⟩ := h
  obtain ⟨k, hk⟩ := List.mem_iff_getElem?.1 hf
  have hsome : (definitions.zipIdx.find? (·.1.name = name)).isSome :=
    List.find?_isSome.2 ⟨(f, k), List.mem_zipIdx_iff_getElem?.2 hk, decide_eq_true hname⟩
  obtain ⟨⟨g, j⟩, hfind⟩ := Option.isSome_iff_exists.1 hsome
  have hfound := List.find?_some hfind
  refine ⟨j, g, List.mem_zipIdx_iff_getElem?.1 (List.mem_of_find?_eq_some hfind),
    of_decide_eq_true hfound, ?_⟩
  simp only [resolve?, hfind]

/-- A name that the module does not define. -/
theorem resolve?_of_forall_ne {base : Nat} {definitions : List Func} {name : String}
    (h : ∀ f ∈ definitions, f.name ≠ name) : image.resolve? base definitions name =
      (image.find? name).bind fun a => (image.arity? a).map fun n => (a, n) := by
  have hnone : definitions.zipIdx.find? (·.1.name = name) = none := by
    refine List.find?_eq_none.2 fun x hx hname => ?_
    exact h x.1 (List.fst_mem_of_mem_zipIdx hx) (of_decide_eq_true hname)
  simp only [resolve?, hnone, Option.bind_eq_bind, Option.pure_def]
  congr 1
  funext a
  cases image.arity? a <;> rfl

theorem resolve?_of_ne {name : String} (h : name ≠ f.name) :
    image.resolve? image.code.size [f] name =
      (image.find? name).bind fun a => (image.arity? a).map fun n => (a, n) :=
  resolve?_of_forall_ne (by simpa using Ne.symm h)

/-- An import is bound to what its name stands for, which takes as many arguments. -/
theorem resolve?_of_bindImport {base : Nat} {definitions : List Func} {i : Import}
    {bound : Option Address} (h : image.bindImport base definitions i = .ok bound) :
    image.resolve? base definitions i.name = bound.map fun a => (a, i.arity) := by
  unfold bindImport at h
  split at h
  · next hnone =>
    cases h
    exact hnone
  · next a n hsome =>
    split at h
    · next hn =>
      cases h
      rw [hsome, hn, Option.map_some]
    · cases h

theorem binding_of_bindImport {i : Import} {bound : Option Address}
    (h : image.bindImport image.code.size [f] i = .ok bound) : image.binding f i.name = bound := by
  rw [binding, resolve?_of_bindImport h, Option.map_map]
  exact Option.map_id'

theorem Links.bindImport {definitions : List Func} (h : image.Links definitions f fn) {index : Nat}
    {i : Import} (hi : fn.chunk.imports[index]? = some i) :
    ∃ bound, fn.imports[index]? = some bound ∧
      image.bindImport image.code.size definitions i = .ok bound := by
  rw [← Array.getElem?_toList] at hi
  obtain ⟨hlt, rfl⟩ := List.getElem?_eq_some_iff.1 hi
  have hlt' : index < fn.imports.toList.length := h.imports.length_eq ▸ hlt
  refine ⟨fn.imports.toList[index], ?_, (List.forall₂_iff_get.1 h.imports).2 index hlt hlt'⟩
  rw [← Array.getElem?_toList, List.getElem?_eq_getElem hlt']

theorem Links.implements (h : image.Links [f] f fn) (hf : f.Callable) :
    fn.Implements f (image.binding f) where
  toCodeOf := h.codeOf hf.wellFormed.verified hf.isDeclaration
  uniform := hf.uniformCalls
  bound {index i} hi := by
    obtain ⟨bound, hbound, hbind⟩ := h.bindImport hi
    rw [hbound, binding_of_bindImport hbind]

/-- Names stand for loaded functions, loaded functions are the code of well-formed functions, and
imports that are bound lead to loaded functions that take as many arguments as they are given. -/
structure Consistent (image : Image) : Prop extends image.Tidy where
  implemented : image.Implemented
  bound {fn : LinkedFn} {index : Nat} {i : Import} {a : Address} : image.Loaded fn →
    fn.chunk.imports[index]? = some i → fn.imports[index]? = some (some a) →
      image.arity? a = some i.arity

/-- Without code nothing can be wrong with it. -/
theorem Tidy.consistent (h : image.Tidy) (hnone : ∀ fn, ¬image.Loaded fn) : image.Consistent :=
  ⟨h, fun fn hfn => absurd hfn (hnone fn), fun {fn} _ _ _ hfn => absurd hfn (hnone fn)⟩

theorem Consistent.install (h : image.Consistent) (hf : f.Callable)
    (hl : image.Links [f] f fn) : (image.install fn).Consistent where
  toTidy := h.toTidy.install fn
  implemented fn' hfn' := by
    rcases loaded_install hfn' with rfl | hfn'
    · exact ⟨f, _, hl.implements hf⟩
    · exact h.implemented fn' hfn'
  bound {fn' index i a} hfn' hi ha := by
    rcases loaded_install hfn' with rfl | hfn'
    · obtain ⟨bound, hbound, hbind⟩ := hl.bindImport hi
      cases hbound.symm.trans ha
      have hresolve := resolve?_of_bindImport hbind
      by_cases hname : i.name = f.name
      · -- the function calls itself
        rw [hname, resolve?_self] at hresolve
        obtain ⟨rfl, hn⟩ := Prod.mk.inj (Option.some.inj hresolve)
        rw [arity?, compiled?_install, if_pos rfl, Option.map_some, hl.arity, hn]
      · rw [resolve?_of_ne hname] at hresolve
        obtain ⟨a', -, hmap⟩ := Option.bind_eq_some_iff.1 hresolve
        obtain ⟨n, harity, hpair⟩ := Option.map_eq_some_iff.1 hmap
        obtain ⟨rfl, rfl⟩ := Prod.mk.inj hpair
        exact arity?_install harity fn'
    · exact arity?_install (h.bound hfn' hi ha) fn

theorem Consistent.uninstalled (h : image.Consistent) (fn : LinkedFn) :
    (image.uninstalled fn).Consistent := by
  have hsame := h.toTidy.same_uninstalled fn
  refine ⟨h.toTidy.uninstalled fn, fun fn' hfn' => h.implemented fn' (hsame.loaded.1 hfn'), ?_⟩
  intro fn' index i a hfn' hi ha
  rw [hsame.arity?]
  exact h.bound (hsame.loaded.1 hfn') hi ha

/-! ### Functions of the host -/

theorem arity?_addHost {host : HostFn}
    (hhost : ∀ old ∈ image.hosts, old.name = host.name → old.arity = host.arity) {a : Address}
    {n : Nat} (h : image.arity? a = some n) : (image.addHost host).arity? a = some n := by
  cases a with
  | compiled k =>
    unfold addHost
    split <;> exact h
  | host k =>
    obtain ⟨old, hold, rfl⟩ := Option.map_eq_some_iff.1 h
    unfold addHost
    split
    · next index hindex =>
      obtain ⟨hlt, hname, -⟩ := Array.findIdx?_eq_some_iff_getElem.1 hindex
      simp only [arity?, host?, Array.getElem?_setIfInBounds]
      by_cases hk : index = k
      · subst hk
        obtain rfl : image.hosts[index] = old :=
          Option.some.inj ((Array.getElem?_eq_getElem hlt).symm.trans hold)
        rw [if_pos rfl, if_pos hlt, Option.map_some,
          hhost _ (Array.getElem_mem hlt) (by simpa using hname)]
      · rw [if_neg hk]
        exact h
    · simp only [arity?, host?, Array.getElem?_push]
      have hlt : k < image.hosts.size := (Array.getElem?_eq_some_iff.1 hold).1
      rw [if_neg (Nat.ne_of_lt hlt)]
      exact h

theorem Tidy.addHost (h : image.Tidy) (host : HostFn) : (image.addHost host).Tidy := by
  unfold Image.addHost
  split <;> exact ⟨h.entry, h.fresh⟩

theorem moduleCount_addHost (image : Image) (host : HostFn) :
    (image.addHost host).moduleCount = image.moduleCount := by
  unfold addHost
  split <;> rfl

theorem Consistent.addHost (h : image.Consistent) {host : HostFn}
    (hhost : ∀ old ∈ image.hosts, old.name = host.name → old.arity = host.arity) :
    (image.addHost host).Consistent where
  toTidy := h.toTidy.addHost host
  implemented fn hfn := h.implemented fn (loaded_addHost.1 hfn)
  bound hfn hi ha := arity?_addHost hhost (h.bound (loaded_addHost.1 hfn) hi ha)

end Image

end ScalarLang
