import Mathlib.Data.List.Pairwise
import ScalarLang.Proofs.Image.Loading

/-! What an image holds. Whatever was linked and removed, in whatever order, an image is a list of
loaded modules, the oldest first, and a map of host functions. A name stands for the function of the
newest module that has one, and a module that was refused left nothing behind. -/

namespace ScalarLang

open IR (Func Module)

namespace Image

/-! ### Requests -/

/-- What an image is asked to do. -/
inductive Request where
  | addHost (host : HostFn)
  | link (m : Module)
  | remove (key : ModuleKey)

/-- What comes of a request. -/
inductive Answer where
  | added
  | linked (key : ModuleKey) (functions : List LinkedFn)
  | refused (e : LinkError)
  | removed (found : Bool)

def serve (image : Image) : Request → Answer × Image
  | .addHost host => (.added, image.addHost host)
  | .link m =>
    match image.link m with
    | .ok l => (.linked l.key l.functions, l.image)
    | .error e => (.refused e, image)
  | .remove key =>
    match image.remove? key with
    | some image' => (.removed true, image')
    | none => (.removed false, image)

def after (image : Image) (requests : List Request) : Image :=
  requests.foldl (fun image r => (image.serve r).2) image

@[simp] theorem after_nil (image : Image) : image.after [] = image := rfl

@[simp] theorem after_cons (image : Image) (r : Request) (rest : List Request) :
    image.after (r :: rest) = (image.serve r).2.after rest := rfl

theorem after_append (image : Image) (before rest : List Request) :
    image.after (before ++ rest) = (image.after before).after rest := List.foldl_append

theorem serve_of_ok {image : Image} {m : Module} {l : Linked} (hl : image.link m = .ok l) :
    image.serve (.link m) = (.linked l.key l.functions, l.image) := by
  simp only [serve, hl]

theorem serve_of_error {image : Image} {m : Module} {e : LinkError}
    (he : image.link m = .error e) : image.serve (.link m) = (.refused e, image) := by
  simp only [serve, he]

/-- All that a request can come to. -/
inductive Served (image : Image) : Request → Answer → Image → Prop where
  | added (host : HostFn) : Served image (.addHost host) .added (image.addHost host)
  | linked {m : Module} {l : Linked} (hl : image.link m = .ok l) :
      Served image (.link m) (.linked l.key l.functions) l.image
  | refused {m : Module} {e : LinkError} (he : image.link m = .error e) :
      Served image (.link m) (.refused e) image
  | removed {key : ModuleKey} {image' : Image} (hremove : image.remove? key = some image') :
      Served image (.remove key) (.removed true) image'
  | unknown {key : ModuleKey} (hremove : image.remove? key = none) :
      Served image (.remove key) (.removed false) image

theorem served (image : Image) (r : Request) :
    image.Served r (image.serve r).1 (image.serve r).2 := by
  cases r with
  | addHost host => exact .added host
  | link m =>
    cases hl : image.link m with
    | ok l =>
      rw [serve_of_ok hl]
      exact .linked hl
    | error e =>
      rw [serve_of_error hl]
      exact .refused hl
  | remove key =>
    cases hremove : image.remove? key with
    | some image' =>
      simp only [serve, hremove]
      exact .removed hremove
    | none =>
      simp only [serve, hremove]
      exact .unknown hremove

/-- The requests with what comes of each. -/
def log (image : Image) : List Request → List (Request × Answer)
  | [] => []
  | r :: rest => (r, (image.serve r).1) :: (image.serve r).2.log rest

/-- The keys that were given out. -/
def issued (log : List (Request × Answer)) : List ModuleKey :=
  log.filterMap fun x => match x.2 with
    | .linked key _ => some key
    | _ => none

/-! ### Inventories -/

/-- A loaded module. Its functions lie one behind the other in the code. -/
structure Holding where
  key : ModuleKey
  base : Nat
  functions : List LinkedFn

namespace Holding

/-- The functions of the module, each with its place in the code. -/
def placed (h : Holding) : List (LinkedFn × Nat) := h.functions.zipIdx h.base

/-- The place of the function of this name; of several the last. -/
def find? (h : Holding) (name : String) : Option Nat :=
  (h.placed.filter (·.1.name = name)).getLast?.map (·.2)

end Holding

structure Inventory where
  /-- The modules that are loaded, in the order in which they were added. -/
  loaded : List Holding := []
  /-- The functions of the host, each with its number. -/
  hosts : String → Option (Nat × HostFn) := fun _ => none
  hostCount : Nat := 0
  /-- How many functions were ever loaded. -/
  places : Nat := 0

namespace Inventory

/-- A function of the host takes the number of the one with its name, or a new one. -/
def addHost (inventory : Inventory) (host : HostFn) : Inventory :=
  let old := inventory.hosts host.name
  { inventory with
    hosts := Function.update inventory.hosts host.name
      (some ((old.map (·.1)).getD inventory.hostCount, host))
    hostCount := inventory.hostCount + if old.isSome then 0 else 1 }

def add (inventory : Inventory) (key : ModuleKey) (functions : List LinkedFn) : Inventory :=
  { inventory with
    loaded := inventory.loaded ++ [⟨key, inventory.places, functions⟩]
    places := inventory.places + functions.length }

def remove (inventory : Inventory) (key : ModuleKey) : Inventory :=
  { inventory with loaded := inventory.loaded.filter (·.key ≠ key) }

/-- Enters a request with what came of it. -/
def note (inventory : Inventory) : Request × Answer → Inventory
  | (.addHost host, _) => inventory.addHost host
  | (.link _, .linked key functions) => inventory.add key functions
  | (.link _, _) => inventory
  | (.remove key, _) => inventory.remove key

def replay (inventory : Inventory) (log : List (Request × Answer)) : Inventory :=
  log.foldl note inventory

/-- A name stands for a function of the last loaded module that has one of that name, else for a
function of the host. -/
def find? (inventory : Inventory) (name : String) : Option Address :=
  match inventory.loaded.reverse.findSome? (·.find? name) with
  | some index => some (.compiled index)
  | none => (inventory.hosts name).map fun x => .host x.1

end Inventory

end Image

namespace Image

variable {image image' : Image} {inventory : Inventory} {m : Module} {l : Linked} {h h' : Holding}
  {fn : LinkedFn} {functions : List LinkedFn} {index : Nat} {key : ModuleKey}

/-! ### Loading modules -/

theorem entries_foldl_load (key : ModuleKey) (image : Image) (functions : List LinkedFn)
    (name : String) : (functions.foldl (load key) image).entries name = image.entries name ++
      ((functions.zipIdx image.code.size).filter (·.1.name = name)).map fun x => (key, x.2) := by
  induction functions generalizing image with
  | nil => simp
  | cons fn functions ih =>
    have hsize : (load key image fn).code.size = image.code.size + 1 := by simp [load]
    rw [List.foldl_cons, ih, entries_load, hsize, List.zipIdx_cons, List.filter_cons]
    by_cases hname : name = fn.name
    · simp [hname]
    · simp [hname, Ne.symm hname]

theorem Extends.compiled? (hext : image.Extends image' functions) :
    image'.compiled? index = some fn ↔
      image.compiled? index = some fn ∨ (fn, index) ∈ functions.zipIdx image.code.size := by
  simp only [Image.compiled?, hext.code, Array.getD_eq_getD_getElem?, Array.getElem?_append,
    List.mk_mem_zipIdx_iff_le_and_getElem?_sub]
  split
  · next hlt => simp [Nat.not_le.2 hlt]
  · next hge =>
    have hle := Nat.not_lt.1 hge
    cases hget : functions[index - image.code.size]? <;>
      simp [hle, hget]

/-- The modules and the next key after a module is linked. -/
theorem link_entered (hl : image.link m = .ok l) : l.key = image.nextKey ∧
    l.image.nextKey = image.nextKey + 1 ∧
    (∀ name, l.image.entries name = image.entries name ++
      ((l.functions.zipIdx image.code.size).filter (·.1.name = name)).map fun x =>
        (image.nextKey, x.2)) ∧
    l.image.modules = image.modules.insert image.nextKey
      ((l.functions.zipIdx image.code.size).map fun x => (x.1.name, x.2)) := by
  simp only [link, bind_eq_ok, pure_eq_ok] at hl
  obtain ⟨functions, -, rfl⟩ := hl
  have hmodules : (functions.foldl (load image.nextKey) image).modules = image.modules :=
    List.foldlRecOn (motive := fun x : Image => x.modules = image.modules) functions
      (load image.nextKey) rfl fun _ hx _ _ => hx
  refine ⟨rfl, rfl, fun name => entries_foldl_load image.nextKey image functions name, ?_⟩
  change Table.insert (functions.foldl (load image.nextKey) image).modules _ _ = _
  rw [hmodules, List.zipIdx_eq_map_add (i := image.code.size), List.map_map]
  rfl

/-! ### Removing modules -/

/-- The image after the functions of a module are taken out. -/
def unloadAll (key : ModuleKey) (image : Image) (defined : List (String × Nat)) : Image :=
  defined.foldl (fun image (name, index) => unload key image name index) image

theorem compiled?_unloadAll (key : ModuleKey) (image : Image) (defined : List (String × Nat))
    (k : Nat) : (unloadAll key image defined).compiled? k =
      if k ∈ defined.map (·.2) then none else image.compiled? k := by
  induction defined generalizing image with
  | nil => simp [unloadAll]
  | cons d defined ih =>
    rw [unloadAll, List.foldl_cons]
    change (unloadAll key (unload key image d.1 d.2) defined).compiled? k = _
    rw [ih, compiled?_unload]
    by_cases hk : k = d.2
    · simp only [hk, if_true, List.map_cons, List.mem_cons, true_or, ite_self]
    · simp only [hk, if_false, List.map_cons, List.mem_cons, false_or]

theorem entries_unloadAll (key : ModuleKey) (image : Image) (defined : List (String × Nat))
    (name : String) : (unloadAll key image defined).entries name =
      if name ∈ defined.map (·.1) then (image.entries name).filter (·.1 ≠ key)
      else image.entries name := by
  induction defined generalizing image with
  | nil => simp [unloadAll]
  | cons d defined ih =>
    rw [unloadAll, List.foldl_cons]
    change (unloadAll key (unload key image d.1 d.2) defined).entries name = _
    rw [ih, entries_unload]
    by_cases hname : name = d.1
    · simp only [hname, if_true, List.map_cons, List.mem_cons, true_or, List.filter_filter,
        Bool.and_self, ite_self]
    · simp only [hname, if_false, List.map_cons, List.mem_cons, false_or]

/-- What stays when functions are taken out. -/
theorem unloadAll_frame (key : ModuleKey) (image : Image) (defined : List (String × Nat)) :
    (unloadAll key image defined).hosts = image.hosts ∧
    (unloadAll key image defined).modules = image.modules ∧
    (unloadAll key image defined).nextKey = image.nextKey ∧
    (unloadAll key image defined).code.size = image.code.size := by
  refine List.foldlRecOn (motive := fun x : Image => x.hosts = image.hosts ∧
    x.modules = image.modules ∧ x.nextKey = image.nextKey ∧ x.code.size = image.code.size)
    defined _ ⟨rfl, rfl, rfl, rfl⟩ fun x hx d _ => ?_
  exact ⟨hx.1, hx.2.1, hx.2.2.1, (Array.size_setIfInBounds ..).trans hx.2.2.2⟩

theorem remove?_eq_some : image.remove? key = some image' ↔
    ∃ defined, image.modules.find? key = some defined ∧
      unloadAll key { image with modules := image.modules.erase key } defined = image' :=
  Option.map_eq_some_iff

/-- What stays when a module is removed. -/
theorem remove_frame (hremove : image.remove? key = some image') :
    image'.hosts = image.hosts ∧ image'.nextKey = image.nextKey ∧
    image'.code.size = image.code.size := by
  obtain ⟨defined, -, rfl⟩ := remove?_eq_some.1 hremove
  obtain ⟨hhosts, -, hnext, hsize⟩ :=
    unloadAll_frame key { image with modules := image.modules.erase key } defined
  exact ⟨hhosts, hnext, hsize⟩

/-! ### Functions of the host -/

/-- The function of the host of this name, with its number. -/
def hostNamed? (image : Image) (name : String) : Option (Nat × HostFn) :=
  (image.hosts.findIdx? (·.name = name)).bind fun k => image.hosts[k]?.map fun host => (k, host)

theorem hostNamed?_eq_some {name : String} {k : Nat} {host : HostFn} :
    image.hostNamed? name = some (k, host) ↔
      image.hosts.findIdx? (·.name = name) = some k ∧ image.host? k = some host := by
  simp [hostNamed?, host?, Option.bind_eq_some_iff]

theorem map_hostNamed? (image : Image) (name : String) :
    (image.hostNamed? name).map (·.1) = image.hosts.findIdx? (·.name = name) := by
  unfold hostNamed?
  cases hk : image.hosts.findIdx? (·.name = name) with
  | none => rfl
  | some k =>
    obtain ⟨hlt, -⟩ := Array.findIdx?_eq_some_iff_getElem.1 hk
    simp [Array.getElem?_eq_getElem hlt]

/-- Replacing a function of the host by one of its name keeps all names in their places. -/
theorem map_name_setIfInBounds {hosts : Array HostFn} {host : HostFn} {index : Nat}
    (h : hosts.findIdx? (·.name = host.name) = some index) :
    (hosts.setIfInBounds index host).map (·.name) = hosts.map (·.name) := by
  obtain ⟨hlt, hold, -⟩ := Array.findIdx?_eq_some_iff_getElem.1 h
  rw [Array.map_setIfInBounds]
  refine Array.ext (by simp) fun k _ hk => ?_
  rw [Array.getElem_setIfInBounds]
  split
  · next he =>
    subst he
    simpa using (of_decide_eq_true hold).symm
  · rfl

theorem findIdx?_setIfInBounds {hosts : Array HostFn} {host : HostFn} {index : Nat}
    (h : hosts.findIdx? (·.name = host.name) = some index) (name : String) :
    (hosts.setIfInBounds index host).findIdx? (·.name = name) =
      hosts.findIdx? (·.name = name) := by
  have hmap (hosts : Array HostFn) : hosts.findIdx? (·.name = name) =
      (hosts.map (·.name)).findIdx? (· = name) := by
    rw [Array.findIdx?_map]
    rfl
  rw [hmap, map_name_setIfInBounds h, ← hmap]

/-- No two functions of the host share a name. -/
theorem nodup_names_addHost (h : (image.hosts.toList.map (·.name)).Nodup) (host : HostFn) :
    ((image.addHost host).hosts.toList.map (·.name)).Nodup := by
  unfold addHost
  split
  · next index hindex =>
    rw [← Array.toList_map, map_name_setIfInBounds hindex, Array.toList_map]
    exact h
  · next hnone =>
    have hfree : host.name ∉ image.hosts.toList.map (·.name) := by
      simpa [Array.findIdx?_eq_none_iff] using hnone
    rw [Array.toList_push, List.map_append, List.map_singleton]
    exact List.nodup_append.2 ⟨h, List.nodup_singleton _, by grind⟩

/-- A function of the host takes the number of the one that it replaces, or a new one. -/
theorem hostNamed?_addHost (image : Image) (host : HostFn) (name : String) :
    (image.addHost host).hostNamed? name =
      if name = host.name then
        some (((image.hostNamed? host.name).map (·.1)).getD image.hosts.size, host)
      else image.hostNamed? name := by
  rw [map_hostNamed?]
  unfold addHost
  split
  · next index hindex =>
    simp only [hostNamed?, findIdx?_setIfInBounds hindex]
    split
    · next hname =>
      subst hname
      obtain ⟨hlt, -⟩ := Array.findIdx?_eq_some_iff_getElem.1 hindex
      simp [hindex, hlt]
    · next hname =>
      cases hk : image.hosts.findIdx? (·.name = name) with
      | none => rfl
      | some k =>
        -- the functions at the two places have different names
        have hne : index ≠ k := by
          rintro rfl
          obtain ⟨_, hold, -⟩ := Array.findIdx?_eq_some_iff_getElem.1 hindex
          obtain ⟨_, hk, -⟩ := Array.findIdx?_eq_some_iff_getElem.1 hk
          exact hname ((of_decide_eq_true hk).symm.trans (of_decide_eq_true hold))
        simp only [Option.bind_some, Array.getElem?_setIfInBounds_ne hne]
  · next hnone =>
    simp only [hostNamed?, Array.findIdx?_push, decide_eq_true_eq]
    by_cases hname : name = host.name
    · subst hname
      simp [hnone]
    · cases hk : image.hosts.findIdx? (·.name = name) with
      | none => simp [hname, Ne.symm hname]
      | some k =>
        obtain ⟨hlt, -⟩ := Array.findIdx?_eq_some_iff_getElem.1 hk
        simp [hname, Array.getElem?_push, Nat.ne_of_lt hlt]

theorem addHost_frame (image : Image) (host : HostFn) :
    (image.addHost host).code = image.code ∧ (image.addHost host).symbols = image.symbols ∧
    (image.addHost host).modules = image.modules ∧
    (image.addHost host).nextKey = image.nextKey := by
  unfold addHost
  split <;> exact ⟨rfl, rfl, rfl, rfl⟩

theorem size_addHost (image : Image) (host : HostFn) : (image.addHost host).hosts.size =
    image.hosts.size + if (image.hostNamed? host.name).isSome then 0 else 1 := by
  have hmap := image.map_hostNamed? host.name
  unfold addHost
  split
  · next hindex =>
    rw [hindex] at hmap
    obtain ⟨x, hx, -⟩ := Option.map_eq_some_iff.1 hmap
    simp [hx]
  · next hnone =>
    rw [hnone, Option.map_eq_none_iff] at hmap
    simp [hmap]

/-! ### Images and inventories -/

namespace Holding

/-- What the table of symbols has of the module for a name. -/
def entries (h : Holding) (name : String) : List (ModuleKey × Nat) :=
  (h.placed.filter (·.1.name = name)).map fun x => (h.key, x.2)

/-- What the table of modules has of the module. -/
def defined (h : Holding) : List (String × Nat) := h.placed.map fun x => (x.1.name, x.2)

/-- The modules have different keys and no place in common. -/
def Apart (h h' : Holding) : Prop :=
  h.key ≠ h'.key ∧ ∀ index ∈ h.placed.map (·.2), index ∉ h'.placed.map (·.2)

instance : Std.Symm Apart where
  symm _ _ happart := ⟨happart.1.symm, fun index hindex hindex' => happart.2 index hindex' hindex⟩

theorem places_lt (hindex : index ∈ h.placed.map (·.2)) :
    h.base ≤ index ∧ index < h.base + h.functions.length := by
  obtain ⟨⟨fn, k⟩, hmem, rfl⟩ := List.mem_map.1 hindex
  obtain ⟨hle, hlt, -⟩ := List.mem_zipIdx hmem
  exact ⟨hle, hlt⟩

theorem getLast?_entries (h : Holding) (name : String) :
    ((h.entries name).getLast?).map (·.2) = h.find? name := by
  rw [entries, List.getLast?_map, Option.map_map]
  rfl

theorem filter_entries (h : Holding) (name : String) (key : ModuleKey) :
    (h.entries name).filter (·.1 ≠ key) = if h.key ≠ key then h.entries name else [] := by
  rw [entries, List.filter_map]
  by_cases hkey : h.key = key <;> simp [hkey, Function.comp_def]

end Holding

theorem Inventory.mem_remove :
    h ∈ (inventory.remove key).loaded ↔ h ∈ inventory.loaded ∧ h.key ≠ key := by
  simp [Inventory.remove]

/-- The tables of the image hold what the inventory says. -/
structure Represents (image : Image) (inventory : Inventory) : Prop where
  code {index : Nat} {fn : LinkedFn} : image.compiled? index = some fn ↔
    ∃ h ∈ inventory.loaded, (fn, index) ∈ h.placed
  entries (name : String) : image.entries name = inventory.loaded.flatMap (·.entries name)
  modules : image.modules.entries.reverse = inventory.loaded.map fun h => (h.key, h.defined)
  hosts (name : String) : image.hostNamed? name = inventory.hosts name
  hostCount : image.hosts.size = inventory.hostCount
  places : image.code.size = inventory.places
  key_lt {h : Holding} : h ∈ inventory.loaded → h.key < image.nextKey
  place_lt {h : Holding} : h ∈ inventory.loaded → h.base + h.functions.length ≤ image.code.size
  apart : inventory.loaded.Pairwise Holding.Apart

namespace Represents

theorem empty : Represents {} {} where
  code {index fn} := by simp [compiled?, Array.getD_eq_getD_getElem?]
  entries name := rfl
  modules := rfl
  hosts name := by simp [hostNamed?]
  hostCount := rfl
  places := rfl
  key_lt := by simp
  place_lt := by simp
  apart := .nil

variable (hr : image.Represents inventory)
include hr

theorem eq_of_key {h h' : Holding} (hh : h ∈ inventory.loaded) (hh' : h' ∈ inventory.loaded)
    (hkey : h.key = h'.key) : h = h' := by
  by_contra hne
  exact (hr.apart.forall hh hh' hne).1 hkey

theorem find?_modules {defined : List (String × Nat)} :
    image.modules.find? key = some defined ↔
      ∃ h ∈ inventory.loaded, h.key = key ∧ h.defined = defined := by
  rw [Table.find?_eq_some_iff, ← List.mem_reverse, hr.modules, List.mem_map]
  simp only [Prod.mk.injEq]

theorem find?_eq (name : String) : image.find? name = inventory.find? name := by
  have hlast : ((image.entries name).getLast?).map (·.2) =
      inventory.loaded.reverse.findSome? (·.find? name) := by
    rw [hr.entries, List.getLast?_flatMap, List.map_findSome?]
    simp only [Function.comp_def, Holding.getLast?_entries]
  rw [Image.find?_eq, Inventory.find?, ← hlast, ← hr.hosts, ← map_hostNamed?, Option.map_map]
  cases (image.entries name).getLast? <;> rfl

theorem addHost (host : HostFn) : (image.addHost host).Represents (inventory.addHost host) := by
  obtain ⟨hcode, hsymbols, hmodules, hkey⟩ := image.addHost_frame host
  constructor
  case code =>
    intro index fn
    rw [compiled?, hcode]
    exact hr.code
  case entries =>
    intro name
    rw [Image.entries, hsymbols]
    exact hr.entries name
  case modules => exact hmodules ▸ hr.modules
  case hosts =>
    intro name
    rw [hostNamed?_addHost, hr.hosts, hr.hosts, hr.hostCount]
    exact (Function.update_apply ..).symm
  case hostCount => rw [size_addHost, hr.hosts, hr.hostCount, Inventory.addHost]
  case places => exact hcode ▸ hr.places
  case key_lt => exact fun hh => hkey ▸ hr.key_lt hh
  case place_lt => exact fun hh => hcode ▸ hr.place_lt hh
  case apart => exact hr.apart

theorem add (hl : image.link m = .ok l) :
    l.image.Represents (inventory.add l.key l.functions) := by
  obtain ⟨hkey, hnext, hentries, hmodules⟩ := link_entered hl
  have hext := (link_eq_ok hl).2
  have hsize : l.image.code.size = image.code.size + l.functions.length := by simp [hext.code]
  have hfresh : image.modules.find? image.nextKey = none := by
    by_contra hsome
    obtain ⟨defined, hdefined⟩ := Option.ne_none_iff_exists'.1 hsome
    obtain ⟨h, hh, hkey, -⟩ := hr.find?_modules.1 hdefined
    exact Nat.ne_of_lt (hr.key_lt hh) hkey
  constructor
  case code =>
    intro index fn
    rw [hext.compiled?, hr.code, hr.places]
    simp [Inventory.add, or_and_right, exists_or, Holding.placed]
  case entries =>
    intro name
    rw [hentries, hr.entries, hr.places, ← hkey, Inventory.add, List.flatMap_append,
      List.flatMap_singleton]
    rfl
  case modules =>
    rw [hmodules, hkey, Table.insert_of_find?_none hfresh, List.reverse_cons,
      hr.modules, hr.places, Inventory.add, List.map_append]
    rfl
  case hosts =>
    intro name
    rw [hostNamed?, hext.hosts]
    exact hr.hosts name
  case hostCount => exact hext.hosts ▸ hr.hostCount
  case places => rw [hsize, hr.places, Inventory.add]
  case key_lt =>
    intro h hh
    rcases List.mem_append.1 hh with hh | hh
    · exact hnext ▸ Nat.lt_succ_of_lt (hr.key_lt hh)
    · rw [List.mem_singleton.1 hh, hnext, hkey]
      exact Nat.lt_succ_self _
  case place_lt =>
    intro h hh
    rw [hsize]
    rcases List.mem_append.1 hh with hh | hh
    · exact (hr.place_lt hh).trans (Nat.le_add_right ..)
    · rw [List.mem_singleton.1 hh, hr.places]
  case apart =>
    refine List.pairwise_append.2 ⟨hr.apart, List.pairwise_singleton .., fun h hh h' hh' => ?_⟩
    rw [List.mem_singleton.1 hh']
    refine ⟨hkey ▸ Nat.ne_of_lt (hr.key_lt hh), fun index hindex hindex' => ?_⟩
    -- the new functions lie behind all old ones
    have hlt := (Holding.places_lt hindex).2.trans_le (hr.place_lt hh)
    exact Nat.not_lt.2 (Holding.places_lt hindex').1 (hr.places ▸ hlt)

/-- Without the entries of a module, what is left are those of the others. -/
theorem filter_entries (key : ModuleKey) (name : String) :
    (image.entries name).filter (·.1 ≠ key) =
      (inventory.remove key).loaded.flatMap (·.entries name) := by
  rw [hr.entries, List.filter_flatMap, Inventory.remove]
  induction inventory.loaded with
  | nil => rfl
  | cons h rest ih =>
    rw [List.flatMap_cons, ih, Holding.filter_entries, List.filter_cons]
    by_cases hkey : h.key = key <;> simp [hkey]

/-- A module whose key is not known is not there. -/
theorem remove_unknown (hremove : image.remove? key = none) :
    inventory.remove key = inventory := by
  have hnone : image.modules.find? key = none := Option.map_eq_none_iff.1 hremove
  have hkeep : inventory.loaded.filter (·.key ≠ key) = inventory.loaded := by
    refine List.filter_eq_self.2 fun h hh => decide_eq_true fun hkey => ?_
    cases hnone.symm.trans (hr.find?_modules.2 ⟨h, hh, hkey, rfl⟩)
  rw [Inventory.remove, hkeep]

theorem code_remove (hh : h ∈ inventory.loaded) :
    (if index ∈ h.placed.map (·.2) then none else image.compiled? index) = some fn ↔
      ∃ h' ∈ (inventory.remove h.key).loaded, (fn, index) ∈ h'.placed := by
  split
  · next hin =>
    simp only [reduceCtorEq, false_iff]
    rintro ⟨h', hh', hfn⟩
    obtain ⟨hh', hne⟩ := Inventory.mem_remove.1 hh'
    have happart := hr.apart.forall hh hh' fun he => hne (he ▸ rfl)
    exact happart.2 index hin (List.mem_map_of_mem hfn)
  · next hout =>
    refine hr.code.trans (exists_congr fun h' => ?_)
    rw [Inventory.mem_remove, and_assoc]
    refine and_congr_right fun hh' => ⟨fun hfn => ⟨fun hkey => ?_, hfn⟩, fun hfn => hfn.2⟩
    obtain rfl := hr.eq_of_key hh' hh hkey
    exact hout (List.mem_map_of_mem hfn)

/-- Only names that a module defines have entries with its key. -/
theorem entries_remove (hh : h ∈ inventory.loaded) (name : String) :
    (if name ∈ h.defined.map (·.1) then (image.entries name).filter (·.1 ≠ h.key)
      else image.entries name) = (inventory.remove h.key).loaded.flatMap (·.entries name) := by
  rw [← hr.filter_entries]
  split
  · rfl
  · next hout =>
    refine (List.filter_eq_self.2 fun x hx => ?_).symm
    rw [decide_eq_true_eq]
    intro hkey
    obtain ⟨h', hh', hx⟩ := List.mem_flatMap.1 (hr.entries name ▸ hx)
    obtain ⟨y, hy, rfl⟩ := List.mem_map.1 hx
    obtain rfl := hr.eq_of_key hh' hh hkey
    obtain ⟨hy, hname⟩ := List.mem_filter.1 hy
    refine hout ?_
    rw [← of_decide_eq_true hname, Holding.defined, List.map_map]
    exact List.mem_map_of_mem (f := fun x : LinkedFn × Nat => x.1.name) hy

theorem remove {image' : Image} (hremove : image.remove? key = some image') :
    image'.Represents (inventory.remove key) := by
  obtain ⟨hhosts, hnext, hsize⟩ := remove_frame hremove
  obtain ⟨defined, hdefined, rfl⟩ := remove?_eq_some.1 hremove
  obtain ⟨h, hh, rfl, rfl⟩ := hr.find?_modules.1 hdefined
  constructor
  case code =>
    intro index fn
    rw [compiled?_unloadAll, show h.defined.map (·.2) = h.placed.map (·.2) by simp [Holding.defined]]
    exact hr.code_remove hh
  case entries =>
    intro name
    rw [entries_unloadAll]
    exact hr.entries_remove hh name
  case modules =>
    rw [(unloadAll_frame ..).2.1]
    change (image.modules.entries.filter (·.1 ≠ h.key)).reverse = _
    rw [← List.filter_reverse, hr.modules, List.filter_map]
    rfl
  case hosts =>
    intro name
    rw [hostNamed?, hhosts]
    exact hr.hosts name
  case hostCount =>
    rw [hhosts]
    exact hr.hostCount
  case places => exact hsize.trans hr.places
  case key_lt =>
    intro h' hh'
    rw [hnext]
    exact hr.key_lt (Inventory.mem_remove.1 hh').1
  case place_lt =>
    intro h' hh'
    rw [hsize]
    exact hr.place_lt (Inventory.mem_remove.1 hh').1
  case apart => exact hr.apart.filter _

theorem served {r : Request} {answer : Answer} {image' : Image}
    (h : image.Served r answer image') : image'.Represents (inventory.note (r, answer)) := by
  cases h with
  | added host => exact hr.addHost host
  | linked hl => exact hr.add hl
  | refused => exact hr
  | removed hremove => exact hr.remove hremove
  | unknown hremove =>
    rw [Inventory.note, hr.remove_unknown hremove]
    exact hr

/-- Whatever is asked of an image, its tables hold what the log says. -/
theorem after (requests : List Request) :
    (image.after requests).Represents (inventory.replay (image.log requests)) := by
  induction requests generalizing image inventory with
  | nil => exact hr
  | cons r rest ih => exact ih (hr.served (image.served r))

end Represents

theorem represents_after (requests : List Request) :
    (after {} requests).Represents (Inventory.replay {} (log {} requests)) :=
  Represents.empty.after requests

/-! ### Keys -/

/-- A module gets the next key, and no other request uses a key up. -/
theorem Served.nextKey {r : Request} {answer : Answer} (h : image.Served r answer image') :
    (∃ functions, answer = .linked image.nextKey functions ∧
      image'.nextKey = image.nextKey + 1) ∨
    (∀ key functions, answer ≠ .linked key functions) ∧ image'.nextKey = image.nextKey := by
  cases h with
  | added host => exact .inr ⟨by simp, (image.addHost_frame host).2.2.2⟩
  | @linked m l hl =>
    obtain ⟨hkey, hnext, -⟩ := link_entered hl
    exact .inl ⟨l.functions, by rw [hkey], hnext⟩
  | refused => exact .inr ⟨by simp, rfl⟩
  | removed hremove => exact .inr ⟨by simp, (remove_frame hremove).2.1⟩
  | unknown => exact .inr ⟨by simp, rfl⟩

/-- Keys only go up. -/
theorem issued_log (image : Image) (requests : List Request) :
    (issued (image.log requests)).Pairwise (· < ·) ∧
      ∀ key ∈ issued (image.log requests), image.nextKey ≤ key := by
  induction requests generalizing image with
  | nil => exact ⟨.nil, by simp [log, issued]⟩
  | cons r rest ih =>
    obtain ⟨hpairwise, hle⟩ := ih (image.serve r).2
    rcases (image.served r).nextKey with ⟨functions, hanswer, hnext⟩ | ⟨hanswer, hnext⟩
    · have hissued : issued (image.log (r :: rest)) =
          image.nextKey :: issued ((image.serve r).2.log rest) := by
        simp [log, issued, hanswer]
      rw [hnext] at hle
      rw [hissued]
      exact ⟨List.pairwise_cons.2 ⟨hle, hpairwise⟩, List.forall_mem_cons.2
        ⟨Nat.le_refl _, fun key hkey => Nat.le_of_succ_le (hle key hkey)⟩⟩
    · have hissued : issued (image.log (r :: rest)) = issued ((image.serve r).2.log rest) := by
        rw [log, issued, List.filterMap_cons]
        cases h : (image.serve r).1 with
        | linked key functions => exact absurd h (hanswer key functions)
        | added => rfl
        | refused e => rfl
        | removed found => rfl
      rw [hissued, ← hnext]
      exact ⟨hpairwise, hle⟩

/-! ### What can be seen of an image -/

/-- The image shows what the inventory says: names stand for the functions of the newest modules,
just the functions of loaded modules are there, and the modules are as many as are loaded. -/
structure Shows (image : Image) (inventory : Inventory) : Prop where
  find (name : String) : image.find? name = inventory.find? name
  host {name : String} {k : Nat} {host : HostFn} : inventory.hosts name = some (k, host) →
    image.host? k = some host
  compiled (index : Nat) (fn : LinkedFn) : image.compiled? index = some fn ↔
    ∃ h ∈ inventory.loaded, (fn, index) ∈ h.placed
  count : image.moduleCount = inventory.loaded.length

theorem Represents.shows (hr : image.Represents inventory) : image.Shows inventory where
  find := hr.find?_eq
  host {name k host} hhost := (hostNamed?_eq_some.1 ((hr.hosts name).trans hhost)).2
  compiled _ _ := hr.code
  count := by
    rw [moduleCount, Table.size, ← List.length_reverse, hr.modules, List.length_map]

/-- A module is removed if it is there. -/
theorem Represents.serve_remove (hr : image.Represents inventory) (key : ModuleKey) :
    (image.serve (.remove key)).1 = .removed (inventory.loaded.any (·.key = key)) := by
  cases hfind : image.modules.find? key with
  | some defined =>
    obtain ⟨h, hh, hkey, -⟩ := hr.find?_modules.1 hfind
    have hany : inventory.loaded.any (·.key = key) = true :=
      List.any_eq_true.2 ⟨h, hh, decide_eq_true hkey⟩
    simp [Image.serve, remove?, hfind, hany]
  | none =>
    have hany : inventory.loaded.any (·.key = key) = false := by
      refine List.any_eq_false.2 fun h hh hkey => ?_
      cases hfind.symm.trans (hr.find?_modules.2 ⟨h, hh, of_decide_eq_true hkey, rfl⟩)
    simp [Image.serve, remove?, hfind, hany]

/-- What a module is linked to has the names, the numbers of arguments and the code of its
definitions. -/
theorem linked_of_mem_log {functions : List LinkedFn} {requests : List Request}
    (h : (.link m, .linked key functions) ∈ image.log requests) :
    List.Forall₂ (fun f fn => fn.name = f.name ∧ fn.arity = f.arity ∧ lowerFunc f = .ok fn.chunk)
      m.definitions functions := by
  induction requests generalizing image with
  | nil => simp [log] at h
  | cons r rest ih =>
    rcases List.mem_cons.1 h with he | h
    · obtain ⟨rfl, hanswer⟩ := Prod.mk.inj he
      cases hl : image.link m with
      | ok l =>
        rw [serve_of_ok hl, Answer.linked.injEq] at hanswer
        rw [hanswer.2]
        exact (link_eq_ok hl).1.imp fun f fn hlinks => ⟨hlinks.name, hlinks.arity, hlinks.code⟩
      | error e => simp [serve_of_error hl] at hanswer
    · exact ih h

/-- An image shows the modules that are loaded, in the order in which they were added, and the
functions of the host, whatever was linked, refused or removed before. No key is given out twice; a
module is removed if its key is that of a loaded one, and nothing else with it; and a module that is
refused leaves everything as it was, also for what comes later. -/
theorem after_shows_inventory (requests : List Request) :
    let image : Image := after {} requests
    let inventory := Inventory.replay {} (log {} requests)
    image.Shows inventory ∧ inventory.loaded.Pairwise Holding.Apart ∧
    (∀ m key functions, (.link m, .linked key functions) ∈ log {} requests →
      List.Forall₂ (fun f fn => fn.name = f.name ∧ fn.arity = f.arity ∧
        lowerFunc f = .ok fn.chunk) m.definitions functions) ∧
    (issued (log {} requests)).Nodup ∧
    (∀ key, (image.serve (.remove key)).1 = .removed (inventory.loaded.any (·.key = key)) ∧
      (image.serve (.remove key)).2.Shows (inventory.remove key)) ∧
    ∀ m e, image.link m = .error e → ∀ later,
      image.log (.link m :: later) = (.link m, .refused e) :: image.log later ∧
        image.after (.link m :: later) = image.after later := by
  have hr := represents_after requests
  refine ⟨hr.shows, hr.apart, fun m key functions => linked_of_mem_log, ?_, fun key => ?_, ?_⟩
  · exact (issued_log {} requests).1.imp Nat.ne_of_lt
  · exact ⟨hr.serve_remove key, (hr.served (served _ (.remove key))).shows⟩
  · intro m e he later
    rw [log, after_cons, serve_of_error he]
    exact ⟨rfl, rfl⟩

/-- A function without parameters that returns a constant. -/
def answering (name : String) (x : Float) : Func where
  name := name
  params := []
  blocks := #[⟨"entry", [], some (.ret (.const x))⟩]
  layout := [0]

/-- A function without parameters that returns what another one does. -/
def asking (name callee : String) (args : List IR.Operand) : Func where
  name := name
  params := []
  insts := #[⟨.call callee args, "calltmp"⟩]
  blocks := #[⟨"entry", [0], some (.ret (.inst 0))⟩]
  layout := [0]

/-- A function is defined twice, and the first definition is removed. -/
def shadowing : List Request :=
  [.link ⟨"first", [answering "g" 1.0]⟩, .link ⟨"second", [asking "f" "g" [], answering "g" 2.0]⟩,
    .remove 0]

theorem after_shows_inventory_shadowing :
    (after {} shadowing).find? "g" = some (.compiled 2) ∧ issued (log {} shadowing) = [0, 1] ∧
    (after {} shadowing).Shows (Inventory.replay {} (log {} shadowing)) ∧
    ∃ e, (after {} shadowing).link ⟨"third", [asking "h" "g" [.const 1.0]]⟩ = .error e ∧
      ∀ later, (after {} shadowing).after (.link ⟨"third", [asking "h" "g" [.const 1.0]]⟩ :: later) =
        (after {} shadowing).after later := by
  obtain ⟨hshows, -, -, -, -, hrefused⟩ := after_shows_inventory shadowing
  have herror : ((after {} shadowing).link ⟨"third", [asking "h" "g" [.const 1.0]]⟩).isOk =
      false := by decide +kernel
  refine ⟨by decide +kernel, by decide +kernel, hshows, ?_⟩
  cases hl : (after {} shadowing).link ⟨"third", [asking "h" "g" [.const 1.0]]⟩ with
  | ok l => simp [hl, Except.isOk, Except.toBool] at herror
  | error e => exact ⟨e, rfl, fun later => (hrefused _ e hl later).2⟩

end Image

end ScalarLang
