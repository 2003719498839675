import ScalarLang.Bytecode.Lower
import ScalarLang.Host
import ScalarLang.IR.Module
import ScalarLang.Table

/-! The image of all loaded code. Modules are linked into it and can be removed again; of several
definitions of a name the newest counts, and a function of the host only if there is none. -/

namespace ScalarLang

/-- Where a function is: in the compiled code or among the functions of the host. -/
inductive Address where
  | compiled (index : Nat)
  | host (index : Nat)
  deriving DecidableEq

/-- Why a module cannot be linked, or a function not be called. -/
inductive LinkError where
  | unresolved (name : String)
  | arityMismatch (name : String) (expected found : Nat)
  | tooLarge (name : String)
  /-- A function refers to code that does not exist. -/
  | dangling (name : String)
  deriving DecidableEq

def LinkError.message : LinkError → String
  | unresolved name => s!"unresolved symbol `{name}`"
  | arityMismatch name expected found =>
    s!"`{name}` takes {expected} arguments but is called with {found}"
  | tooLarge name => s!"function `{name}` is too large to compile"
  | dangling name => s!"function `{name}` refers to code that does not exist"

/-- A function whose imports are bound. One without an address was not defined when the function
was linked; it is looked up when it is called. -/
structure LinkedFn where
  name : String
  arity : Nat
  chunk : Bytecode.Chunk
  imports : Array (Option Address)

/-- Names a loaded module. -/
abbrev ModuleKey := Nat

structure Image where
  /-- Removed functions leave their place empty, so addresses are never used again. -/
  code : Array (Option LinkedFn) := #[]
  hosts : Array HostFn := #[]
  /-- The definitions of each name, the oldest first. -/
  symbols : Table String (List (ModuleKey × Nat)) := {}
  /-- The functions of each loaded module. -/
  modules : Table ModuleKey (List (String × Nat)) := {}
  nextKey : ModuleKey := 0

namespace Image

/-- Adds a function of the host, in the place of one with the same name. -/
def addHost (image : Image) (h : HostFn) : Image :=
  match image.hosts.findIdx? (·.name = h.name) with
  | some index => { image with hosts := image.hosts.setIfInBounds index h }
  | none => { image with hosts := image.hosts.push h }

def find? (image : Image) (name : String) : Option Address :=
  match (image.symbols.find? name).bind List.getLast? with
  | some (_, index) => some (.compiled index)
  | none => (image.hosts.findIdx? (·.name = name)).map .host

def compiled? (image : Image) (index : Nat) : Option LinkedFn := image.code.getD index none

def host? (image : Image) (index : Nat) : Option HostFn := image.hosts[index]?

/-- The number of arguments of a loaded function. -/
def arity? (image : Image) : Address → Option Nat
  | .compiled index => (image.compiled? index).map (·.arity)
  | .host index => (image.host? index).map (·.arity)

def moduleCount (image : Image) : Nat := image.modules.size

/-! ### Linking -/

/-- The code of a function that can be called. -/
def lowerFunc (f : IR.Func) : Except LinkError Bytecode.Chunk :=
  if Bytecode.maxArity < f.arity then .error (.tooLarge f.name)
  else match Bytecode.lower f with
    | .ok chunk => .ok chunk
    | .error .tooLarge => .error (.tooLarge f.name)
    | .error .dangling => .error (.dangling f.name)

/-- The address that a name has in a module whose definitions get addresses from `base` on, else in
the image, with its number of arguments. -/
def resolve? (image : Image) (base : Nat) (definitions : List IR.Func) (name : String) :
    Option (Address × Nat) :=
  match definitions.zipIdx.find? (·.1.name = name) with
  | some (f, k) => some (.compiled (base + k), f.arity)
  | none => do
    let address ← image.find? name
    return (address, ← image.arity? address)

/-- Binds an import; one that is found nowhere stays open. -/
def bindImport (image : Image) (base : Nat) (definitions : List IR.Func) (i : Bytecode.Import) :
    Except LinkError (Option Address) :=
  match image.resolve? base definitions i.name with
  | none => .ok none
  | some (address, arity) =>
    if arity = i.arity then .ok (some address) else .error (.arityMismatch i.name arity i.arity)

def linkFunc (image : Image) (base : Nat) (definitions : List IR.Func) (f : IR.Func)
    (chunk : Bytecode.Chunk) : Except LinkError LinkedFn := do
  let imports ← chunk.imports.toList.mapM (image.bindImport base definitions)
  return { name := f.name, arity := f.arity, chunk, imports := imports.toArray }

/-- The definitions of a module, ready to be loaded. -/
def linkAll (image : Image) (m : IR.Module) : Except LinkError (List LinkedFn) := do
  let definitions := m.definitions
  let chunks ← definitions.mapM lowerFunc
  (definitions.zip chunks).mapM fun (f, chunk) =>
    image.linkFunc image.code.size definitions f chunk

/-- Enters a function of the module `key` into the image. -/
def load (key : ModuleKey) (image : Image) (f : LinkedFn) : Image :=
  let index := image.code.size
  let known := (image.symbols.find? f.name).getD []
  { image with
    code := image.code.push (some f)
    symbols := image.symbols.insert f.name (known ++ [(key, index)]) }

/-- A module that was linked. -/
structure Linked where
  key : ModuleKey
  functions : List LinkedFn
  image : Image

/-- The code of the functions of a module, as text. -/
def Linked.listings (l : Linked) : List Effect :=
  l.functions.map fun f => .text (f.chunk.listing ++ "\n")

/-- Links a module. If a function has no code, or an import another number of arguments than it is
called with, nothing is loaded. -/
def link (image : Image) (m : IR.Module) : Except LinkError Linked := do
  let functions ← image.linkAll m
  let key := image.nextKey
  let defined := functions.zipIdx.map fun (f, k) => (f.name, image.code.size + k)
  let image := functions.foldl (load key) image
  let image := { image with modules := image.modules.insert key defined, nextKey := key + 1 }
  return { key, functions, image }

/-- Takes one function of the module `key` out of the image. -/
def unload (key : ModuleKey) (image : Image) (name : String) (index : Nat) : Image :=
  let kept := ((image.symbols.find? name).getD []).filter (·.1 ≠ key)
  { image with
    code := image.code.setIfInBounds index none
    symbols := if kept.isEmpty then image.symbols.erase name else image.symbols.insert name kept }

/-- Removes a module; none if the key names no loaded module. -/
def remove? (image : Image) (key : ModuleKey) : Option Image :=
  (image.modules.find? key).map fun defined =>
    let image := { image with modules := image.modules.erase key }
    defined.foldl (fun image (name, index) => unload key image name index) image

end Image

end ScalarLang
