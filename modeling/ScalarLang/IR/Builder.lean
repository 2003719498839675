import ScalarLang.IR.Basic

/-! Building a function. Instructions are added at the end of the current block; blocks can be
created first and laid out later. -/

namespace ScalarLang.IR

structure Builder where
  func : Func
  current : BlockId

namespace Builder

/-- Begins the body of a function with its entry block. -/
def start (name : String) (params : List String) : Builder where
  func := { name, params, blocks := #[{ name := "entry" }], layout := [0] }
  current := 0

/-- Whether the current block exists, so that it can take instructions. -/
def isPlaced (b : Builder) : Bool := b.current < b.func.blocks.size

/-- Creates a block that is not laid out. -/
def createBlock (b : Builder) (name : String) : BlockId × Builder :=
  (b.func.blocks.size, { b with func := { b.func with blocks := b.func.blocks.push { name } } })

/-- Lays out a block after all others. -/
def appendBlock (b : Builder) (block : BlockId) : Builder :=
  { b with func := { b.func with layout := b.func.layout ++ [block] } }

/-- Creates a block and lays it out. -/
def appendNewBlock (b : Builder) (name : String) : BlockId × Builder :=
  let (block, b) := b.createBlock name
  (block, b.appendBlock block)

def position (b : Builder) (block : BlockId) : Builder := { b with current := block }

def addSlot (b : Builder) (name : String) : SlotId × Builder :=
  (b.func.slots.size, { b with func := { b.func with slots := b.func.slots.push name } })

def addInst (b : Builder) (op : Operation) (name : String) : InstId × Builder :=
  let id := b.func.insts.size
  let func := { b.func with insts := b.func.insts.push ⟨op, name⟩ }
  (id, { b with func := func.modifyBlock b.current fun block =>
    { block with insts := block.insts ++ [id] } })

/-- Adds an instruction and gives its result. -/
def addValue (b : Builder) (op : Operation) (name : String) : Operand × Builder :=
  let (id, b) := b.addInst op name
  (.inst id, b)

/-- Adds a write to a slot. -/
def addStore (b : Builder) (slot : SlotId) (value : Operand) : Builder :=
  (b.addInst (.store slot value) "").2

/-- Ends the current block. -/
def terminate (b : Builder) (t : Terminator) : Builder :=
  { b with func := b.func.modifyBlock b.current fun block => { block with terminator := some t } }

end Builder

end ScalarLang.IR
