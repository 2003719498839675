import ScalarLang.IR.Basic

/-! What can be read off a function: the placed instructions, the edges between blocks, and how
often results and slots are used. -/

namespace ScalarLang.IR

/-- How often a slot is read and written. -/
structure SlotUsage where
  loads : Nat := 0
  stores : Nat := 0

def SlotUsage.isUsed (u : SlotUsage) : Bool := 0 < u.loads + u.stores

namespace Func

/-- The instructions of all laid out blocks with their blocks, in layout order. -/
def placed (f : Func) : List (BlockId × InstId) :=
  f.layout.flatMap fun b => (f.block b).insts.map fun i => (b, i)

/-- The instructions of all laid out blocks, in layout order. -/
def live (f : Func) : List InstId := f.layout.flatMap fun b => (f.block b).insts

def successors (f : Func) (b : BlockId) : List BlockId :=
  ((f.block b).terminator.map Terminator.successors).getD []

/-- The distinct laid out blocks that lead to `b`, in layout order. -/
def preds (f : Func) (b : BlockId) : List BlockId :=
  (f.layout.filter fun p => b ∈ f.successors p).eraseDups

/-- The predecessors of every block, computed in one pass over the layout. -/
def predTable (f : Func) : Array (List BlockId) :=
  f.layout.foldl (fun table p =>
    (f.successors p).foldl (fun table b =>
      table.modify b fun ps => if p ∈ ps then ps else ps ++ [p]) table)
    (Array.replicate f.blocks.size [])

/-- The laid out blocks and those that they lead to, each with its predecessors, by number. -/
def predecessors (f : Func) : List (BlockId × List BlockId) :=
  let blocks := (f.layout ++ f.layout.flatMap f.successors).eraseDups
  blocks.mergeSort.map fun b => (b, f.preds b)

/-- The operands that the laid out code uses: those of each block's instructions and terminator. -/
def usedOperands (f : Func) : List Operand :=
  f.layout.flatMap fun b =>
    (f.block b).insts.flatMap (fun i => (f.op i).operands) ++
      ((f.block b).terminator.map Terminator.operands).getD []

/-- How often laid out code uses each result. -/
def useCounts (f : Func) : Array Nat :=
  f.usedOperands.foldl (fun counts v => match v with
    | .inst i => counts.modify i (· + 1)
    | _ => counts) (Array.replicate f.insts.size 0)

/-- How often laid out code reads and writes each slot. -/
def slotUsage (f : Func) : Array SlotUsage :=
  f.live.foldl (fun usage i => match f.op i with
    | .load slot => usage.modify slot fun u => { u with loads := u.loads + 1 }
    | .store slot _ => usage.modify slot fun u => { u with stores := u.stores + 1 }
    | _ => usage) (Array.replicate f.slots.size {})

/-- For each instruction whether it is placed. -/
def placedMarks (f : Func) : Array Bool :=
  f.live.foldl (fun marks i => marks.setIfInBounds i true) (Array.replicate f.insts.size false)

/-! ### References

A function can be put together freely, so its indices need not refer to anything. These checks say
which of the readings above make sense. -/

/-- The laid out blocks exist. -/
def layoutExists (f : Func) : Bool := f.layout.all (· < f.blocks.size)

/-- The block and its instructions exist. -/
def blockExists (f : Func) (b : BlockId) : Bool :=
  decide (b < f.blocks.size) && (f.block b).insts.all (· < f.insts.size)

/-- The laid out blocks and their instructions exist. -/
def placedExists (f : Func) : Bool := f.layout.all f.blockExists

/-- So do the slots that they read and write. -/
def slotsExist (f : Func) : Bool :=
  f.placedExists && f.live.all fun i => (f.op i).slot?.all (· < f.slots.size)

/-- The result that an operand stands for exists. -/
def resultExists (f : Func) : Operand → Bool
  | .inst i => i < f.insts.size
  | _ => true

/-- So do the instructions whose results they use. -/
def usesExist (f : Func) : Bool :=
  f.placedExists && f.usedOperands.all f.resultExists

end Func

end ScalarLang.IR
