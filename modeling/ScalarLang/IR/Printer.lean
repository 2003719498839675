import Std.Data.HashMap
import Std.Data.HashSet
import ScalarLang.Decimal.Text
import ScalarLang.IR.Flow
import ScalarLang.IR.Module

/-! The text of functions and modules. Arguments, slots, blocks and results share one space of
names, in which each is given a name of its own. -/

namespace ScalarLang.IR

/-- The digits of the exponent are at least two and signed; what is not finite is given by bits. -/
def doubleText (x : Float) : String :=
  match Decimal.Magnitude.ofFloat x with
  | .nan => "0x7FF8000000000000"
  | .infinite false => "0x7FF0000000000000"
  | .infinite true => "0xFFF0000000000000"
  | .finite d =>
    let (mantissa, exponent) := Decimal.mantissaForm 6 d
    let sign := if exponent < 0 then "-" else "+"
    let digits := Decimal.padZeros 2 (toString exponent.natAbs)
    Decimal.signText d.negative ++ mantissa ++ "e" ++ sign ++ digits

def Ty.text : Ty → String
  | double => "double"
  | bit => "i1"

def BinaryOp.text : BinaryOp → String
  | add => "fadd"
  | sub => "fsub"
  | mul => "fmul"
  | div => "fdiv"

def Comparison.text : Comparison → String
  | ult => "ult"
  | one => "one"

/-! ### Names -/

/-- The names in use, and for each wanted name the last number tried after it. -/
structure Namer where
  used : Std.HashSet String := {}
  counters : Std.HashMap String Nat := {}

namespace Namer

/-- The first number after `n` that makes `wanted` a free name. Among `tries` numbers there is one
if fewer than `tries` names are in use. -/
def search (used : Std.HashSet String) (wanted : String) : (tries n : Nat) → Nat
  | 0, n => n + 1
  | tries + 1, n =>
    if used.contains (wanted ++ toString (n + 1)) then search used wanted tries (n + 1) else n + 1

/-- A free name: the wanted one, or with the next number after it. -/
def fresh (namer : Namer) (hint : String) : String × Namer :=
  let wanted := if hint.isEmpty then "tmp" else hint
  if namer.used.contains wanted then
    let n := search namer.used wanted namer.used.size (namer.counters.getD wanted 0)
    let name := wanted ++ toString n
    (name, ⟨namer.used.insert name, namer.counters.insert wanted n⟩)
  else (wanted, { namer with used := namer.used.insert wanted })

end Namer

/-- The names of one function. -/
structure Names where
  args : Array String
  slots : Array (Option String)
  blocks : Array (Option String)
  insts : Array (Option String)

namespace Names

def nameArgs (params : List String) (namer : Namer) : Array String × Namer :=
  params.foldl (fun (names, namer) param =>
    let (name, namer) := namer.fresh param
    (names.push name, namer)) (#[], namer)

def nameSlots (f : Func) (namer : Namer) : Array (Option String) × Namer :=
  (f.slotUsage.toList.zip f.slots.toList).foldl (fun (names, namer) (usage, slot) =>
    if usage.isUsed then
      let (name, namer) := namer.fresh slot
      (names.push (some name), namer)
    else (names.push none, namer)) (#[], namer)

def nameInsts (f : Func) (insts : List InstId) (names : Array (Option String)) (namer : Namer) :
    Array (Option String) × Namer :=
  insts.foldl (fun (names, namer) i =>
    if (f.op i).type?.isSome then
      let (name, namer) := namer.fresh (f.inst i).name
      (names.setIfInBounds i (some name), namer)
    else (names, namer)) (names, namer)

/-- Names arguments, used slots, then each laid out block followed by its results. -/
def ofFunc (f : Func) : Names :=
  let (args, namer) := nameArgs f.params {}
  let (slots, namer) := nameSlots f namer
  let blocks := Array.replicate f.blocks.size none
  let insts := Array.replicate f.insts.size none
  let (blocks, insts, _) := f.layout.foldl (fun (blocks, insts, namer) b =>
    let (name, namer) := namer.fresh (f.block b).name
    let (insts, namer) := nameInsts f (f.block b).insts insts namer
    (blocks.setIfInBounds b (some name), insts, namer)) (blocks, insts, namer)
  ⟨args, slots, blocks, insts⟩

/-- The name of a block without its mark. -/
def label (names : Names) (b : BlockId) : String :=
  (names.blocks.getD b none).getD "<detached>"

def block (names : Names) (b : BlockId) : String := "%" ++ names.label b

def slot (names : Names) (s : SlotId) : String :=
  "%" ++ (names.slots.getD s none).getD "<unused>"

def operand (names : Names) : Operand → String
  | .inst i => "%" ++ (names.insts.getD i none).getD "<detached>"
  | .arg n => "%" ++ names.args.getD n ""
  | .const v => doubleText v
  | .bool b => if b then "true" else "false"

end Names

/-! ### Texts -/

def commaSeparated (texts : List String) : String := ", ".intercalate texts

def Operation.text (names : Names) : Operation → String
  | binary op l r => s!"{op.text} double {names.operand l}, {names.operand r}"
  | compare test l r => s!"fcmp {test.text} double {names.operand l}, {names.operand r}"
  | toDouble v => s!"uitofp i1 {names.operand v} to double"
  | load s => s!"load double, double* {names.slot s}"
  | store s v => s!"store double {names.operand v}, double* {names.slot s}"
  | call callee args =>
    let args := commaSeparated (args.map fun v => s!"double {names.operand v}")
    s!"call double @{callee}({args})"
  | phi incoming =>
    let pairs := commaSeparated (incoming.map fun (v, b) =>
      s!"[ {names.operand v}, {names.block b} ]")
    s!"phi double {pairs}"

def instText (f : Func) (names : Names) (i : InstId) : String :=
  let result := match names.insts.getD i none with
    | some name => s!"%{name} = "
    | none => ""
  s!"  {result}{(f.op i).text names}\n"

def terminatorText (f : Func) (names : Names) : Option Terminator → String
  | some (.br target) => s!"  br label {names.block target}\n"
  | some (.condBr cond yes no) =>
    s!"  br i1 {names.operand cond}, label {names.block yes}, label {names.block no}\n"
  | some (.ret value) =>
    let type := (f.operandType value).getD .double
    s!"  ret {type.text} {names.operand value}\n"
  | none => "  <unterminated>\n"

def slotTexts (names : Names) : String :=
  String.join (names.slots.toList.map fun slot => match slot with
    | some name => s!"  %{name} = alloca double\n"
    | none => "")

/-- A block; the slots are listed in the first. -/
def blockText (f : Func) (names : Names) (first : Bool) (b : BlockId) : String :=
  (if first then "" else "\n") ++ names.label b ++ ":\n" ++
    (if first then slotTexts names else "") ++
    String.join ((f.block b).insts.map (instText f names)) ++
    terminatorText f names (f.block b).terminator

namespace Func

def text (f : Func) : String :=
  let names := Names.ofFunc f
  let params := commaSeparated (names.args.toList.map fun name => s!"double %{name}")
  match f.layout with
  | [] => s!"declare double @{f.name}({params})\n"
  | first :: rest =>
    s!"define double @{f.name}({params}) \x7b\n" ++ blockText f names true first ++
      String.join (rest.map (blockText f names false)) ++ "\x7d\n"

/-- Whether an operand refers to something that has a name or could have one. -/
def operandExists (f : Func) : Operand → Bool
  | .inst i => i < f.insts.size
  | .arg n => n < f.arity
  | _ => true

/-- The blocks that the laid out code names. -/
def namedBlocks (f : Func) : List BlockId :=
  f.layout.flatMap fun b =>
    (f.block b).insts.flatMap (fun i => match f.op i with
      | .phi incoming => incoming.map (·.2)
      | _ => []) ++ f.successors b

/-- Whether all that the text of the function has to name exists. -/
def isPrintable (f : Func) : Bool :=
  f.slotsExist && f.usedOperands.all f.operandExists && f.namedBlocks.all (· < f.blocks.size)

/-- The text of a function in which every reference makes sense. -/
def text? (f : Func) : Option String := if f.isPrintable then some f.text else none

end Func

namespace Module

def text (m : Module) : String :=
  s!"; ModuleID = '{m.name}'\n" ++ String.join (m.functions.map fun f => "\n" ++ f.text)

/-- The text of a module in whose functions every reference makes sense. -/
def text? (m : Module) : Option String :=
  if m.functions.all Func.isPrintable then some m.text else none

end Module

end ScalarLang.IR
