import ScalarLang.Builtin
import ScalarLang.Files

/-! The command line: its arguments, and what an interpreter writes for each text that it is given.
Both are pure; the program itself only reads and writes. -/

namespace ScalarLang

/-- Something written to one of the two output streams. -/
inductive Write where
  | out (text : String)
  | err (bytes : List UInt8)

def Write.errText (s : String) : Write := err s.toUTF8.toList

namespace CommandLine

def usage : String := "usage: kalei [--debug | -O0] [--dump-bytecode] [--emit-ir] [script]"

structure Config where
  options : SessionOptions := {}
  /-- Prints the functions of a program instead of running it. -/
  emitIR : Bool := false
  /-- The file to run; without one there is a prompt. -/
  script : Option String := none

/-- What the arguments ask for. -/
inductive Request where
  | run (config : Config)
  | help
  | unknownOption (arg : String)

/-- Reads the arguments from the left; the first that decides alone ends it, and the last script
counts. -/
def readArgs (config : Config) : List String → Request
  | [] => .run config
  | arg :: rest =>
    if arg = "--debug" ∨ arg = "-O0" then
      readArgs { config with options := { config.options with optimize := false } } rest
    else if arg = "--dump-bytecode" then
      readArgs { config with options := { config.options with listCode := true } } rest
    else if arg = "--emit-ir" then readArgs { config with emitIR := true } rest
    else if arg = "--help" ∨ arg = "-h" then .help
    else if arg.startsWith "-" then .unknownOption arg
    else readArgs { config with script := some arg } rest

def request (args : List String) : Request := readArgs {} args

/-- What is written, and the code with which the program ends. -/
structure Exit where
  writes : List Write
  code : UInt8

/-- The bytes of the output stream. -/
def Exit.out (e : Exit) : List UInt8 :=
  e.writes.flatMap fun w => match w with
    | .out text => text.toUTF8.toList
    | .err _ => []

/-- The bytes of the error stream. -/
def Exit.err (e : Exit) : List UInt8 :=
  e.writes.flatMap fun w => match w with
    | .out _ => []
    | .err bytes => bytes

def helpExit : Exit := ⟨[.out (usage ++ "\n")], 0⟩

def unknownOptionExit (arg : String) : Exit :=
  ⟨[.errText s!"unknown option `{arg}`\n{usage}\n"], 2⟩

def inputExit (e : ReadError) : Exit := ⟨[.errText s!"{e.message}\n"], 1⟩

def unreadableExit (path : String) (e : ReadError) : Exit :=
  ⟨[.errText s!"cannot read `{path}`: {e.message}\n"], 1⟩

end CommandLine

open CommandLine (Config)

/-- A session with the operators that earlier texts defined. -/
structure Interpreter where
  session : Session
  operators : Operators
  emitIR : Bool

namespace Interpreter

def new (config : Config) : Interpreter where
  session := Builtin.session config.options
  operators := Operators.standard
  emitIR := config.emitIR

/-- What evaluating an item writes. -/
def evaluatedWrites (e : Evaluated) : List Write :=
  .err (Effect.written e.effects) :: match e.result with
    | .ok none => []
    | .ok (some v) => [.out s!"Evaluated to {Decimal.fixed 6 v}\n"]
    | .error e => [.errText s!"Error: {e.message}\n"]

/-- Runs a text: syntax errors first, then what its items write. -/
def runText (fuel : Nat) (i : Interpreter) (text : String) : Option (List Write × Interpreter) := do
  let reading := readProgram i.operators text
  let i := { i with operators := reading.program.operators }
  let report := Write.errText (← reading.source.report)
  if i.emitIR then
    let (text, session) := i.session.assembly reading.program.items (!i.session.options.optimize)
    return ([report, .out text], { i with session })
  else
    let (evaluated, session) ← i.session.evalItems fuel reading.program.items
    return (report :: evaluated.flatMap evaluatedWrites, { i with session })

/-- Shown before each line is read. -/
def prompt : Write := .out "ready> "

/-- Shown when the input ends. -/
def farewell : Write := .out "\n"

/-- A conversation: each line is run on its own. -/
def converse (fuel : Nat) (i : Interpreter) : List String → Option (List Write)
  | [] => some [prompt, farewell]
  | line :: rest => do
    let (writes, i) ← i.runText fuel line
    return prompt :: writes ++ (← i.converse fuel rest)

end Interpreter

/-- The lines of a text with their ends. -/
def CommandLine.linesOf (text : String) : List String :=
  let parts := text.splitOn "\n"
  let last := parts.getLastD ""
  parts.dropLast.map (· ++ "\n") ++ if last.isEmpty then [] else [last]

/-- The whole program, for files and input that are known. -/
def CommandLine.run (fuel : Nat) (files : Files) (input : String) (args : List String) :
    Option Exit :=
  match request args with
  | .help => some helpExit
  | .unknownOption arg => some (unknownOptionExit arg)
  | .run config =>
    let i := Interpreter.new config
    match config.script with
    | none => (i.converse fuel (linesOf input)).map (⟨·, 0⟩)
    | some path =>
      match files.read path with
      | .error e => some (unreadableExit path e)
      | .ok text => (i.runText fuel text).map (⟨·.1, 0⟩)

end ScalarLang
