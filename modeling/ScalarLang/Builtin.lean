import ScalarLang.Decimal.Text
import ScalarLang.Session
import ScalarLang.Syntax.Program

/-! The functions that every interpreter offers, and programs run with just these. A program still
has to declare those it calls. -/

namespace ScalarLang.Builtin

def first (args : List Float) : Float := args.headD 0.0

/-- Writes the character with this code; the code is cut off to a byte. -/
def putchard : HostFn := ⟨"putchard", 1, fun args => (0.0, [.write [(first args).toUInt8]])⟩

/-- Writes a number with six decimals on a line. -/
def printd : HostFn :=
  ⟨"printd", 1, fun args => (0.0, [.text (Decimal.fixed 6 (first args) ++ "\n")])⟩

def sin : HostFn := .ofFunction "sin" 1 fun args => (first args).sin

def cos : HostFn := .ofFunction "cos" 1 fun args => (first args).cos

def sqrt : HostFn := .ofFunction "sqrt" 1 fun args => (first args).sqrt

def all : List HostFn := [putchard, printd, sin, cos, sqrt]

def install (s : Session) : Session := all.foldl Session.addHost s

/-- A session with these functions. -/
def session (options : SessionOptions) : Session := install (Session.new options)

/-- Runs a program in a session of its own, passing over syntax errors. -/
def evaluate (fuel : Nat) (text : String) : Option (List Evaluated) :=
  let items := (readProgram Operators.standard text).program.items
  ((session {}).evalItems fuel items).map (·.1)

/-- The functions of a program as text, passing over syntax errors. -/
def assembly (text : String) (debug : Bool) : String :=
  ((session {}).assembly (readProgram Operators.standard text).program.items debug).1

end ScalarLang.Builtin
