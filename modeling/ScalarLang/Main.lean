import ScalarLang.CommandLine

/-! The program: reads files and lines, and writes what the interpreter says. -/

namespace ScalarLang.CommandLine

def perform (writes : List Write) : IO Unit := do
  let out ← IO.getStdout
  let err ← IO.getStderr
  for w in writes do
    match w with
    | .out text => out.putStr text
    | .err bytes => err.write ⟨bytes.toArray⟩
  out.flush
  err.flush

def finish (e : Exit) : IO UInt8 := do
  perform e.writes
  return e.code

/-- A refusal of the system. Some of its numbers come with the sign changed, and the reason of one
has two wordings. -/
def refusal (number : UInt32) (reason : String) : ReadError :=
  match number.toInt32.toInt.natAbs with
  | 36 => .nameTooLong
  | number => .system reason.capitalize number

def readError : IO.Error → ReadError
  | .noFileOrDirectory _ number reason | .permissionDenied _ number reason
  | .inappropriateType _ number reason | .invalidArgument _ number reason => refusal number reason
  | e => .other (toString e)

def readScript (path : String) : IO (Except ReadError String) := do
  try
    let bytes ← IO.FS.readBinFile path
    match String.fromUTF8? bytes with
    | some text => return .ok text
    | none => return .error .invalidText
  catch e => return .error (readError e)

/-- Runs a text and writes at once what it gives. -/
def runNow (i : Interpreter) (text : String) : IO Interpreter := do
  match i.runText Machine.ampleFuel text with
  | some (writes, i) =>
    perform writes
    return i
  | none => return i

/-- The bytes up to the end of a line or of the input. -/
partial def readLine (input : IO.FS.Stream) (line : ByteArray) : IO ByteArray := do
  let byte ← input.read 1
  let line := line ++ byte
  if byte.isEmpty || byte.data.contains 10 then return line else readLine input line

partial def converseNow (i : Interpreter) : IO UInt8 := do
  perform [Interpreter.prompt]
  let line ← readLine (← IO.getStdin) .empty
  if line.isEmpty then finish ⟨[Interpreter.farewell], 0⟩
  else match String.fromUTF8? line with
    | some text => converseNow (← runNow i text)
    | none => finish (inputExit .invalidText)

def start (args : List String) : IO UInt8 := do
  match request args with
  | .help => finish helpExit
  | .unknownOption arg => finish (unknownOptionExit arg)
  | .run config =>
    let i := Interpreter.new config
    match config.script with
    | none => converseNow i
    | some path =>
      match ← readScript path with
      | .error e => finish (unreadableExit path e)
      | .ok text =>
        discard (runNow i text)
        return 0

end ScalarLang.CommandLine

def main (args : List String) : IO UInt32 :=
  return (← ScalarLang.CommandLine.start args).toUInt32
