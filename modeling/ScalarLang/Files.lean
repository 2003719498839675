/-! Files as a program finds them by their paths: trees of folders, with the names `.` and `..`. -/

namespace ScalarLang

/-- Why a text cannot be read. -/
inductive ReadError where
  /-- The system refuses, with a reason and its number. -/
  | system (reason : String) (number : Nat)
  | invalidText
  | other (reason : String)

namespace ReadError

def message : ReadError → String
  | system reason number => s!"{reason} (os error {number})"
  | invalidText => "stream did not contain valid UTF-8"
  | other reason => reason

def missing : ReadError := system "No such file or directory" 2

def notDirectory : ReadError := system "Not a directory" 20

def directory : ReadError := system "Is a directory" 21

def nameTooLong : ReadError := system "File name too long" 36

end ReadError

/-- A file or a folder. -/
inductive Node where
  | file (text : String)
  | folder (entries : List (String × Node))

/-- A folder to work in. -/
structure Files where
  here : Node
  /-- The folders around it, the nearest first. -/
  around : List Node

namespace Files

/-- The bytes that a name may have. -/
def maxName : Nat := 255

/-- The bytes that a path may have. -/
def maxPath : Nat := 4095

/-- The node that is reached from one by the parts of a path. Only a folder has a way on; the root
is around itself. -/
def walk : (parts : List String) → Node → (around : List Node) → Except ReadError Node
  | [], node, _ => .ok node
  | _ :: _, .file _, _ => .error .notDirectory
  | part :: rest, .folder entries, around =>
    if part = "" ∨ part = "." then walk rest (.folder entries) around
    else if part = ".." then
      match around with
      | [] => walk rest (.folder entries) []
      | parent :: around => walk rest parent around
    else if maxName < part.utf8ByteSize then .error .nameTooLong
    else match entries.lookup part with
      | none => .error .missing
      | some node => walk rest node (.folder entries :: around)

def root (files : Files) : Node := files.around.getLastD files.here

def find (files : Files) (path : String) : Except ReadError Node :=
  if path.isEmpty then .error .missing
  else if maxPath < path.utf8ByteSize then .error .nameTooLong
  else if path.startsWith "/" then walk (path.splitOn "/") files.root []
  else walk (path.splitOn "/") files.here files.around

/-- The text of the file that a path names. -/
def read (files : Files) (path : String) : Except ReadError String := do
  match ← files.find path with
  | .file text => return text
  | .folder _ => throw .directory

end Files

end ScalarLang
