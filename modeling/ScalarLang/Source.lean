/-! A source text with the errors found in it. Offsets count bytes of the encoded text; a position
is a line and a column, both from one, the column also in bytes. -/

namespace ScalarLang

structure Position where
  line : Nat
  column : Nat
  deriving DecidableEq

/-- The position `offset` bytes further on in `text` than `here`; an offset past the end gives the
end, one inside a character gives none. -/
def Position.walk (here : Position) : (text : List Char) → (offset : Nat) → Option Position
  | _, 0 => some here
  | [], _ + 1 => some here
  | c :: rest, offset + 1 =>
    if offset + 1 < c.utf8Size then none
    else
      let next : Position :=
        if c = '\n' then ⟨here.line + 1, 1⟩ else ⟨here.line, here.column + c.utf8Size⟩
      next.walk rest (offset + 1 - c.utf8Size)

def Position.ofOffset (text : String) (offset : Nat) : Option Position :=
  Position.walk ⟨1, 1⟩ text.toList offset

def Position.text (p : Position) : String := s!"{p.line}:{p.column}"

/-- An error with the bytes it is about. -/
structure Diagnostic where
  message : String
  start : Nat
  stop : Nat
  deriving DecidableEq

/-- A line that names the offset of the error. -/
def Diagnostic.byOffset (d : Diagnostic) : String :=
  s!"ERROR: {d.message} at position {d.start}\n"

/-- A line that names the position of the error, if its offset has one. -/
def Diagnostic.byPosition (text : String) (d : Diagnostic) : Option String :=
  (Position.ofOffset text d.start).map fun p => s!"ERROR: {d.message} at {p.text}\n"

structure Source where
  text : String
  errors : List Diagnostic := []

namespace Source

def size (s : Source) : Nat := s.text.utf8ByteSize

def add (s : Source) (d : Diagnostic) : Source := { s with errors := s.errors ++ [d] }

def isClean (s : Source) : Bool := s.errors.isEmpty

/-- One line for each error, by line and column. -/
def report (s : Source) : Option String :=
  (s.errors.mapM (Diagnostic.byPosition s.text)).map String.join

/-- One line for each error, by offset. -/
def offsets (s : Source) : String := String.join (s.errors.map Diagnostic.byOffset)

end Source

end ScalarLang
