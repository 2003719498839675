/-! Functions of the host. A program can see only their results; what they do besides is a list of
effects, in the order in which they happen. -/

namespace ScalarLang

inductive Effect where
  /-- Bytes written to the error stream. -/
  | write (bytes : List UInt8)
  /-- A call reported to the host. -/
  | report (name : String) (args : List Float)

namespace Effect

def text (s : String) : Effect := write s.toUTF8.toList

/-- All bytes that effects write. -/
def written (effects : List Effect) : List UInt8 :=
  effects.flatMap fun e => match e with
    | write bytes => bytes
    | report .. => []

/-- All calls that effects report. -/
def reported (effects : List Effect) : List (String × List Float) :=
  effects.filterMap fun e => match e with
    | write _ => none
    | report name args => some (name, args)

end Effect

structure HostFn where
  name : String
  arity : Nat
  /-- The result of a call and its effects. -/
  call : List Float → Float × List Effect

namespace HostFn

/-- A function without effects. -/
def ofFunction (name : String) (arity : Nat) (f : List Float → Float) : HostFn :=
  ⟨name, arity, fun args => (f args, [])⟩

def describe (h : HostFn) : String := s!"<native fn {h.name}/{h.arity}>"

end HostFn

end ScalarLang
