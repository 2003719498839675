import ScalarLang.IR.Basic
import ScalarLang.Table

/-! The variables in scope while a function is generated. There is one flat table: a binding
remembers what it shadows, and closing it brings that back. -/

namespace ScalarLang

/-- The slots of the visible variables. -/
abbrev Scope := Table String IR.SlotId

/-- What a name stood for before it was bound. -/
structure Shadowed where
  name : String
  previous : Option IR.SlotId

namespace Scope

def bind (s : Scope) (name : String) (slot : IR.SlotId) : Shadowed × Scope :=
  (⟨name, s.find? name⟩, s.insert name slot)

/-- Closes a binding. -/
def close (s : Scope) (shadowed : Shadowed) : Scope := s.restore shadowed.name shadowed.previous

/-- Closes bindings, the last first. -/
def closeAll (s : Scope) (shadowed : List Shadowed) : Scope := shadowed.reverse.foldl close s

/-- What was bound first is closed last. -/
theorem closeAll_cons (s : Scope) (shadowed : Shadowed) (more : List Shadowed) :
    s.closeAll (shadowed :: more) = (s.closeAll more).close shadowed := by
  simp [closeAll]

end Scope

end ScalarLang
