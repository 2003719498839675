import ScalarLang.Syntax.Tree
import ScalarLang.Table

/-! The signatures of all functions that were declared or defined so far, by name. A later unit
calls a function of an earlier one by the signature found here. -/

namespace ScalarLang

abbrev Registry := Table String Prototype

namespace Registry

/-- Records a prototype under its name. -/
def record (r : Registry) (proto : Prototype) : Registry := r.insert proto.name proto

/-- Undoes a record, given the prototype that the name had before. -/
def rollback (r : Registry) (name : String) (previous : Option Prototype) : Registry :=
  r.restore name previous

theorem rollback_record (r : Registry) (proto : Prototype) :
    (r.record proto).rollback proto.name (r.find? proto.name) = r :=
  r.restore_insert proto.name proto

end Registry

end ScalarLang
