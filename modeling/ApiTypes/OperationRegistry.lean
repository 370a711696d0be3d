import ApiTypes.OrderedMap
import ApiTypes.TypeExpr.Basic

/-!
Operations by their id. An id keeps the place of its first registration; a later one replaces the
content.
-/

namespace ApiTypes

/-- An operation that is declared under its id. -/
structure OperationEntry where
  id : String
  type : TypeExpr
  doc : List String := []
  /-- The pointer of the path item that declares the operation. -/
  place : String := ""
  method : String := ""
  deriving Inhabited

/-- The operations declared so far. -/
abbrev OperationRegistry := OrderedMap OperationEntry

namespace OperationRegistry

/-- Stores an entry. The entry it takes the place of is reported if it was declared elsewhere. -/
def register (r : OperationRegistry) (e : OperationEntry) :
    Option OperationEntry × OperationRegistry :=
  let earlier := (r.get? e.id).filter fun old => old.place ≠ e.place || old.method ≠ e.method
  (earlier, r.set e.id e)

end OperationRegistry

end ApiTypes
