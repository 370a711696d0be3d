import ApiTypes.TypeExpr.Printer

/-!
Unions and intersections of types. Parts that are themselves of the same kind are taken apart one
level deep, a simple part that reads like an earlier one is dropped, no part at all is the empty
type, and a single part needs no operator.
-/

namespace ApiTypes

namespace TypeExpr

/-- Types that are told apart by their text: keywords, literals, references and accesses. -/
def isSimple : TypeExpr → Bool
  | .keyword _ | .literal _ | .ref _ _ | .access _ _ => true
  | _ => false

/-- Drops each simple type whose text is in `seen` or is the text of an earlier simple type. -/
def dedupe (seen : List String) : List TypeExpr → List TypeExpr
  | [] => []
  | t :: rest =>
    if t.isSimple then
      if seen.contains t.render then dedupe seen rest
      else t :: dedupe (t.render :: seen) rest
    else t :: dedupe seen rest

/-- The members of a union; any other type is its own only member. -/
def unionMembers : TypeExpr → List TypeExpr
  | .union types => types
  | t => [t]

/-- The members of an intersection; any other type is its own only member. -/
def intersectionMembers : TypeExpr → List TypeExpr
  | .intersection types => types
  | t => [t]

/-- The union of types of which none is a union to be taken apart. -/
def joinUnion (flat : List TypeExpr) : TypeExpr :=
  match dedupe [] flat with
  | [] => never
  | [t] => t
  | flat => .union flat

/-- The intersection of types of which none is an intersection to be taken apart. -/
def joinIntersection (flat : List TypeExpr) : TypeExpr :=
  match dedupe [] flat with
  | [] => never
  | [t] => t
  | flat => .intersection flat

/-- The union of some types. -/
def unionOf (types : List TypeExpr) : TypeExpr := joinUnion (types.flatMap unionMembers)

/-- The intersection of some types. -/
def intersectionOf (types : List TypeExpr) : TypeExpr :=
  joinIntersection (types.flatMap intersectionMembers)

/-- The type without the given keys. -/
def without (t : TypeExpr) (keys : List String) : TypeExpr :=
  .ref "Omit" [t, unionOf (keys.map ofText)]

end TypeExpr

namespace Decl

/-- Takes pieces apart and joins them to a type again. A single piece stays what it is, so it need
not be a type. -/
def compose (members : TypeExpr → List TypeExpr) (joined : List TypeExpr → TypeExpr)
    (pieces : List Decl) : Except String Decl :=
  let flat := pieces.flatMap fun
    | .expression type => (members type).map .expression
    | piece => [piece]
  match flat with
  | [piece] => .ok piece
  | flat => (flat.mapM toType).map fun types => .expression (joined types)

/-- The union of some pieces. -/
def unionOf : List Decl → Except String Decl := compose TypeExpr.unionMembers TypeExpr.joinUnion

/-- The intersection of some pieces. -/
def intersectionOf : List Decl → Except String Decl :=
  compose TypeExpr.intersectionMembers TypeExpr.joinIntersection

end Decl

end ApiTypes
