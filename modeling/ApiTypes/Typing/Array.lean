import ApiTypes.Typing.Basic

/-!
Arrays with bounds on their length, as tuples.
-/

namespace ApiTypes

/-- The bounds on the number of items that count: no negative one, and no upper bound below the
lower one. -/
def lengthBounds (s : Schema) : Int × Option Int :=
  let low := (s.minItems.filter (0 ≤ ·)).getD 0
  (low, s.maxItems.filter fun high => 0 ≤ high && low ≤ high)

/-- How many elements all tuples between the bounds have together, in 64-bit arithmetic. -/
def expandedSize (low : Int) : Option Int → Int
  | none => low
  | some high => (Int.bmod (high * (high + 1) - low * (low - 1)) (twoTo 64)).tdiv 2

/-- More entries than any list can have. -/
def lengthLimit : Int := twoTo 44

/-- `n` times the same type. -/
def repeated (item : TypeExpr) (n : Int) : Except TypingError (List TypeExpr) :=
  if lengthLimit < n then .error .oversizedTuple else .ok (List.replicate n.toNat item)

/-- A tuple type, read-only on demand. -/
def tupleOf (immutable : Bool) (elems : List TypeExpr) : TypeExpr :=
  if immutable then .readonly (.tuple elems) else .tuple elems

/-- The tuple type with `n` times the same element. -/
def repeatedTuple (item : TypeExpr) (immutable : Bool) (n : Int) : Except TypingError TypeExpr :=
  tupleOf immutable <$> repeated item n

/-- The lengths between two bounds. -/
def lengthsBetween (low high : Int) : List Int :=
  (List.range (high - low + 1).toNat).map fun i : Nat => low + Int.ofNat i

/-- One tuple for each length up to the upper bound, or one with an open end. -/
def tuplesBetween (item : TypeExpr) (immutable : Bool) (low : Int) :
    Option Int → Except TypingError TypeExpr
  | none =>
    (fun elems => tupleOf immutable (elems ++ [.spread (.array item)])) <$> repeated item low
  | some high =>
    if low = high then repeatedTuple item immutable low
    else if lengthLimit < high - low + 1 then .error .oversizedTuple
    else .unionOf <$> (lengthsBetween low high).mapM (repeatedTuple item immutable)

/-- Expands bounds on the number of items into tuples, as long as those have few elements
together. -/
def fixedLength (s : Schema) (item : TypeExpr) (immutable : Bool) :
    Except TypingError (Option TypeExpr) :=
  let (low, high) := lengthBounds s
  if low = 0 && high.isNone || 30 ≤ expandedSize low high then .ok none
  else some <$> tuplesBetween item immutable low high

/-- The type of an array without bounds; a tuple type is the array itself. -/
def plainArray (item : TypeExpr) (immutable : Bool) : TypeExpr :=
  let array := match item with
    | .tuple _ => item
    | _ => .array item
  if immutable then .readonly array else array

/-- The type of an array whose items have the type `item`. -/
def arrayType (s : Schema) (item : TypeExpr) (options : Options) : Except TypingError TypeExpr := do
  if options.arrayLength then
    if let some t ← fixedLength s item options.immutable then return t
  return plainArray item options.immutable

end ApiTypes
