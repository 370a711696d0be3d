import ApiTypes.Decimal.Shortest
import ApiTypes.Yaml.Timestamp

/-!
Free values: what a document gives where any value may stand, such as defaults, examples, constants
and extensions.
-/

namespace ApiTypes.Yaml

/-- A free value. A `dict` has texts as keys, a `table` arbitrary ones; neither has a key twice. -/
inductive Value where
  | null
  | bool (b : Bool)
  | int (n : Int)
  | float (x : Binary64)
  | text (s : String)
  | time (t : Timestamp)
  | list (items : List Value)
  | dict (entries : List (String × Value))
  | table (entries : List (Value × Value))
  deriving Inhabited

namespace Value

mutual

/-- Whether two values are of one kind and equal part by part. -/
def beq : Value → Value → Bool
  | .null, .null => true
  | .bool a, .bool b => a == b
  | .int a, .int b => a == b
  | .float a, .float b => a == b
  | .text a, .text b => a == b
  | .time a, .time b => a == b
  | .list as, .list bs => beqItems as bs
  | .dict as, .dict bs => beqEntries as bs
  | .table as, .table bs => beqPairs as bs
  | _, _ => false

def beqItems : List Value → List Value → Bool
  | [], [] => true
  | a :: as, b :: bs => a.beq b && beqItems as bs
  | _, _ => false

def beqEntries : List (String × Value) → List (String × Value) → Bool
  | [], [] => true
  | (j, a) :: as, (k, b) :: bs => j == k && a.beq b && beqEntries as bs
  | _, _ => false

def beqPairs : List (Value × Value) → List (Value × Value) → Bool
  | [], [] => true
  | (j, a) :: as, (k, b) :: bs => j.beq k && a.beq b && beqPairs as bs
  | _, _ => false

end

instance : BEq Value := ⟨beq⟩

/-- Whether two values are the same key. An undefined number is not even the same as itself, the
two zeros are the same, and points in time are the same only in universal time. -/
def isSameKey : Value → Value → Bool
  | .float a, .float b => !(a == .nan) && (a == b || (isZero a && isZero b))
  | .time a, .time b => a.offset = 0 && a = b
  | a, b => a == b
where
  isZero : Binary64 → Bool
    | .finite _ 0 _ => true
    | _ => false

/-- Orders values: null first, then whole numbers too large for a signed word, other whole numbers,
other numbers, truth values and texts, and each of these kinds in its own order. Points in time go
by the fraction of the second first. -/
def precedes : Value → Value → Bool
  | .int a, .int b => if rank (.int a) = rank (.int b) then a ≤ b else b ≤ a
  | .bool a, .bool b => !a || b
  | .float a, .float b => floatLE a b
  | .text a, .text b => a ≤ b
  | .time a, .time b =>
    a.nanos < b.nanos || (a.nanos = b.nanos && a.universalSeconds ≤ b.universalSeconds)
  | a, b => rank a ≤ rank b
where
  rank : Value → Nat
    | .null => 0
    | .int n => if (twoTo 63 : Int) ≤ n then 1 else 2
    | .float _ => 3
    | .bool _ => 4
    | .text _ => 5
    | _ => 6
  /-- The order of numbers, with the undefined number first. -/
  floatLE : Binary64 → Binary64 → Bool
    | .nan, _ => true
    | _, .nan => false
    | .infinite a, b => a || b == .infinite false
    | .finite .., .infinite b => !b
    | .finite a m e, .finite b n f =>
      let low := min e f
      let scale (negative : Bool) (m : Nat) (e : Int) : Int :=
        let size : Int := (m * twoTo (e - low).toNat : Nat)
        if negative then -size else size
      scale a m e ≤ scale b n f

mutual

/-- A short description of a value, as it appears inside texts: blanks between the parts of lists
and maps, maps ordered by key. -/
def describe : Value → String
  | .null => "<nil>"
  | .bool b => if b then "true" else "false"
  | .int n => toString n
  | .float x => x.render Binary64.compactLayout
  | .text s => s
  | .time t => t.describe
  | .list items => "[" ++ Text.join " " (describeAll items) ++ "]"
  | .dict entries =>
    let parts := (describeDict entries).mergeSort fun a b => a.1 ≤ b.1
    "map[" ++ Text.join " " (parts.map fun (key, value) => key ++ ":" ++ value) ++ "]"
  | .table entries =>
    let parts := (describeTable entries).mergeSort fun a b => a.1.precedes b.1
    "map[" ++ Text.join " " (parts.map fun (_, part) => part) ++ "]"

def describeAll : List Value → List String
  | [] => []
  | value :: rest => value.describe :: describeAll rest

def describeDict : List (String × Value) → List (String × String)
  | [] => []
  | (key, value) :: rest => (key, value.describe) :: describeDict rest

def describeTable : List (Value × Value) → List (Value × String)
  | [] => []
  | (key, value) :: rest => (key, key.describe ++ ":" ++ value.describe) :: describeTable rest

end

end Value

end ApiTypes.Yaml
