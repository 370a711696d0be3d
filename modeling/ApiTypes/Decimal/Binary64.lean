import ApiTypes.Decimal.Power

/-!
Numbers of double precision. A finite number is `significand * 2 ^ exponent` with a sign; reading
a decimal rounds it to the nearest such number, and a tie goes to the even significand. All of it
is exact arithmetic on natural numbers.
-/

namespace ApiTypes

/-- A number of double precision. In a finite number the significand is below `2 ^ 53`, the
exponent lies between `-1074` and `971`, and a significand below `2 ^ 52` occurs only at the
smallest exponent. -/
inductive Binary64 where
  | nan
  | infinite (negative : Bool)
  | finite (negative : Bool) (significand : Nat) (exponent : Int)
  deriving DecidableEq, Repr, Inhabited

namespace Binary64

/-- A binary format: how many bits a significand has and which exponents it may carry. -/
structure Width where
  bits : Nat
  least : Int
  greatest : Int

def double : Width := ⟨53, -1074, 971⟩

def single : Width := ⟨24, -149, 104⟩

/-- `num / den` as the nearest natural number, a tie going to the even neighbour. -/
def divideToEven (num den : Nat) : Nat :=
  let quotient := num / den
  let rest := num % den
  if 2 * rest < den then quotient
  else if den < 2 * rest then quotient + 1
  else quotient + quotient % 2

/-- The nearest natural number to `num / den / 2 ^ e`. -/
def scaled (num den : Nat) (e : Int) : Nat :=
  if 0 ≤ e then divideToEven num (den * twoTo e.toNat)
  else divideToEven (num * twoTo (-e).toNat) den

/-- The exponent of the highest bit of `num / den`. -/
def floorLog2 (num den : Nat) : Int :=
  let e := (Nat.log2 num : Int) - Nat.log2 den
  let below := if 0 ≤ e then num < den * twoTo e.toNat else num * twoTo (-e).toNat < den
  if below then e - 1 else e

/-- `num / den` rounded to the width. -/
def roundRatio (w : Width) (negative : Bool) (num den : Nat) : Binary64 :=
  if num = 0 then .finite negative 0 w.least
  else
    let e := max (floorLog2 num den - (w.bits - 1 : Nat)) w.least
    let m := scaled num den e
    let (m, e) := if m = twoTo w.bits then (twoTo (w.bits - 1), e + 1) else (m, e)
    if w.greatest < e then .infinite negative else .finite negative m e

/-- `digits * 10 ^ power` rounded to the width. Decimals far outside the range of doubles are
settled by their size alone. -/
def roundDecimal (w : Width) (negative : Bool) (digits : Nat) (power : Int) : Binary64 :=
  let size := (Nat.toDigits 10 digits).length + power
  if digits = 0 ∨ size < -400 then .finite negative 0 w.least
  else if 400 < size then .infinite negative
  else if 0 ≤ power then roundRatio w negative (digits * tenTo power.toNat) 1
  else roundRatio w negative digits (tenTo (-power).toNat)

/-- `significand * 2 ^ exponent`, which has to be representable, in the form of this type. -/
def ofDyadic (negative : Bool) (m : Nat) (e : Int) : Binary64 :=
  if 0 ≤ e then roundRatio double negative (m * twoTo e.toNat) 1
  else roundRatio double negative m (twoTo (-e).toNat)

/-- Reads the value of a single-precision number exactly. -/
def widen : Binary64 → Binary64
  | .finite negative m e => ofDyadic negative m e
  | x => x

def isFinite : Binary64 → Bool
  | .finite .. => true
  | _ => false

/-- The whole part of a finite number, cut toward zero. -/
def truncate? : Binary64 → Option Int
  | .finite negative m e =>
    let whole : Nat := if 0 ≤ e then m * twoTo e.toNat else m / twoTo (-e).toNat
    some (if negative then -(whole : Int) else whole)
  | _ => none

/-- The number an integer is rounded to. -/
def ofInt (n : Int) : Binary64 := roundRatio double (n < 0) n.natAbs 1

end Binary64

/-- A decimal written with digits, at most one point and an optional power of ten. -/
structure DecimalText where
  negative : Bool
  digits : Nat
  power : Int
  deriving DecidableEq, Repr

namespace DecimalText

def isDigit (c : Char) : Bool := '0' ≤ c && c ≤ '9'

/-- The value of a run of digits. -/
def value (cs : List Char) : Nat :=
  cs.foldl (fun n c => n * 10 + (c.toNat - '0'.toNat)) 0

/-- An optional sign and the rest. -/
def readSign : List Char → Bool × List Char
  | '-' :: rest => (true, rest)
  | '+' :: rest => (false, rest)
  | cs => (false, cs)

/-- The power of ten after `e` or `E`, or none at the end of the text. -/
def readPower? : List Char → Option Int
  | [] => some 0
  | c :: rest =>
    let (negative, ds) := readSign rest
    if (c = 'e' || c = 'E') && !ds.isEmpty && ds.all isDigit then
      some (if negative then -(value ds : Int) else value ds)
    else none

/-- Reads a whole text as a decimal: digits with at most one point among or around them, then
maybe a power of ten. -/
def read? (cs : List Char) : Option DecimalText :=
  let (negative, body) := readSign cs
  let whole := body.takeWhile isDigit
  let afterWhole := body.dropWhile isDigit
  let (fraction, afterFraction) :=
    match afterWhole with
    | '.' :: rest => (rest.takeWhile isDigit, rest.dropWhile isDigit)
    | rest => ([], rest)
  if whole.isEmpty && fraction.isEmpty then none
  else (readPower? afterFraction).map fun power =>
    ⟨negative, value (whole ++ fraction), power - fraction.length⟩

/-- The number of double precision nearest to the decimal. -/
def toBinary64 (d : DecimalText) : Binary64 :=
  Binary64.roundDecimal Binary64.double d.negative d.digits d.power

/-- The number of single precision nearest to the decimal. -/
def toSingle (d : DecimalText) : Binary64 :=
  (Binary64.roundDecimal Binary64.single d.negative d.digits d.power).widen

end DecimalText

end ApiTypes
