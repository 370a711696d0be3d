import ApiTypes.Decimal.Binary64

/-!
The text of a number of double precision: the fewest digits that read back as the same number,
and of those the nearest. For one digit, two digits and so on, the two neighbours of the number
on that decimal grid are tested; the first grid on which one of them lies in the interval of
values that round to the number gives the digits.
-/

namespace ApiTypes.Binary64

/-- A positive decimal `digits * 10 ^ power`. -/
structure Digits where
  digits : Nat
  power : Int
  deriving DecidableEq, Repr

/-- `a * 10 ^ power` and `b * den` on a common scale, for comparing `a * 10 ^ power` with
`b / den`. -/
def aligned (a : Nat) (power : Int) (b den : Nat) : Nat × Nat :=
  if 0 ≤ power then (a * tenTo power.toNat * den, b)
  else (a * den, b * tenTo (-power).toNat)

/-- The values between `low / den` and `high / den`, the ends included or not, that round to
`mid / den`. -/
structure Interval where
  low : Nat
  mid : Nat
  high : Nat
  den : Nat
  closed : Bool

/-- The values that round to `m * 2 ^ e`. The gap below a power of two is half the gap above. -/
def interval (m : Nat) (e : Int) : Interval :=
  let low := if m = twoTo 52 ∧ -1074 < e then 4 * m - 1 else 4 * m - 2
  let up := if 2 ≤ e then twoTo (e - 2).toNat else 1
  let den := if 2 ≤ e then 1 else twoTo (2 - e).toNat
  ⟨low * up, 4 * m * up, (4 * m + 2) * up, den, m % 2 = 0⟩

/-- Whether `a * 10 ^ power` rounds to the middle of the interval. -/
def Interval.holds (i : Interval) (a : Nat) (power : Int) : Bool :=
  let (x, low) := aligned a power i.low i.den
  let (_, high) := aligned a power i.high i.den
  if i.closed then low ≤ x && x ≤ high else low < x && x < high

/-- The largest `s` for which `s * 10 ^ power` does not exceed the middle. -/
def Interval.below (i : Interval) (power : Int) : Nat :=
  if 0 ≤ power then i.mid / (i.den * tenTo power.toNat)
  else i.mid * tenTo (-power).toNat / i.den

/-- Whether the upper of the two neighbours `s` and `s + 1` is the nearer one; a tie goes to the
even one. -/
def Interval.upperNearer (i : Interval) (s : Nat) (power : Int) : Bool :=
  let (twice, mid) := aligned (2 * s + 1) power (2 * i.mid) i.den
  if twice = mid then s % 2 = 1 else twice < mid

/-- The neighbour of the middle on the grid of multiples of `10 ^ power` that rounds to it. -/
def Interval.onGrid? (i : Interval) (power : Int) : Option Digits :=
  let s := i.below power
  match i.holds s power && 0 < s, i.holds (s + 1) power with
  | true, true => some ⟨if i.upperNearer s power then s + 1 else s, power⟩
  | true, false => some ⟨s, power⟩
  | false, true => some ⟨s + 1, power⟩
  | false, false => none

/-- How many digits stand before the point of the middle; at most zero below one tenth. -/
def Interval.magnitude (i : Interval) : Int :=
  let e : Int := (Nat.toDigits 10 i.mid).length - (Nat.toDigits 10 i.den).length
  let (power, mid) := aligned 1 e i.mid i.den
  if mid < power then e else e + 1

/-- The first of `count` grids, from `power` downward, that gives digits. -/
def Interval.search (i : Interval) (power : Int) : Nat → Digits
  | 0 => ⟨i.below power, power⟩
  | count + 1 =>
    match i.onGrid? power with
    | some d => d
    | none => i.search (power - 1) count

/-- Moves zeros at the end of the digits into the power. -/
def Digits.normalize (d : Digits) : Digits :=
  let ds := Nat.toDigits 10 d.digits
  let zeros := (ds.reverse.takeWhile (· = '0')).length
  if zeros < ds.length then ⟨d.digits / tenTo zeros, d.power + zeros⟩ else d

/-- The fewest digits that read back as the positive number `m * 2 ^ e`. -/
def shortest (m : Nat) (e : Int) : Digits :=
  let i := interval m e
  (i.search (i.magnitude - 1) 17).normalize

/-- Digits with the point at its place and no power of ten. -/
def Digits.positional (d : Digits) : String :=
  let ds := Nat.toDigits 10 d.digits
  if 0 ≤ d.power then String.ofList (ds ++ List.replicate d.power.toNat '0')
  else
    let places := (-d.power).toNat
    if places < ds.length then
      String.ofList (ds.take (ds.length - places) ++ '.' :: ds.drop (ds.length - places))
    else String.ofList ('0' :: '.' :: List.replicate (places - ds.length) '0' ++ ds)

/-- The power of ten of the first digit. -/
def Digits.leading (d : Digits) : Int :=
  (Nat.toDigits 10 d.digits).length - 1 + d.power

/-- One digit before the point and a signed power of ten with at least two digits. -/
def Digits.scientific (d : Digits) : String :=
  let power := d.leading
  let body :=
    match Nat.toDigits 10 d.digits with
    | [] => []
    | [c] => [c]
    | c :: rest => c :: '.' :: rest
  let size := Nat.toDigits 10 power.natAbs
  let padded := if size.length < 2 then '0' :: size else size
  String.ofList (body ++ 'e' :: (if power < 0 then '-' else '+') :: padded)

/-- Where a layout leaves positional digits: below `10 ^ least`, or from `10 ^ bound` on. -/
structure Layout where
  least : Option Int
  bound : Int

/-- Writes a number: its sign, then its shortest digits as the layout says. -/
def render (layout : Layout) : Binary64 → String
  | .nan => "NaN"
  | .infinite negative => if negative then "-Inf" else "+Inf"
  | .finite negative m e =>
    let body :=
      if m = 0 then "0"
      else
        let d := shortest m e
        if layout.least.any (d.leading < ·) || layout.bound ≤ d.leading then d.scientific
        else d.positional
    if negative then "-" ++ body else body

/-- Number literals are positional below `10 ^ 21`, however small they are. -/
def literalLayout : Layout := ⟨none, 21⟩

/-- Numbers inside other values are positional from `10 ^ -4` up to a million. -/
def compactLayout : Layout := ⟨some (-4), 6⟩

end ApiTypes.Binary64
