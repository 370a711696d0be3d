import ApiTypes.Text.Basic
import ApiTypes.Decimal.Binary64

/-!
Points in time as YAML scalars write them: a date, or a date and a time of day with an optional
fraction and zone. Texts for a point in time are made in its own zone or in universal time.
-/

namespace ApiTypes.Yaml

/-- A date, a time of day and the zone they are meant in, as seconds east of universal time. -/
structure Timestamp where
  year : Int
  month : Nat
  day : Nat
  hour : Nat := 0
  minute : Nat := 0
  second : Nat := 0
  nanos : Nat := 0
  offset : Int := 0
  deriving DecidableEq, Repr

namespace Timestamp

def isLeap (year : Int) : Bool := year % 4 = 0 && (year % 100 ≠ 0 || year % 400 = 0)

def daysIn (year : Int) (month : Nat) : Nat :=
  if month = 2 then if isLeap year then 29 else 28
  else if [4, 6, 9, 11].contains month then 30
  else 31

/-- Days since the first of March of the year zero. Counting years from March puts the leap day at
the end of a year. -/
def dayNumber (year : Int) (month day : Nat) : Int :=
  let y := if month ≤ 2 then year - 1 else year
  let m : Int := (month + 9) % 12
  365 * y + y.fdiv 4 - y.fdiv 100 + y.fdiv 400 + (153 * m + 2).fdiv 5 + day - 1

/-- The date with the given day number. -/
def ofDayNumber (n : Int) : Int × Nat × Nat :=
  let era := n.fdiv 146097
  let doe := n - era * 146097
  let yoe := (doe - doe.fdiv 1460 + doe.fdiv 36524 - doe.fdiv 146096).fdiv 365
  let doy := doe - (365 * yoe + yoe.fdiv 4 - yoe.fdiv 100)
  let mp := (5 * doy + 2).fdiv 153
  let day := doy - (153 * mp + 2).fdiv 5 + 1
  let month := if mp < 10 then mp + 3 else mp - 9
  let year := yoe + era * 400 + (if month ≤ 2 then 1 else 0)
  (year, month.toNat, day.toNat)

/-- Whole seconds in universal time since the first of March of the year zero. -/
def universalSeconds (t : Timestamp) : Int :=
  dayNumber t.year t.month t.day * 86400 +
    (t.hour * 3600 + t.minute * 60 + t.second : Nat) - t.offset

/-- The same point in time in another zone. -/
def inZone (t : Timestamp) (offset : Int) : Timestamp :=
  let seconds := t.universalSeconds + offset
  let (year, month, day) := ofDayNumber (seconds.fdiv 86400)
  let rest := (seconds.fmod 86400).toNat
  ⟨year, month, day, rest / 3600, rest / 60 % 60, rest % 60, t.nanos, offset⟩

/-- Writes a number with at least `width` digits. -/
def padded (width n : Nat) : String :=
  let digits := Nat.toDigits 10 n
  String.ofList (List.replicate (width - digits.length) '0' ++ digits)

/-- The fraction of the second after a point, without zeros at its end. -/
def fraction (t : Timestamp) : String :=
  if t.nanos = 0 then ""
  else "." ++ Text.trimEnd (· = '0') (padded 9 t.nanos)

def date (t : Timestamp) : String :=
  padded 4 t.year.toNat ++ "-" ++ padded 2 t.month ++ "-" ++ padded 2 t.day

def clock (t : Timestamp) : String :=
  padded 2 t.hour ++ ":" ++ padded 2 t.minute ++ ":" ++ padded 2 t.second ++ t.fraction

/-- The point in time in universal time, in one word. -/
def universal (t : Timestamp) : String :=
  let u := t.inZone 0
  u.date ++ "T" ++ u.clock ++ "Z"

/-- The point in time in its own zone, with blanks between date, time, offset and zone name. A
zone without a name is named by its offset. -/
def describe (t : Timestamp) : String :=
  let minutes := t.offset.natAbs / 60
  let offset := (if t.offset < 0 then "-" else "+") ++ padded 2 (minutes / 60) ++
    padded 2 (minutes % 60)
  t.date ++ " " ++ t.clock ++ " " ++ offset ++ " " ++ (if t.offset = 0 then "UTC" else offset)

/-- Reads one or two digits. -/
def number? : List Char → Option (Nat × List Char)
  | a :: b :: rest =>
    if !DecimalText.isDigit a then none
    else if DecimalText.isDigit b then some (DecimalText.value [a, b], rest)
    else some (DecimalText.value [a], b :: rest)
  | [a] => if DecimalText.isDigit a then some (DecimalText.value [a], []) else none
  | [] => none

/-- Reads one or two digits of a number below `bound`. -/
def numberBelow? (bound : Nat) (cs : List Char) : Option (Nat × List Char) :=
  (number? cs).filter (·.1 < bound)

/-- Reads the given character. -/
def expect? (c : Char) : List Char → Option (List Char)
  | d :: rest => if c = d then some rest else none
  | [] => none

/-- Reads the fraction of a second, in billionths; digits past the ninth are dropped. -/
def readFraction : List Char → Nat × List Char
  | c :: d :: rest =>
    if (c = '.' || c = ',') && DecimalText.isDigit d then
      let digits := (d :: rest).takeWhile DecimalText.isDigit
      let first := digits.take 9
      (DecimalText.value first * tenTo (9 - first.length),
        (d :: rest).dropWhile DecimalText.isDigit)
    else (0, c :: d :: rest)
  | cs => (0, cs)

/-- Reads the zone at the end of a text: the mark of universal time, or a signed offset. -/
def readZone? : List Char → Option Int
  | ['Z'] => some 0
  | [sign, h, i, ':', m, n] =>
    if [h, i, m, n].all DecimalText.isDigit then
      let hours := DecimalText.value [h, i]
      let minutes := DecimalText.value [m, n]
      if 24 < hours || 60 < minutes then none
      else if sign = '+' then some ((hours * 60 + minutes) * 60 : Nat)
      else if sign = '-' then some (-((hours * 60 + minutes) * 60 : Nat))
      else none
    else none
  | _ => none

/-- Reads a date: four digits, then month and day with one or two digits each. -/
def readDate? (cs : List Char) : Option (Timestamp × List Char) := do
  let digits := cs.takeWhile DecimalText.isDigit
  if digits.length ≠ 4 then none
  let rest ← expect? '-' (cs.drop 4)
  let (month, rest) ← numberBelow? 13 rest
  let (day, rest) ← (expect? '-' rest).bind number?
  let year : Int := DecimalText.value digits
  if month = 0 || day = 0 || daysIn year month < day then none
  some ({ year, month, day }, rest)

/-- Reads hours, minutes and seconds with one or two digits each, and a fraction. -/
def readClock? (t : Timestamp) (cs : List Char) : Option (Timestamp × List Char) := do
  let (hour, rest) ← numberBelow? 24 cs
  let (minute, rest) ← (expect? ':' rest).bind (numberBelow? 60)
  let (second, rest) ← (expect? ':' rest).bind (numberBelow? 60)
  let (nanos, rest) := readFraction rest
  some ({ t with hour, minute, second, nanos }, rest)

/-- Reads a whole text as a point in time. Without a zone it is meant in universal time; a zone is
required after a `T` and refused after a blank. -/
def read? (cs : List Char) : Option Timestamp := do
  let (t, rest) ← readDate? cs
  match rest with
  | [] => some t
  | c :: clock =>
    if c = 'T' || c = 't' then do
      let (t, zone) ← readClock? t clock
      let offset ← readZone? zone
      some { t with offset }
    else if c = ' ' then do
      let (t, rest) ← readClock? t (clock.dropWhile (· = ' '))
      if rest.isEmpty then some t else none
    else none

end Timestamp

end ApiTypes.Yaml
