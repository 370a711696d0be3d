/-!
Bytes in base 64: three bytes in four digits, with equals signs in place of the digits that the
last bytes do not need.
-/

namespace ApiTypes.Text.Base64

/-- The value of a digit. -/
def digitValue? (c : Char) : Option Nat :=
  if 'A' ≤ c && c ≤ 'Z' then some (c.toNat - 65)
  else if 'a' ≤ c && c ≤ 'z' then some (c.toNat - 71)
  else if '0' ≤ c && c ≤ '9' then some (c.toNat + 4)
  else if c = '+' then some 62
  else if c = '/' then some 63
  else none

/-- The digit of a value below 64. -/
def digit (n : Nat) : Char :=
  if n < 26 then Char.ofNat (n + 65)
  else if n < 52 then Char.ofNat (n + 71)
  else if n < 62 then Char.ofNat (n - 4)
  else if n = 62 then '+'
  else '/'

/-- The bytes that digits stand for. Bits that are left over do not count. -/
def decode? : List Char → Option (List Nat)
  | [] => some []
  | [a, b, '=', '='] => do
    let n := (← digitValue? a) * 64 + (← digitValue? b)
    some [n / 16]
  | [a, b, c, '='] => do
    let n := ((← digitValue? a) * 64 + (← digitValue? b)) * 64 + (← digitValue? c)
    some [n / 1024, n / 4 % 256]
  | a :: b :: c :: d :: rest => do
    let n := (((← digitValue? a) * 64 + (← digitValue? b)) * 64 + (← digitValue? c)) * 64 +
      (← digitValue? d)
    some (n / 65536 :: n / 256 % 256 :: n % 256 :: (← decode? rest))
  | _ => none

/-- The digits of some bytes. -/
def encode : List Nat → List Char
  | [] => []
  | [a] => [digit (a / 4), digit (a % 4 * 16), '=', '=']
  | [a, b] => [digit (a / 4), digit (a % 4 * 16 + b / 16), digit (b % 16 * 4), '=']
  | a :: b :: c :: rest =>
    digit (a / 4) :: digit (a % 4 * 16 + b / 16) :: digit (b % 16 * 4 + c / 64) ::
      digit (c % 64) :: encode rest

end ApiTypes.Text.Base64
