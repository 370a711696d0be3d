import ApiTypes.Yaml.Timestamp

/-!
What a plain scalar means. Its text decides between null, truth values, integers, floating-point
numbers, points in time and texts; an explicit tag may only confirm what the text says, except
that an integer may be tagged as a floating-point number and anything as a text.
-/

namespace ApiTypes.Yaml

/-- The meaning of a scalar. -/
inductive Atom where
  | null
  | bool (b : Bool)
  | int (n : Int)
  | float (x : Binary64)
  | time (t : Timestamp)
  | text (s : String)
  deriving DecidableEq

/-- The tag that an atom gets from its text. -/
def Atom.tag : Atom → String
  | .null => "!!null"
  | .bool _ => "!!bool"
  | .int _ => "!!int"
  | .float _ => "!!float"
  | .time _ => "!!timestamp"
  | .text _ => "!!str"

/-- The value of a digit in a base up to 36. -/
def digitValue? (base : Nat) (c : Char) : Option Nat :=
  let n :=
    if '0' ≤ c && c ≤ '9' then some (c.toNat - '0'.toNat)
    else if 'a' ≤ c && c ≤ 'z' then some (c.toNat - 'a'.toNat + 10)
    else if 'A' ≤ c && c ≤ 'Z' then some (c.toNat - 'A'.toNat + 10)
    else none
  n.filter (· < base)

/-- The value of a non-empty run of digits in a base. -/
def digitsIn? (base : Nat) (cs : List Char) : Option Nat :=
  if cs.isEmpty then none
  else cs.foldlM (fun n c => (digitValue? base c).map (n * base + ·)) 0

/-- The base that the start of a number announces, and the digits after it. -/
def basedDigits? : List Char → Option Nat
  | '0' :: c :: rest =>
    if c = 'x' || c = 'X' then digitsIn? 16 rest
    else if c = 'o' || c = 'O' then digitsIn? 8 rest
    else if c = 'b' || c = 'B' then digitsIn? 2 rest
    else digitsIn? 8 (c :: rest)
  | cs => digitsIn? 10 cs

/-- Keeps integers that fit 64 bits with a sign. -/
def fitsInt64 (n : Int) : Bool := -(twoTo 63 : Int) ≤ n && n < (twoTo 63 : Int)

/-- Applies a reader of natural numbers after an optional sign. -/
def signed? (read : List Char → Option Nat) (cs : List Char) : Option Int :=
  let (negative, digits) := DecimalText.readSign cs
  ((read digits).map fun n => if negative then -(n : Int) else n).filter fitsInt64

/-- An integer: with a sign it has to fit 64 bits with sign, without one 64 bits. -/
def readInt? (cs : List Char) : Option Int :=
  (signed? basedDigits? cs).orElse fun _ =>
    ((basedDigits? cs).filter (· < twoTo 64)).map Int.ofNat

/-- An integer whose base is marked by a small letter in front of the sign. -/
def readMarkedInt? (cs : List Char) : Option Int :=
  match cs with
  | '0' :: 'b' :: rest => marked 2 rest
  | '0' :: 'o' :: rest => marked 8 rest
  | '-' :: '0' :: 'b' :: rest => signed? (digitsIn? 2) ('-' :: rest)
  | '-' :: '0' :: 'o' :: rest => signed? (digitsIn? 8) ('-' :: rest)
  | _ => none
where
  marked (base : Nat) (rest : List Char) : Option Int :=
    (signed? (digitsIn? base) rest).orElse fun _ =>
      ((digitsIn? base rest).filter (· < twoTo 64)).map Int.ofNat

/-- A decimal number in range. -/
def readFloat? (cs : List Char) : Option Binary64 :=
  ((DecimalText.read? cs).map DecimalText.toBinary64).filter Binary64.isFinite

/-- Whether underscores stand only between digits. -/
def underscoresSeparate : Bool → List Char → Bool
  | _, [] => true
  | afterDigit, '_' :: rest =>
    afterDigit && rest.head?.any DecimalText.isDigit && underscoresSeparate false rest
  | _, c :: rest => underscoresSeparate (DecimalText.isDigit c) rest

/-- Texts that mean one value whatever else a scalar may be. -/
def constants : List (String × Atom) :=
  let is (atom : Atom) (texts : List String) := texts.map fun s => (s, atom)
  is (.bool true) ["true", "True", "TRUE"] ++ is (.bool false) ["false", "False", "FALSE"] ++
    is .null ["", "~", "null", "Null", "NULL"] ++ is (.float .nan) [".nan", ".NaN", ".NAN"] ++
    is (.float (.infinite false)) [".inf", ".Inf", ".INF", "+.inf", "+.Inf", "+.INF"] ++
    is (.float (.infinite true)) ["-.inf", "-.Inf", "-.INF"]

/-- A number or a point in time, for texts that start with a digit or a sign. -/
def readNumeric? (timeAllowed : Bool) (cs : List Char) : Option Atom :=
  let plain := cs.filter (· ≠ '_')
  let time := if timeAllowed then (Timestamp.read? cs).map Atom.time else none
  time.orElse fun _ => ((readInt? plain).map Atom.int).orElse fun _ =>
    ((readFloat? plain).map Atom.float).orElse fun _ => (readMarkedInt? plain).map Atom.int

/-- The meaning of an untagged plain scalar. With `timeAllowed` off no text is a point in time. -/
def atomOf (timeAllowed : Bool) (s : String) : Atom :=
  match constants.find? (·.1 == s) with
  | some (_, atom) => atom
  | none =>
    let cs := s.toList
    match cs with
    | '.' :: _ =>
      if underscoresSeparate false cs then
        ((readFloat? (cs.filter (· ≠ '_'))).map Atom.float).getD (.text s)
      else .text s
    | c :: _ =>
      if DecimalText.isDigit c || c = '+' || c = '-' then
        (readNumeric? timeAllowed cs).getD (.text s)
      else .text s
    | [] => .text s

/-- The meaning of a scalar with a tag. Tags outside the core set leave the text as it is; nothing
comes out when the text does not have the form that the tag asks for. -/
def atomWithTag? (tag : String) (s : String) : Option Atom :=
  if tag = "!!str" then some (.text s)
  else if ["!!bool", "!!int", "!!float", "!!null", "!!timestamp"].contains tag then
    let atom := atomOf (tag = "!!timestamp") s
    if atom.tag = tag then some atom
    else
      match tag, atom with
      | "!!float", .int n => if fitsInt64 n then some (.float (Binary64.ofInt n)) else none
      | _, _ => none
  else some (.text s)

end ApiTypes.Yaml
