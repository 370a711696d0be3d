/-!
Texts as bytes, for the escapes that name bytes and not characters. A text is a sequence of bytes,
most of which make up characters. A byte that is part of no character is kept as a character of an
area set aside for such bytes, and a character of that area is kept as the bytes it has, so that
different bytes are always different texts.
-/

namespace ApiTypes.Text

/-- The first character of the area for bytes that are part of no character. -/
def strayArea : Nat := 0x10F700

/-- The character that keeps a byte. -/
def strayByte (byte : Nat) : Char := Char.ofNat (strayArea + byte)

/-- The byte that a character keeps, if it is one of the area. -/
def strayByte? (c : Char) : Option Nat :=
  if strayArea + 128 ≤ c.toNat && c.toNat < strayArea + 256 then some (c.toNat - strayArea)
  else none

/-- The bytes of a character as it is. -/
def utf8Bytes (c : Char) : List Nat := (String.utf8EncodeChar c).map UInt8.toNat

/-- The bytes of a character of a text. -/
def bytesOf (c : Char) : List Nat :=
  match strayByte? c with
  | some byte => [byte]
  | none => utf8Bytes c

/-- The number of bytes that characters take. -/
def byteCount : List Char → Nat
  | [] => 0
  | c :: rest => (if (strayByte? c).isSome then 1 else c.utf8Size) + byteCount rest

/-- The length of a text in bytes. -/
def byteLength (s : String) : Nat := byteCount s.toList

/-- What bytes are made up of. -/
inductive Piece where
  | char (c : Char)
  /-- A byte that is part of no character. -/
  | stray (byte : Nat)
  deriving DecidableEq, Repr

/-- The number that the lower six bits of a byte inside a character give. -/
def continuation? (byte : Nat) : Option Nat := if byte / 64 = 2 then some (byte % 64) else none

/-- The character at the front of the bytes and its length. -/
def frontChar? : List Nat → Option (Char × Nat)
  | a :: rest =>
    if a < 128 then some (Char.ofNat a, 1)
    else
      match rest with
      | b :: more => do
        let b ← continuation? b
        if a / 32 = 6 then
          let n := a % 32 * 64 + b
          if 128 ≤ n then some (Char.ofNat n, 2) else none
        else
          match more with
          | c :: more => do
            let c ← continuation? c
            if a / 16 = 14 then
              let n := (a % 16 * 64 + b) * 64 + c
              if 2048 ≤ n && n.isValidChar then some (Char.ofNat n, 3) else none
            else
              match more with
              | d :: _ => do
                let d ← continuation? d
                let n := ((a % 8 * 64 + b) * 64 + c) * 64 + d
                if a / 8 = 30 && 65536 ≤ n && n.isValidChar then some (Char.ofNat n, 4) else none
              | [] => none
          | [] => none
      | [] => none
  | [] => none

/-- The pieces of some bytes. Each piece takes a byte, so their number is enough as a number of
steps. -/
def piecesWithin : (steps : Nat) → List Nat → List Piece
  | steps + 1, byte :: rest =>
    match frontChar? (byte :: rest) with
    | some (c, length) => .char c :: piecesWithin steps ((byte :: rest).drop length)
    | none => .stray byte :: piecesWithin steps rest
  | _, _ => []

def piecesOf (bytes : List Nat) : List Piece := piecesWithin bytes.length bytes

def hasStray (s : String) : Bool := s.toList.any fun c => (strayByte? c).isSome

/-- The pieces of a text. -/
def pieces (s : String) : List Piece :=
  if hasStray s then piecesOf (s.toList.flatMap bytesOf) else s.toList.map .char

/-- The characters of a text that keep a piece. -/
def Piece.kept : Piece → List Char
  | .stray byte => [strayByte byte]
  | .char c => if (strayByte? c).isSome then (utf8Bytes c).map strayByte else [c]

/-- The text in some bytes. -/
def ofBytes (bytes : List Nat) : String := String.ofList ((piecesOf bytes).flatMap Piece.kept)

/-- The text that some plain characters make up. -/
def ofPlain (s : String) : String :=
  if hasStray s then String.ofList (s.toList.flatMap fun c => (Piece.char c).kept) else s

/-- A text as plain characters: a byte that is part of no character shows as the replacement
character. -/
def toPlain (s : String) : String :=
  if hasStray s then
    String.ofList ((pieces s).map fun
      | .char c => c
      | .stray _ => Char.ofNat 0xFFFD)
  else s

/-- The text with a replacement character in place of each byte that is part of no character. -/
def repaired (s : String) : String := if hasStray s then ofPlain (toPlain s) else s

/-- Whether all bytes of a text are part of characters. -/
def isWellFormed (s : String) : Bool :=
  (pieces s).all fun
    | .char _ => true
    | .stray _ => false

/-- The value of a hexadecimal digit. -/
def hexDigitValue? (c : Char) : Option Nat :=
  if '0' ≤ c && c ≤ '9' then some (c.toNat - '0'.toNat)
  else if 'a' ≤ c && c ≤ 'f' then some (c.toNat - 'a'.toNat + 10)
  else if 'A' ≤ c && c ≤ 'F' then some (c.toNat - 'A'.toNat + 10)
  else none

/-- The bytes of a text in which percent signs start escaped bytes. -/
def percentBytes? : List Char → Option (List Nat)
  | [] => some []
  | '%' :: a :: b :: rest => do
    let high ← hexDigitValue? a
    let low ← hexDigitValue? b
    let bytes ← percentBytes? rest
    some ((high * 16 + low) :: bytes)
  | '%' :: _ => none
  | c :: rest => (percentBytes? rest).map (bytesOf c ++ ·)

/-- Replaces percent escapes by the characters they spell. Nothing comes out when a percent sign is
not followed by two hexadecimal digits. -/
def percentDecode? (s : String) : Option String :=
  if s.toList.contains '%' then (percentBytes? s.toList).map ofBytes else some s

end ApiTypes.Text
