import ApiTypes.Text.Bytes
import ApiTypes.Text.Words
import ApiTypes.Decimal.Shortest

/-!
How names and texts stand in generated declarations: string literals in double quotes, property
keys bare where the language allows it, and the fixed parts of template literals.
-/

namespace ApiTypes.Text

/-- A hexadecimal digit. -/
def hexDigit (n : Nat) : Char :=
  Char.ofNat (if n < 10 then n + '0'.toNat else n - 10 + 'a'.toNat)

/-- The escape of a character below `2 ^ 16` by its number, in four digits. -/
def unicodeEscape (c : Char) : List Char :=
  let n := c.toNat
  '\\' :: 'u' :: [n / 4096, n / 256, n / 16, n].map fun d => hexDigit (d % 16)

/-- A character inside a double-quoted literal. Control characters and the two separators that
end a line are escaped, everything else stands for itself. -/
def quoteChar (c : Char) : List Char :=
  if c = '"' then ['\\', '"']
  else if c = '\\' then ['\\', '\\']
  else if c = '\n' then ['\\', 'n']
  else if c = '\r' then ['\\', 'r']
  else if c = '\t' then ['\\', 't']
  else if c.toNat = 8 then ['\\', 'b']
  else if c.toNat = 12 then ['\\', 'f']
  else if c.toNat = 11 then ['\\', 'v']
  else if c.toNat < 32 || c.toNat = 0x2028 || c.toNat = 0x2029 then unicodeEscape c
  else [c]

/-- The text as a double-quoted string literal. -/
def quote (s : String) : String :=
  String.ofList ('"' :: (repaired s).toList.flatMap quoteChar ++ ['"'])

/-- Whether the text is a number as a number literal of its value would be written. Such a
property key needs no quotes. -/
def isNumericKey (s : String) : Bool :=
  match s.toList with
  | [] | '-' :: _ => false
  | cs =>
    match DecimalText.read? cs with
    | none => false
    | some d => d.toBinary64.isFinite && d.toBinary64.render Binary64.literalLayout == s

/-- A property name as it stands before the colon: identifiers and canonical numbers bare,
everything else quoted. -/
def propertyKey (name : String) : String :=
  if isIdentifier name || isNumericKey name then name else quote name

/-- Escapes the fixed part of a template literal: backslashes, backticks, and the dollar that
would open a hole. -/
def escapeTemplateChars : List Char → List Char
  | [] => []
  | '$' :: '{' :: rest => '\\' :: '$' :: '{' :: escapeTemplateChars rest
  | c :: rest =>
    if c = '\\' || c = '\x60' then '\\' :: c :: escapeTemplateChars rest
    else c :: escapeTemplateChars rest

def escapeTemplate (s : String) : String := String.ofList (escapeTemplateChars s.toList)

end ApiTypes.Text
