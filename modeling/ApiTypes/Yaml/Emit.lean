import ApiTypes.JsonValue
import ApiTypes.Text.Base64
import ApiTypes.Yaml.Resolve

/-!
YAML texts of values. Lists and maps stand in block form, two blanks deeper than what holds them.
A text is written plain where it reads back as a text, as a literal block if it has several lines,
and otherwise in single or double quotes.
-/

namespace ApiTypes.Yaml.Emit

/-- Truth values of older notations, and texts that older readers take for numbers, are quoted. -/
def oldTruthValues : List String :=
  ["y", "Y", "yes", "Yes", "YES", "on", "On", "ON", "n", "N", "no", "No", "NO", "off", "Off", "OFF"]

/-- Groups of a colon and one or two digits below sixty, at least one, and then maybe a point and
digits. -/
def sixtyGroups : (steps : Nat) → (isFirst : Bool) → List Char → Bool
  | 0, _, _ => false
  | steps + 1, isFirst, cs =>
    let finish (rest : List Char) : Bool :=
      !isFirst && match rest with
        | [] => true
        | '.' :: rest => rest.all fun c => Text.isDigit c || c = '_'
        | _ => false
    match cs with
    | ':' :: a :: b :: rest =>
      if Text.isDigit a && Text.isDigit b then
        if a ≤ '5' then sixtyGroups steps false rest else false
      else if Text.isDigit a then sixtyGroups steps false (b :: rest)
      else false
    | [':', a] => Text.isDigit a
    | rest => finish rest

/-- Numbers in base sixty, such as times of day. -/
def isSixtyNumber (s : String) : Bool :=
  let cs := match s.toList with
    | '+' :: rest | '-' :: rest => rest
    | cs => cs
  match cs with
  | c :: rest =>
    Text.isDigit c &&
      sixtyGroups (rest.length + 1) true (rest.dropWhile fun c => Text.isDigit c || c = '_')
  | [] => false

/-- Whether a plain scalar would read back as this text. -/
def readsAsText (s : String) : Bool :=
  atomOf true s = .text s && s ≠ "<<" && !oldTruthValues.contains s && !isSixtyNumber s

def isBreak (c : Char) : Bool :=
  c = '\n' || c = '\r' || c.toNat = 0x85 || c.toNat = 0x2028 || c.toNat = 0x2029

def isBlankOrBreak (c : Char) : Bool := c = ' ' || c = '\t' || c.toNat = 0 || isBreak c

/-- Characters that are written as they are. -/
def isPlainChar (c : Char) : Bool :=
  let n := c.toNat
  n = 10 || (0x20 ≤ n && n ≤ 0x7E) || (0xA0 ≤ n && n < 0xD800) ||
    (0xE000 ≤ n && n ≤ 0xFFFD && n ≠ 0xFEFF)

/-- Whether a character, with its neighbours, would be taken for an indicator outside quotes. -/
def isIndicator (before : Option Char) (c : Char) (after : Option Char) : Bool :=
  let blankAfter := after.all isBlankOrBreak
  match before with
  | none =>
    "#,[]\x7b\x7d&*!|>'\"%@\x60".toList.contains c || (['?', ':', '-'].contains c && blankAfter)
  | some b => (c = ':' && blankAfter) || (c = '#' && isBlankOrBreak b)

def hasIndicator (before : Option Char) : List Char → Bool
  | [] => false
  | c :: rest => isIndicator before c rest.head? || hasIndicator (some c) rest

/-- Whether a character that satisfies `p` is directly followed by one that satisfies `q`. -/
def hasPair (p q : Char → Bool) : List Char → Bool
  | a :: b :: rest => (p a && q b) || hasPair p q (b :: rest)
  | _ => false

/-- What the characters of a text allow. -/
structure Allowed where
  plain : Bool
  single : Bool
  block : Bool

def allowed (cs : List Char) : Allowed :=
  let blankAtEnd (c : Option Char) : Bool := c.any fun c => c = ' ' || isBreak c
  let breakSpace := hasPair isBreak (· = ' ') cs
  let spaceBreak := hasPair (· = ' ') isBreak cs
  let special := cs.any fun c => !isPlainChar c && c ≠ '\t'
  let marker := ["---".toList, "...".toList].contains (cs.take 3)
  let single := !breakSpace && !spaceBreak && !special && !cs.contains '\t'
  { single
    plain := single && !blankAtEnd cs.head? && !blankAtEnd cs.getLast? && !cs.any isBreak &&
      !marker && !hasIndicator none cs
    block := cs.getLast? ≠ some ' ' && !spaceBreak && !special }

/-- A character inside double quotes. -/
def doubleQuotedChar (c : Char) : List Char :=
  let n := c.toNat
  let short := [(0, '0'), (7, 'a'), (8, 'b'), (9, 't'), (10, 'n'), (11, 'v'), (12, 'f'), (13, 'r'),
    (0x1B, 'e'), (0x22, '"'), (0x5C, '\\'), (0x85, 'N'), (0x2028, 'L'), (0x2029, 'P')]
  match short.lookup n with
  | some letter => ['\\', letter]
  | none =>
    if isPlainChar c then [c]
    else
      let hex (width : Nat) : List Char :=
        let digits := (Nat.toDigits 16 n).map Char.toUpper
        List.replicate (width - digits.length) '0' ++ digits
      if n ≤ 0xFF then '\\' :: 'x' :: hex 2
      else if n ≤ 0xFFFF then '\\' :: 'u' :: hex 4
      else '\\' :: 'U' :: hex 8

def doubleQuoted (s : String) : String :=
  String.ofList ('"' :: s.toList.flatMap doubleQuotedChar ++ ['"'])

/-- Text in single quotes. What follows a line break is indented. -/
def singleQuotedChars (indent : Nat) : (afterBreak : Bool) → List Char → List Char
  | _, [] => []
  | afterBreak, c :: rest =>
    if isBreak c then c :: singleQuotedChars indent true rest
    else if c = ' ' then c :: singleQuotedChars indent afterBreak rest
    else
      (if afterBreak then List.replicate indent ' ' else []) ++
        (if c = '\'' then ['\'', '\''] else [c]) ++ singleQuotedChars indent false rest

def singleQuoted (indent : Nat) (s : String) : String :=
  String.ofList ('\'' :: singleQuotedChars indent false s.toList ++ ['\''])

/-- The body of a literal block after its header. A break at the start ends the line of the
header. -/
def literalChars (indent : Nat) : (inHeader afterBreak : Bool) → List Char → List Char
  | _, _, [] => []
  | inHeader, afterBreak, c :: rest =>
    if isBreak c then c :: literalChars indent false true rest
    else
      (if inHeader then ['\n'] else []) ++
        (if afterBreak then List.replicate indent ' ' else []) ++
        c :: literalChars indent false false rest

/-- How a literal block announces blanks at its start and breaks at its end. -/
def literalHints (cs : List Char) : List Char :=
  let start := if cs.head?.any fun c => c = ' ' || isBreak c then ['2'] else []
  let finish := match cs.reverse with
    | last :: before :: _ => if !isBreak last then ['-'] else if isBreak before then ['+'] else []
    | [last] => if isBreak last then ['+'] else ['-']
    | [] => ['-']
  start ++ finish

def literal (indent : Nat) (s : String) : String :=
  String.ofList ('|' :: literalHints s.toList ++ literalChars indent true true s.toList)

/-- A text of characters as a scalar that is indented by `indent` where it takes several lines. -/
def textScalar (indent : Nat) (s : String) : String :=
  let may := allowed s.toList
  if s.toList.contains '\n' then if may.block then literal indent s else doubleQuoted s
  else if !readsAsText s then doubleQuoted s
  else if may.plain then s
  else if may.single then singleQuoted indent s
  else doubleQuoted s

/-- A text as a scalar. Bytes that are part of no character are written in base 64, in lines of
seventy digits if one line is not enough. -/
def scalar (indent : Nat) (s : String) : String :=
  if Text.isWellFormed s then textScalar indent s
  else
    let digits := Text.Base64.encode (s.toList.flatMap Text.bytesOf)
    if digits.length < 70 then "!!binary " ++ textScalar indent (String.ofList digits)
    else "!!binary " ++ textScalar indent (String.ofList (lines digits.length digits))
where
  lines : (steps : Nat) → List Char → List Char
    | steps + 1, c :: rest =>
      (c :: rest).take 70 ++ '\n' :: lines steps ((c :: rest).drop 70)
    | _, _ => []

/-- A text and the end of its line, unless it ends with one. -/
def endLine (s : String) : String := if s.toList.getLast?.any isBreak then s else s ++ "\n"

/-- Values without parts on one line. -/
def atom (indent : Nat) : JsonValue → String
  | .null => "null"
  | .bool b => if b then "true" else "false"
  | .number digits => digits
  | .text s => scalar indent s
  | .array _ => "[]"
  | .object _ => "\x7b\x7d"

def blanks (n : Nat) : String := Text.replicate n " "

mutual

/-- What stands after the colon of a key at the given indentation. -/
def afterKey (indent : Nat) : JsonValue → String
  | .array (item :: items) => "\n" ++ listItems (indent + 2) (item :: items)
  | .object (entry :: entries) =>
    let lines := mapEntries (indent + 2) (entry :: entries)
    "\n" ++ String.join (lines.map (blanks (indent + 2) ++ ·))
  | value => " " ++ endLine (atom (indent + 2) value)

/-- What stands after the dash of an item; its parts are indented by `indent`. -/
def afterDash (indent : Nat) : JsonValue → String
  | .array (item :: items) =>
    String.ofList ((listItems indent (item :: items)).toList.drop indent)
  | .object (entry :: entries) =>
    Text.join (blanks indent) (mapEntries indent (entry :: entries))
  | value => endLine (atom indent value)

/-- The items of a list, each with its dash. -/
def listItems (indent : Nat) : List JsonValue → String
  | [] => ""
  | item :: rest => blanks indent ++ "- " ++ afterDash (indent + 2) item ++ listItems indent rest

/-- The entries of a map without the blanks in front of them. -/
def mapEntries (indent : Nat) : List (String × JsonValue) → List String
  | [] => []
  | (key, value) :: rest =>
    (scalar indent key ++ ":" ++ afterKey indent value) :: mapEntries indent rest

end

/-- The text of a document. -/
def document : JsonValue → String
  | .object (entry :: entries) => String.join (mapEntries 0 (entry :: entries))
  | .array (item :: items) => listItems 0 (item :: items)
  | value => endLine (atom 2 value)

end ApiTypes.Yaml.Emit
