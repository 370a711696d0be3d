import ApiTypes.Text.Bytes

/-!
A place in a YAML text, and the characters that YAML tells apart. A text is supplied in portions
while it is read. A portion with a character that no text may hold is refused when its turn comes,
so what lies behind the last portion asked for is never looked at.
-/

namespace ApiTypes.Yaml

/-- The characters that end a line; a carriage return and a line feed after it end one line. -/
def isBreak (c : Char) : Bool :=
  c = '\n' || c = '\r' || c.toNat = 0x85 || c.toNat = 0x2028 || c.toNat = 0x2029

/-- What a line break stands for in a scalar: the two separators stay themselves, and all other
breaks are line feeds. -/
def breakValue (c : Char) : Char := if c.toNat = 0x2028 || c.toNat = 0x2029 then c else '\n'

def isBlank (c : Char) : Bool := c = ' ' || c = '\t'

def isBlankOrBreak (c : Char) : Bool := isBlank c || isBreak c

/-- A blank, a line break or the end of the text. -/
def endsWord (c : Option Char) : Bool := c.all isBlankOrBreak

/-- A line break or the end of the text. -/
def endsLine (c : Option Char) : Bool := c.all isBreak

/-- The characters of anchors and tag handles. -/
def isNameChar (c : Char) : Bool :=
  ('0' ≤ c && c ≤ '9') || ('A' ≤ c && c ≤ 'Z') || ('a' ≤ c && c ≤ 'z') || c = '_' || c = '-'

/-- The characters a YAML text may hold at all. -/
def isAllowed (c : Char) : Bool :=
  c = '\t' || c = '\n' || c = '\r' || (0x20 ≤ c.toNat && c.toNat ≤ 0x7E) || c.toNat = 0x85 ||
    (0xA0 ≤ c.toNat && c.toNat ≤ 0xFFFD) || 0x10000 ≤ c.toNat

/-- The mark that may stand in front of a text. -/
def isByteOrderMark (c : Char) : Bool := c.toNat = 0xFEFF

/-- A part of a text: its number of characters, and whether all of them are allowed. -/
structure Portion where
  size : Nat := 0
  sound : Bool := true

/-- The greatest number of bytes in a portion. -/
def portionLimit : Nat := 512

/-- Cuts a text into portions of as many whole characters as fit. `used` counts the bytes of the
portion that is being filled. -/
def portionsOf (used : Nat) (filling : Portion) : List Text.Piece → List Portion
  | [] => if filling.size = 0 then [] else [filling]
  | piece :: rest =>
    let (length, sound) :=
      match piece with
      | .char c => (c.utf8Size, isAllowed c)
      | .stray _ => (1, false)
    if used + length ≤ portionLimit then
      portionsOf (used + length) ⟨filling.size + 1, filling.sound && sound⟩ rest
    else filling :: portionsOf length ⟨1, sound⟩ rest

/-- A place in a text. Lines count from one, columns from zero. -/
structure Cursor where
  rest : List Char
  /-- How many characters the whole text has; no loop over it takes more steps. -/
  size : Nat := 0
  index : Nat := 0
  line : Nat := 1
  column : Nat := 0
  /-- How many characters have been supplied; the end of the text may count several times. -/
  ready : Nat := 0
  /-- Whether a byte order mark stood here when text was supplied last. -/
  marked : Bool := false
  portions : List Portion := []
  deriving Inhabited

namespace Cursor

/-- The start of a text. A byte order mark in front of it is dropped, and an empty text is an empty
line. -/
def ofText (text : String) : Cursor :=
  let pieces := Text.pieces text
  let (used, pieces) :=
    match pieces with
    | .char c :: rest => if isByteOrderMark c then (3, rest) else (0, pieces)
    | [] => (0, [.char '\n'])
    | _ => (0, pieces)
  { rest := pieces.map fun
      | .char c => c
      | .stray _ => Char.ofNat 0xFFFD
    size := pieces.length
    portions := portionsOf used {} pieces }

/-- Takes portions until `wanted` characters are there or the text ends. -/
def supply (wanted ready : Nat) : List Portion → Option (Nat × List Portion)
  | [] => some (ready + 1, [])
  | portion :: more =>
    if !portion.sound then none
    else if wanted ≤ ready + portion.size then some (ready + portion.size, more)
    else supply wanted (ready + portion.size) more

/-- Makes sure that the next `n` characters have been supplied, as far as the text goes. -/
def need (c : Cursor) (n : Nat) : Option Cursor :=
  if c.index + n ≤ c.ready then some c
  else
    (supply (c.index + n) c.ready c.portions).map fun (ready, portions) =>
      { c with ready, portions, marked := c.rest.head?.any isByteOrderMark }

/-- The character `k` places further on. -/
def peek (c : Cursor) (k : Nat) : Option Char := c.rest[k]?

/-- The place after the next character of the line. -/
def next (c : Cursor) : Cursor :=
  { c with rest := c.rest.drop 1, index := c.index + 1, column := c.column + 1 }

/-- The start of the next line, for a place at a line break. -/
def nextLine (c : Cursor) : Cursor :=
  let length := if c.rest.take 2 = ['\r', '\n'] then 2 else 1
  { c with
    rest := c.rest.drop length
    index := c.index + length
    line := c.line + 1
    column := 0 }

/-- The place `n` characters further on in the line. -/
def advance (c : Cursor) : Nat → Cursor
  | 0 => c
  | n + 1 => c.next.advance n

/-- The longest run of characters of the line that satisfy `p`, and the place after it. -/
def takeWhile (c : Cursor) (p : Char → Bool) : Option (List Char × Cursor) := do
  let run := c.rest.takeWhile p
  return (run, ← (c.advance run.length).need 1)

/-- The place after the longest run of characters of the line that satisfy `p`. -/
def skipWhile (c : Cursor) (p : Char → Bool) : Option Cursor := do
  return (← c.takeWhile p).2

/-- The end of the line. -/
def skipLine (c : Cursor) : Option Cursor := c.skipWhile (!isBreak ·)

/-- The place after a line break here, if there is one. -/
def skipBreak (c : Cursor) : Option Cursor :=
  if c.rest.head?.any isBreak then return (← c.need 2).nextLine else some c

/-- Reads blanks and line breaks, the breaks as what they stand for. `read` holds what came before,
last character first. -/
def gapFrom : Nat → Cursor → (read : List Char) → Option (List Char × Cursor)
  | 0, _, _ => none
  | steps + 1, c, read =>
    match c.rest.head? with
    | none => some (read.reverse, c)
    | some ch =>
      if isBlank ch then do gapFrom steps (← c.next.need 1) (ch :: read)
      else if isBreak ch then do gapFrom steps (← (← c.skipBreak).need 1) (breakValue ch :: read)
      else some (read.reverse, c)

/-- The blanks and line breaks from here on, and the place after them. -/
def gap (c : Cursor) : Option (List Char × Cursor) := gapFrom (c.size + 1) c []

/-- Whether the next characters are `s`. -/
def looksAt (c : Cursor) (s : String) : Bool := s.toList.isPrefixOf c.rest

/-- Whether a line starts here with three hyphens or three dots that stand alone. -/
def atDocumentMark (c : Cursor) : Bool :=
  c.column = 0 && (c.looksAt "---" || c.looksAt "...") && endsWord (c.peek 3)

/-- How far a comment is looked for ahead of a place. -/
def commentReach : Nat := 512

/-- How far on a comment starts, if only blanks and the two ASCII line breaks stand in between.
`ahead` are the characters from `distance` places on. -/
def commentAhead? : List Char → (distance : Nat) → Cursor → Option (Option Nat × Cursor)
  | ahead, distance, c =>
    if commentReach ≤ distance then some (none, c)
    else do
      let c ← c.need (distance + 1)
      match ahead with
      | [] => some (none, c)
      | ch :: rest =>
        if ch = '#' then some (some distance, c)
        else if isBlank ch || ch = '\n' || ch = '\r' then commentAhead? rest (distance + 1) c
        else some (none, c)

/-- The place with the given index, over blanks and line breaks. -/
def moveTo (index : Nat) : Nat → Cursor → Cursor
  | 0, c => c
  | steps + 1, c =>
    if index ≤ c.index then c
    else moveTo index steps (if c.rest.head?.any isBreak then c.nextLine else c.next)

/-- Skips the comment here and the comments on the lines after it, however these are indented, up
to the end of the last one. -/
def skipComments : Nat → Cursor → Option Cursor
  | 0, _ => none
  | steps + 1, c => do
    let c ← c.skipLine
    match c.rest with
    | [] => c.need 2
    | ch :: rest =>
      if ch = '\n' || ch = '\r' then
        match ← commentAhead? rest 1 c with
        | (some distance, c) => skipComments steps (moveTo (c.index + distance) commentReach c)
        | (none, c) => some c
      else c.need 2

/-- Skips a comment behind a token, with the blanks before it. -/
def skipLineComment (c : Cursor) : Option Cursor := do
  let blanks := (c.rest.takeWhile isBlank).length
  let c ← c.need (min (blanks + 1) commentReach)
  if blanks < commentReach && c.peek blanks = some '#' then (c.advance blanks).skipLine else some c

end Cursor

end ApiTypes.Yaml
