import ApiTypes.Yaml.Scalar

/-!
Tokens of a YAML text. Block structure is made explicit: indentation opens and closes collections,
and a key that is recognised only by the colon after it gets its key token, and the start of its
mapping, in front of tokens that have been read already. Tokens are read when they are asked for,
so that a reader who stops early never sees a fault further on; a token is given out only when two
more are known, and when no colon can make it the start of a key any more.
-/

namespace ApiTypes.Yaml

inductive Lexeme where
  | streamStart
  | streamEnd
  | versionDirective (major minor : Nat)
  | tagDirective (handle start : String)
  | documentStart
  | documentEnd
  | blockSequenceStart
  | blockMappingStart
  | blockEnd
  | flowSequenceStart
  | flowSequenceEnd
  | flowMappingStart
  | flowMappingEnd
  | blockEntry
  | flowEntry
  | key
  | value
  | alias (name : String)
  | anchor (name : String)
  | tag (handle suffix : String)
  | scalar (text : String) (plain : Bool)
  deriving DecidableEq, Inhabited

/-- A lexeme and the line on which it starts. -/
structure Token where
  line : Nat
  lexeme : Lexeme
  deriving Inhabited

/-- A place where a key may have started. If a colon follows on the same line, the key token goes
in front of token number `number`. A required key has to be followed by its colon. -/
structure PossibleKey where
  number : Nat
  required : Bool
  place : Cursor
  /-- Whether the token is held back until the colon is there or can no longer come. -/
  awaited : Bool := true

namespace PossibleKey

/-- The greatest number of characters between the start of a key and its colon. -/
def longest : Nat := 1024

/-- Whether a colon at the given place would make this a key. A required key for which it is too
late makes the text ill-formed. -/
def usableAt? (key : PossibleKey) (c : Cursor) : Option Bool :=
  if key.place.line < c.line || key.place.index + longest < c.index then
    if key.required then none else some false
  else some true

end PossibleKey

/-- A level of nesting: the block level or a flow collection. `number` is the number of the token
that opened it, or of the last possible key in it. -/
structure Level where
  number : Nat := 0
  key : Option PossibleKey := none

/-- The state of reading tokens: those that are waiting to be taken, how many have been taken, and
what is open. -/
structure Lexer where
  cursor : Cursor
  tokens : List Token := [⟨1, .streamStart⟩]
  taken : Nat := 0
  indent : Int := -1
  indents : List Int := []
  keyAllowed : Bool := true
  level : Level := {}
  outer : List Level := []

/-- The greatest number of collections of one style that may be open at a time. -/
def nestingLimit : Nat := 10000

namespace Lexer

def inFlow (s : Lexer) : Bool := !s.outer.isEmpty

/-- The number of the next token. -/
def nextNumber (s : Lexer) : Nat := s.taken + s.tokens.length

/-- Puts a token in front of token number `number`, or behind all others if that one has been taken
already. -/
def insertAt (s : Lexer) (number line : Nat) (lexeme : Lexeme) : Lexer :=
  let before := if number < s.taken then s.tokens.length else number - s.taken
  { s with tokens := s.tokens.take before ++ ⟨line, lexeme⟩ :: s.tokens.drop before }

/-- Adds a token that starts at the given line. -/
def push (s : Lexer) (line : Nat) (lexeme : Lexeme) : Lexer := s.insertAt s.nextNumber line lexeme

/-- Adds a token that starts here and has `length` characters. -/
def pushHere (s : Lexer) (length : Nat) (lexeme : Lexeme) : Lexer :=
  { s.push s.cursor.line lexeme with cursor := s.cursor.advance length }

/-- Opens a block collection at a column, unless one is open there. Its start token goes in front
of token number `number`. -/
def openBlock (s : Lexer) (column number line : Nat) (start : Lexeme) : Option Lexer :=
  if !s.inFlow && s.indent < column then
    if nestingLimit ≤ s.indents.length then none
    else
      some { s.insertAt number line start with
        indent := column
        indents := s.indent :: s.indents }
  else some s

/-- Closes the block collections that are indented deeper than `column`. -/
def closeBlocks (s : Lexer) (column : Int) : Lexer :=
  if s.inFlow then s else close s s.indents
where
  close (s : Lexer) : List Int → Lexer
    | [] => s
    | outer :: more =>
      if column < s.indent then
        close { s.push s.cursor.line .blockEnd with indent := outer, indents := more } more
      else s

/-- Forgets the possible key of the current level. -/
def clearKey (s : Lexer) : Lexer := { s with level := { s.level with key := none } }

/-- Gives up the possible key of the current level; a required key must not be given up. -/
def dropKey (s : Lexer) : Option Lexer :=
  if s.level.key.any (·.required) then none else some s.clearKey

/-- Remembers that a key may start here. -/
def saveKey (s : Lexer) : Option Lexer :=
  if s.keyAllowed then do
    let required := !s.inFlow && s.indent = s.cursor.column
    let number := s.nextNumber
    return { ← s.dropKey with
      level := ⟨number, some { number, required, place := s.cursor }⟩ }
  else some s

/-- The possible key of the current level, if it can still become a key. -/
def usableKey (s : Lexer) : Option (Option PossibleKey) :=
  match s.level.key with
  | none => some none
  | some key => do return if ← key.usableAt? s.cursor then some key else none

/-- Whether the first of the waiting tokens may still turn out to start a key. Levels further out
have lower numbers. -/
def awaitsKey (s : Lexer) : Option Bool :=
  let first? (level : Level) := level.key.filter fun key => key.awaited && key.number = s.taken
  let levels := (s.level :: s.outer).takeWhile (s.taken ≤ ·.number)
  match levels.findSome? first? with
  | some key => key.usableAt? s.cursor
  | none => some false

/-- Skips blanks, comments and line breaks before the next token. Tabs count as blanks where no
key can start. At the start of a line one character is passed over unseen if a byte order mark
stood where text was supplied last. -/
def skipGap (s : Lexer) : Option Lexer := go (s.cursor.size + 2) s
where
  go : Nat → Lexer → Option Lexer
    | 0, _ => none
    | steps + 1, s => do
      let c ← s.cursor.need 1
      let c ← (if c.column = 0 && c.marked then c.next else c).need 1
      let c ← c.skipWhile fun ch => ch = ' ' || ((s.inFlow || !s.keyAllowed) && ch = '\t')
      let c ← if c.rest.head? = some '#' then c.skipComments (c.size + 1) else some c
      if c.rest.head?.any isBreak then
        go steps { s with cursor := ← c.skipBreak, keyAllowed := s.keyAllowed || !s.inFlow }
      else some { s with cursor := c }

/-- Ends a token: skips a comment behind it and says whether a key may follow. -/
def endToken (s : Lexer) (keyAllowed : Bool) : Option Lexer := do
  return { s with keyAllowed, cursor := ← s.cursor.skipLineComment }

/-- The name after the mark of an anchor or alias. -/
def anchorName? (c : Cursor) : Option (String × Cursor) := do
  let (name, c) ← c.takeWhile isNameChar
  let ended := c.rest.head?.all fun ch =>
    isBlankOrBreak ch || ['?', ':', ',', ']', '}', '%', '@', '\x60'].contains ch
  if name.isEmpty || !ended then none else some (String.ofList name, c)

/-- The characters of tag suffixes. -/
def isTagChar (c : Char) : Bool :=
  isNameChar c || [';', '/', '?', ':', '@', '&', '=', '+', '$', ',', '.', '!', '~', '*', '\'', '(',
    ')', '[', ']'].contains c

/-- How many bytes a character takes whose first byte is given. -/
def charWidth? (byte : Nat) : Option Nat :=
  if byte < 128 then some 1
  else if byte / 32 = 6 then some 2
  else if byte / 16 = 14 then some 3
  else if byte / 8 = 30 then some 4
  else none

/-- Reads `count` escaped bytes that continue a character. -/
def continuationBytes? : (count : Nat) → Cursor → Option (List Nat × Cursor)
  | 0, c => some ([], c)
  | count + 1, c => do
    let c ← c.need 3
    match c.rest.take 3 with
    | ['%', a, b] =>
      let byte ← hexNumber? [a, b]
      if byte / 64 ≠ 2 then none
      let (bytes, c) ← continuationBytes? count (c.advance 3)
      some (byte :: bytes, c)
    | _ => none

/-- Reads the suffix of a tag, in which percent signs escape the bytes of characters; `read` holds
the bytes that came before, last byte first. -/
def tagSuffix? : Nat → Cursor → (read : List Nat) → Option (List Nat × Cursor)
  | 0, _, _ => none
  | steps + 1, c, read => do
    let c ← c.need 1
    match c.rest with
    | '%' :: _ =>
      let c ← c.need 3
      match c.rest.take 3 with
      | ['%', a, b] =>
        let byte ← hexNumber? [a, b]
        let (bytes, c) ← continuationBytes? ((← charWidth? byte) - 1) (c.advance 3)
        tagSuffix? steps c (bytes.reverse ++ byte :: read)
      | _ => none
    | ch :: _ =>
      if isTagChar ch then tagSuffix? steps c.next (ch.toNat :: read) else some (read.reverse, c)
    | [] => some (read.reverse, c)

/-- Reads a tag: a handle and a suffix. A verbatim tag has no handle, and the lone mark is the
suffix of an empty handle. -/
def tagAt? (c : Cursor) : Option (String × String × Cursor) := do
  let suffix (start : List Char) (c : Cursor) : Option (String × Cursor) := do
    let (bytes, c) ← tagSuffix? (c.size + 1) c []
    return (Text.ofBytes (start.map Char.toNat ++ bytes), c)
  let c ← c.need 2
  let (handle, text, c) ←
    if c.peek 1 = some '<' then do
      let (text, c) ← suffix [] (c.advance 2)
      if text.isEmpty || c.rest.head? ≠ some '>' then none
      some ("", text, ← c.next.need 1)
    else do
      let (name, c) ← c.next.takeWhile isNameChar
      if c.rest.head? = some '!' then
        let (text, c) ← suffix [] c.next
        if text.isEmpty then none
        some (String.ofList ('!' :: name ++ ['!']), text, c)
      else
        let (text, c) ← suffix name c
        some (if text.isEmpty then ("", "!", c) else ("!", text, c))
  if endsWord c.rest.head? then some (handle, text, c) else none

/-- Reads a directive line. -/
def directiveAt? (c : Cursor) : Option (Lexeme × Cursor) := do
  let (name, c) ← c.next.takeWhile isNameChar
  if name.isEmpty || !endsWord c.rest.head? then none
  let c ← c.skipWhile isBlank
  let (lexeme, c) ←
    if String.ofList name = "YAML" then do
      let (major, c) ← number? c
      if c.rest.head? ≠ some '.' then none
      let (minor, c) ← number? c.next
      some (Lexeme.versionDirective major minor, c)
    else if String.ofList name = "TAG" then do
      if c.rest.head? ≠ some '!' then none
      let (inner, c) ← c.next.takeWhile isNameChar
      let (handle, c) ←
        if c.rest.head? = some '!' then some ('!' :: inner ++ ['!'], ← c.next.need 1)
        else if inner.isEmpty then some (['!'], c)
        else none
      if !c.rest.head?.any isBlank then none
      let c ← c.skipWhile isBlank
      let (start, c) ← tagSuffix? (c.size + 1) c []
      if start.isEmpty || !endsWord c.rest.head? then none
      some (Lexeme.tagDirective (String.ofList handle) (Text.ofBytes start), c)
    else none
  let c ← c.skipWhile isBlank
  let c ← if c.rest.head? = some '#' then c.skipLine else some c
  if endsLine c.rest.head? then some (lexeme, ← c.skipBreak) else none
where
  number? (c : Cursor) : Option (Nat × Cursor) := do
    let (digits, c) ← c.takeWhile fun ch => '0' ≤ ch && ch ≤ '9'
    if digits.isEmpty || 2 < digits.length then none
    else some (digits.foldl (fun n ch => n * 10 + (ch.toNat - '0'.toNat)) 0, c)

/-- Reads the mark between a key and its value. -/
def fetchValue (s : Lexer) : Option Lexer := do
  match ← s.usableKey with
  | some key =>
    let s := s.insertAt key.number key.place.line .key
    let s ← s.openBlock key.place.column key.number key.place.line .blockMappingStart
    (s.clearKey.pushHere 1 .value).endToken false
  | none =>
    let s := s.clearKey
    if s.inFlow then (s.pushHere 1 .value).endToken false
    else if s.keyAllowed then
      let s ← s.openBlock s.cursor.column s.nextNumber s.cursor.line .blockMappingStart
      (s.pushHere 1 .value).endToken true
    else none

/-- Reads the mark of a block sequence entry, or of a key that is marked as one. -/
def fetchEntry (s : Lexer) (start lexeme : Lexeme) (allowedInFlow : Bool) : Option Lexer := do
  if !s.inFlow && !s.keyAllowed then none
  let s ← s.openBlock s.cursor.column s.nextNumber s.cursor.line start
  let s ← s.dropKey
  return { s.pushHere 1 lexeme with keyAllowed := !s.inFlow || allowedInFlow }

/-- Reads a token whose text gives a lexeme and the place after it. -/
def fetchText (s : Lexer) (read : Cursor → Option (Lexeme × Cursor)) : Option Lexer := do
  let s ← s.saveKey
  let (lexeme, after) ← read s.cursor
  let s := { s.push s.cursor.line lexeme with cursor := after }
  s.endToken false

/-- The text of a scalar. -/
def scalarText (cs : List Char) : String := Text.ofPlain (String.ofList cs)

/-- Reads a plain scalar. Behind one that has been followed to a later line no comment is left. -/
def fetchPlain (s : Lexer) : Option Lexer := do
  let s ← s.saveKey
  let found ← plainScalar s.inFlow (s.indent + 1) s.cursor
  let s := { s.push s.cursor.line (.scalar (scalarText found.text) true) with
    cursor := found.after
    keyAllowed := found.lineEnded }
  if found.lineEnded then some s else s.endToken false

def fetchQuoted (s : Lexer) (single : Bool) : Option Lexer :=
  s.fetchText fun c =>
    (quotedScalar single c).map fun (text, after) => (.scalar (scalarText text) false, after)

def fetchBlockScalar (s : Lexer) (folded : Bool) : Option Lexer := do
  let s ← s.dropKey
  let (text, after) ← blockScalar folded s.indent s.cursor
  return { s.push s.cursor.line (.scalar (scalarText text) false) with
    cursor := after
    keyAllowed := true }

def fetchFlowStart (s : Lexer) (lexeme : Lexeme) : Option Lexer := do
  let s ← s.saveKey
  if nestingLimit ≤ s.outer.length then none
  let opened := { s with level := ⟨s.nextNumber, none⟩, outer := s.level :: s.outer }
  (opened.pushHere 1 lexeme).endToken true

/-- Reads the end of a flow collection. The collection itself is no longer held back as a possible
key if no key could start inside it. -/
def fetchFlowEnd (s : Lexer) (lexeme : Lexeme) : Option Lexer := do
  let s ← s.dropKey
  let s :=
    match s.outer with
    | [] => s
    | level :: outer =>
      let key := level.key.map fun (key : PossibleKey) =>
        { key with awaited := key.awaited && key.number ≠ s.level.number }
      { s with level := { level with key }, outer }
  (s.pushHere 1 lexeme).endToken false

/-- Closes all blocks before a token that belongs to no block. -/
def leaveBlocks (s : Lexer) : Option Lexer := do
  let s ← (s.closeBlocks (-1)).dropKey
  return { s with keyAllowed := false }

/-- Reads the end of the text, which ends its last line too. -/
def fetchEnd (s : Lexer) : Option Lexer := do
  let c := s.cursor
  let ended := if c.column = 0 then c else { c with line := c.line + 1, column := 0 }
  let s ← leaveBlocks { s with cursor := ended }
  return s.pushHere 0 .streamEnd

/-- Whether a plain scalar can start with the next characters. -/
def startsPlain (inFlow : Bool) (c : Cursor) : Bool :=
  match c.rest with
  | [] => false
  | ch :: rest =>
    !(isBlankOrBreak ch || ['-', '?', ':', ',', '[', ']', '{', '}', '#', '&', '*', '!', '|', '>',
        '\'', '"', '%', '@', '\x60'].contains ch) ||
      (ch = '-' && !rest.head?.any isBlank) ||
      (!inFlow && (ch = '?' || ch = ':') && !endsWord rest.head?)

/-- Reads the next token. Nothing comes out when the text is ill-formed here. -/
def fetch (s : Lexer) : Option Lexer := do
  let s ← s.skipGap
  let s := s.closeBlocks s.cursor.column
  let c ← s.cursor.need 4
  let s := { s with cursor := c }
  match c.rest with
  | [] => s.fetchEnd
  | ch :: rest =>
    let wordEnds := endsWord rest.head?
    if c.column = 0 && ch = '%' then do
      let s ← s.leaveBlocks
      let (lexeme, after) ← directiveAt? c
      return { s.push c.line lexeme with cursor := after }
    else if c.atDocumentMark then do
      return (← s.leaveBlocks).pushHere 3 (if ch = '-' then .documentStart else .documentEnd)
    else if ch = '[' then s.fetchFlowStart .flowSequenceStart
    else if ch = '{' then s.fetchFlowStart .flowMappingStart
    else if ch = ']' then s.fetchFlowEnd .flowSequenceEnd
    else if ch = '}' then s.fetchFlowEnd .flowMappingEnd
    else if ch = ',' then do ((← s.dropKey).pushHere 1 .flowEntry).endToken true
    else if ch = '-' && wordEnds then s.fetchEntry .blockSequenceStart .blockEntry true
    else if ch = '?' && (s.inFlow || wordEnds) then do
      let s ← s.fetchEntry .blockMappingStart .key false
      s.endToken s.keyAllowed
    else if ch = ':' && (s.inFlow || wordEnds) then s.fetchValue
    else if ch = '*' then
      s.fetchText fun c => (anchorName? c.next).map fun (name, after) => (.alias name, after)
    else if ch = '&' then
      s.fetchText fun c => (anchorName? c.next).map fun (name, after) => (.anchor name, after)
    else if ch = '!' then
      s.fetchText fun c =>
        (tagAt? c).map fun (handle, suffix, after) => (.tag handle suffix, after)
    else if ch = '|' && !s.inFlow then s.fetchBlockScalar false
    else if ch = '>' && !s.inFlow then s.fetchBlockScalar true
    else if ch = '\'' then s.fetchQuoted true
    else if ch = '"' then s.fetchQuoted false
    else if startsPlain s.inFlow c then s.fetchPlain
    else none

/-- Reads tokens until the first one can be given out. -/
def fill : Nat → Lexer → Option Lexer
  | 0, _ => none
  | steps + 1, s =>
    match s.tokens with
    | _ :: _ :: _ :: _ => do
      if ← s.awaitsKey then fill steps (← s.fetch) else some s
    | _ => do fill steps (← s.fetch)

/-- The next token. Each step of filling reads a character or the end of the text. -/
def peek (s : Lexer) : Option (Token × Lexer) := do
  let s ← fill (s.cursor.size + 4) s
  return (← s.tokens.head?, s)

/-- What is left after the next token. -/
def next (s : Lexer) : Lexer := { s with tokens := s.tokens.drop 1, taken := s.taken + 1 }

/-- The start of a text. -/
def ofText (text : String) : Lexer := { cursor := .ofText text }

end Lexer

end ApiTypes.Yaml
