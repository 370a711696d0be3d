import ApiTypes.Yaml.Cursor

/-!
The texts of scalars: plain, quoted and block. Each reader starts at the scalar and gives its text
and the place after it, or nothing when the scalar is ill-formed. Loops count their steps; a text
never needs more steps than it has characters.
-/

namespace ApiTypes.Yaml

/-- What a run of blanks and line breaks between two parts of a scalar stands for: blanks on one
line stay, a single line feed is a blank, and of several breaks the first is dropped. When the
first break has been escaped away, the other breaks stay. -/
def foldRun (escaped : Bool) (run : List Char) : List Char :=
  match escaped, run.filter isBreak with
  | false, [] => run
  | true, breaks => breaks
  | false, first :: more =>
    if first = '\n' then if more.isEmpty then [' '] else more
    else first :: more

/-- The value of hexadecimal digits. -/
def hexNumber? (cs : List Char) : Option Nat :=
  cs.foldlM (fun n c => (Text.hexDigitValue? c).map (n * 16 + ·)) 0

/-- The character with the given number; surrogates and numbers past the last plane have none. -/
def charOfNumber? (n : Nat) : Option Char :=
  if n.isValidChar then some (Char.ofNat n) else none

/-- What a backslash and the character after it stand for, or how many hexadecimal digits follow. -/
inductive Escape where
  | char (c : Char)
  | digits (count : Nat)

def escapeOf? (c : Char) : Option Escape :=
  match c with
  | '0' => some (.char (Char.ofNat 0))
  | 'a' => some (.char (Char.ofNat 7))
  | 'b' => some (.char (Char.ofNat 8))
  | 't' | '\t' => some (.char '\t')
  | 'n' => some (.char '\n')
  | 'v' => some (.char (Char.ofNat 11))
  | 'f' => some (.char (Char.ofNat 12))
  | 'r' => some (.char '\r')
  | 'e' => some (.char (Char.ofNat 27))
  | ' ' => some (.char ' ')
  | '"' => some (.char '"')
  | '\'' => some (.char '\'')
  | '\\' => some (.char '\\')
  | 'N' => some (.char (Char.ofNat 0x85))
  | '_' => some (.char (Char.ofNat 0xA0))
  | 'L' => some (.char (Char.ofNat 0x2028))
  | 'P' => some (.char (Char.ofNat 0x2029))
  | 'x' => some (.digits 2)
  | 'u' => some (.digits 4)
  | 'U' => some (.digits 8)
  | _ => none

/-- Reads characters of a quoted scalar up to a blank, the closing quote or an escaped line break.
Gives what has been read, last character first, and whether a break was escaped. -/
def quotedWord (single : Bool) : Nat → Cursor → List Char → Option (List Char × Bool × Cursor)
  | 0, _, _ => none
  | steps + 1, c, read =>
    match c.rest with
    | [] => some (read, false, c)
    | ch :: rest =>
      if isBlankOrBreak ch then some (read, false, c)
      else if single then
        if ch = '\'' then
          if rest.head? = some '\'' then do
            quotedWord single steps (← (c.advance 2).need 2) ('\'' :: read)
          else some (read, false, c)
        else do quotedWord single steps (← c.next.need 2) (ch :: read)
      else if ch = '"' then some (read, false, c)
      else if ch = '\\' then
        match rest with
        | [] => none
        | e :: _ =>
          if isBreak e then do return (read, true, (← c.need 3).next.nextLine)
          else do
            let (value, length) ←
              match ← escapeOf? e with
              | .char d => some (d, 0)
              | .digits count =>
                let digits := (rest.drop 1).take count
                if digits.length < count then none
                else ((hexNumber? digits).bind charOfNumber?).map (·, count)
            let c ← (c.advance 2).need length
            quotedWord single steps (← (c.advance length).need 2) (value :: read)
      else do quotedWord single steps (← c.next.need 2) (ch :: read)

/-- Reads the rest of a quoted scalar; `read` holds what came before, last character first. -/
def quotedFrom (single : Bool) : Nat → Cursor → List Char → Option (List Char × Cursor)
  | 0, _, _ => none
  | steps + 1, c, read => do
    let c ← c.need 4
    if c.atDocumentMark || c.rest.isEmpty then none
    let (read, escaped, c) ← quotedWord single (c.size + 1) c read
    let c ← c.need 1
    if c.rest.head? = some (if single then '\'' else '"') then some (read.reverse, c.next)
    else do
      let (run, c) ← c.gap
      quotedFrom single steps c ((foldRun escaped run).reverse ++ read)

/-- Reads a quoted scalar that starts here with its quote. -/
def quotedScalar (single : Bool) (c : Cursor) : Option (List Char × Cursor) :=
  quotedFrom single (c.size + 1) c.next []

/-- Whether a plain scalar ends before the next character. -/
def endsPlain (inFlow : Bool) (c : Cursor) : Bool :=
  match c.rest with
  | [] => true
  | ch :: rest =>
    isBlankOrBreak ch || (ch = ':' && endsWord rest.head?) ||
      (inFlow && (ch = ',' || ch = '?' || ch = '[' || ch = ']' || ch = '{' || ch = '}'))

/-- Whether a run of blanks and breaks has a tab left of the indentation on a later line. -/
def tabBreaksIndent (indent : Int) : Bool → Int → List Char → Bool
  | _, _, [] => false
  | afterBreak, column, ch :: rest =>
    if isBreak ch then tabBreaksIndent indent true 0 rest
    else (afterBreak && column < indent && ch = '\t') ||
      tabBreaksIndent indent afterBreak (column + 1) rest

/-- A plain scalar: its text, the place after it and the blanks behind it, and whether a line
break was among those. -/
structure PlainScalar where
  text : List Char
  after : Cursor
  lineEnded : Bool

/-- Reads characters up to a blank or an indicator that ends the scalar. -/
def plainWord (inFlow : Bool) : Nat → Cursor → List Char → Option (List Char × Cursor)
  | 0, _, _ => none
  | steps + 1, c, read =>
    match c.rest with
    | [] => some (read, c)
    | ch :: _ =>
      if endsPlain inFlow c then some (read, c)
      else do plainWord inFlow steps (← c.next.need 2) (ch :: read)

/-- Reads the rest of a plain scalar whose lines are indented by `indent` at least. `gap` is what
stands between the text read so far and the next character. -/
def plainFrom (inFlow : Bool) (indent : Int) :
    Nat → Cursor → (read gap : List Char) → (lineEnded : Bool) → Option PlainScalar
  | 0, _, _, _, _ => none
  | steps + 1, c, read, gap, lineEnded => do
    let c ← c.need 4
    if c.atDocumentMark || c.rest.head? = some '#' || endsPlain inFlow c then
      some ⟨read.reverse, c, lineEnded⟩
    else do
      let (word, c) ← plainWord inFlow (c.size + 1) c (gap.reverse ++ read)
      if c.rest.head?.any isBlankOrBreak then do
        let (run, next) ← c.gap
        if tabBreaksIndent indent false c.column run then none
        let ended := run.any isBreak
        if !inFlow && next.column < indent then some ⟨word.reverse, next, ended⟩
        else plainFrom inFlow indent steps next word (foldRun false run) ended
      else some ⟨word.reverse, c, false⟩

/-- Reads a plain scalar that starts here. -/
def plainScalar (inFlow : Bool) (indent : Int) (c : Cursor) : Option PlainScalar :=
  plainFrom inFlow indent (c.size + 1) c [] [] false

/-- Which line breaks at the end of a block scalar stay. -/
inductive Chomping where
  | strip
  | clip
  | keep
  deriving DecidableEq

/-- The indicators of a block scalar: how its end is treated and how far it is indented. -/
def blockHeader? (c : Cursor) : Option (Chomping × Nat × Cursor) := do
  let (chomping, c) ← readChomping (← c.need 1)
  match c.rest.head? with
  | none => some (chomping, 0, c)
  | some d =>
    if '0' ≤ d && d ≤ '9' then
      if d = '0' then none
      else do
        let c ← c.next.need 1
        let (chomping, c) ← if chomping = .clip then readChomping c else some (chomping, c)
        some (chomping, d.toNat - '0'.toNat, c)
    else some (chomping, 0, c)
where
  readChomping (c : Cursor) : Option (Chomping × Cursor) :=
    match c.rest.head? with
    | some '+' => do return (.keep, ← c.next.need 1)
    | some '-' => do return (.strip, ← c.next.need 1)
    | _ => some (.clip, c)

/-- Skips indentation and empty lines before a line of a block scalar. Gives the line breaks, the
deepest column reached and the place of the line; an `indent` of zero is not known yet. -/
def blockBreaks (indent : Nat) : Nat → Cursor → (breaks : List Char) → (deepest : Nat) →
    Option (List Char × Nat × Cursor)
  | 0, _, _, _ => none
  | steps + 1, c, breaks, deepest => do
    let blanks := (c.rest.takeWhile (· = ' ')).length
    let c ← (c.advance (if indent = 0 then blanks else min blanks (indent - c.column))).need 1
    let deepest := max deepest c.column
    match c.rest.head? with
    | none => some (breaks.reverse, deepest, c)
    | some ch =>
      if ch = '\t' && (indent = 0 || c.column < indent) then none
      else if isBreak ch then
        blockBreaks indent steps (← c.skipBreak) (breakValue ch :: breaks) deepest
      else some (breaks.reverse, deepest, c)

/-- Reads the lines of a block scalar. `lineBreak` is the break after the last line, `breaks` are
the empty lines after it, and `indented` says whether that line began with a blank. -/
def blockLines (folded : Bool) (indent : Nat) : Nat → Cursor →
    (read lineBreak breaks : List Char) → (indented : Bool) →
    Option (List Char × List Char × List Char × Cursor)
  | 0, _, _, _, _, _ => none
  | steps + 1, c, read, lineBreak, breaks, indented =>
    if c.column ≠ indent || c.rest.isEmpty then some (read.reverse, lineBreak, breaks, c)
    else do
      let blank := c.rest.head?.any isBlank
      let joint :=
        if folded && !indented && !blank && lineBreak.head? = some '\n' then
          if breaks.isEmpty then [' '] else []
        else lineBreak
      let (line, c) ← c.takeWhile (!isBreak ·)
      let lineBreak := (c.rest.take 1).map breakValue
      let c ← (← c.need 2).skipBreak
      let (next, _, c) ← blockBreaks indent (c.size + 1) c [] 0
      blockLines folded indent steps c
        (line.reverse ++ (breaks.reverse ++ (joint.reverse ++ read))) lineBreak next blank

/-- Reads a block scalar that starts here with its bar or angle bracket, inside a block that is
indented by `outer`. -/
def blockScalar (folded : Bool) (outer : Int) (c : Cursor) : Option (List Char × Cursor) := do
  let (chomping, increment, c) ← blockHeader? c.next
  let c ← c.skipWhile isBlank
  let c ← if c.rest.head? = some '#' then c.skipLine else some c
  if !endsLine c.rest.head? then none
  let c ← c.skipBreak
  let stated : Nat := if increment = 0 then 0 else (max outer 0).toNat + increment
  let (breaks, deepest, c) ← blockBreaks stated (c.size + 1) c [] 0
  let indent := if stated = 0 then max (max deepest (outer + 1).toNat) 1 else stated
  let (text, lineBreak, breaks, c) ←
    blockLines folded indent (c.size + 1) c [] [] breaks false
  let ending :=
    match chomping with
    | .strip => []
    | .clip => lineBreak
    | .keep => lineBreak ++ breaks
  some (text ++ ending, c)

end ApiTypes.Yaml
