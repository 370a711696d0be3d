import ApiTypes.Pattern.Basic
import ApiTypes.Text.Bytes
import ApiTypes.Text.Category

/-!
The notation of regular expressions. An expression is read from left to right; groups that are
open wait on a stack. An error tells the part of the text that is at fault.
-/

namespace ApiTypes

/-- What can be wrong with a regular expression. -/
inductive PatternFault where
  | missingParen
  | unexpectedParen
  | missingBracket
  | badRange
  | badEscape
  | badGroupName
  | badGroup
  | trailingBackslash
  | missingOperand
  | nestedRepeat
  | badCount
  | tooDeep
  | strayByte
  deriving DecidableEq, Repr

def PatternFault.message : PatternFault → String
  | .missingParen => "missing closing )"
  | .unexpectedParen => "unexpected )"
  | .missingBracket => "missing closing ]"
  | .badRange => "invalid character class range"
  | .badEscape => "invalid escape sequence"
  | .badGroupName => "invalid named capture"
  | .badGroup => "invalid or unsupported Perl syntax"
  | .trailingBackslash => "trailing backslash at end of expression"
  | .missingOperand => "missing argument to repetition operator"
  | .nestedRepeat => "invalid nested repetition operator"
  | .badCount => "invalid repeat count"
  | .tooDeep => "expression nests too deeply"
  | .strayByte => "invalid UTF-8"

/-- A fault and the text in which it lies. -/
structure PatternError where
  fault : PatternFault
  excerpt : String
  deriving DecidableEq, Repr

def PatternError.message (e : PatternError) : String :=
  "error parsing regexp: " ++ e.fault.message ++ ": \x60" ++ e.excerpt ++ "\x60"

namespace Pattern

/-- The part of a text in front of one of its ends. -/
def upTo (text rest : List Char) : String := String.ofList (text.take (text.length - rest.length))

/-- Refuses a text that starts with a byte that is part of no character. -/
def requireChar : List Char → Except PatternError Unit
  | [] => .ok ()
  | c :: rest =>
    if (Text.strayByte? c).isSome then .error ⟨.strayByte, String.ofList (c :: rest)⟩ else .ok ()

/-- What letters in a group such as `(?i)` switch. -/
structure Flags where
  ignoreCase : Bool := false
  multiline : Bool := false
  dotAll : Bool := false
  deriving DecidableEq, Repr

def isOctal (c : Char) : Bool := '0' ≤ c && c ≤ '7'

/-- Reads at most `count` octal digits. -/
def octal (value : Nat) : (count : Nat) → List Char → Nat × List Char
  | count + 1, c :: rest =>
    if isOctal c then octal (value * 8 + (c.toNat - '0'.toNat)) count rest else (value, c :: rest)
  | _, rest => (value, rest)

/-- Reads hexadecimal digits up to a closing brace. On failure the text after the character that is
at fault is given. -/
def bracedHex (value digits : Nat) : List Char → Except (List Char) (Nat × List Char)
  | [] => .error []
  | '\x7d' :: rest => if digits = 0 then .error rest else .ok (value, rest)
  | c :: rest =>
    match Text.hexDigitValue? c with
    | none => .error rest
    | some d =>
      let value := value * 16 + d
      if 0x10FFFF < value then .error rest else bracedHex value (digits + 1) rest

/-- Reads the character number that an escape stands for; `text` starts with the backslash. -/
def escape (text : List Char) : Except PatternError (Nat × List Char) := do
  let bad (rest : List Char) : Except PatternError (Nat × List Char) :=
    .error ⟨.badEscape, upTo text rest⟩
  requireChar (text.drop 1)
  match text.drop 1 with
  | [] => .error ⟨.trailingBackslash, ""⟩
  | '0' :: rest => .ok (octal 0 2 rest)
  | 'a' :: rest => .ok (7, rest)
  | 'f' :: rest => .ok (12, rest)
  | 'n' :: rest => .ok (10, rest)
  | 'r' :: rest => .ok (13, rest)
  | 't' :: rest => .ok (9, rest)
  | 'v' :: rest => .ok (11, rest)
  | ['x'] => bad []
  | 'x' :: '\x7b' :: rest =>
    match bracedHex 0 0 rest with
    | .ok read => .ok read
    | .error rest => bad rest
  | 'x' :: a :: rest =>
    match rest with
    | [] => bad []
    | b :: rest =>
      match Text.hexDigitValue? a, Text.hexDigitValue? b with
      | some x, some y => .ok (x * 16 + y, rest)
      | _, _ => bad rest
  | c :: rest =>
    if '1' ≤ c && c ≤ '7' then
      if rest.head?.any isOctal then .ok (octal (c.toNat - '0'.toNat) 2 rest) else bad rest
    else if c.toNat < 128 && !Text.isWordChar c then .ok (c.toNat, rest)
    else bad rest

/-- The sets that letters after a backslash stand for, and whether the set is turned round. -/
def letterClass? : Char → Option (List (Nat × Nat) × Bool)
  | 'd' => some (digits, false)
  | 'D' => some (digits, true)
  | 's' => some (blanks, false)
  | 'S' => some (blanks, true)
  | 'w' => some (wordChars, false)
  | 'W' => some (wordChars, true)
  | _ => none
where
  digits : List (Nat × Nat) := [(0x30, 0x39)]
  blanks : List (Nat × Nat) := [(9, 10), (12, 13), (0x20, 0x20)]
  wordChars : List (Nat × Nat) := [(0x30, 0x39), (0x41, 0x5A), (0x5F, 0x5F), (0x61, 0x7A)]

/-- The sets with names such as `[:alpha:]`. -/
def namedClass? (name : String) : Option (List (Nat × Nat)) :=
  match name with
  | "alnum" => some [(0x30, 0x39), (0x41, 0x5A), (0x61, 0x7A)]
  | "alpha" => some [(0x41, 0x5A), (0x61, 0x7A)]
  | "ascii" => some [(0, 0x7F)]
  | "blank" => some [(9, 9), (0x20, 0x20)]
  | "cntrl" => some [(0, 0x1F), (0x7F, 0x7F)]
  | "digit" => some [(0x30, 0x39)]
  | "graph" => some [(0x21, 0x7E)]
  | "lower" => some [(0x61, 0x7A)]
  | "print" => some [(0x20, 0x7E)]
  | "punct" => some [(0x21, 0x2F), (0x3A, 0x40), (0x5B, 0x60), (0x7B, 0x7E)]
  | "space" => some [(9, 13), (0x20, 0x20)]
  | "upper" => some [(0x41, 0x5A)]
  | "word" => some [(0x30, 0x39), (0x41, 0x5A), (0x5F, 0x5F), (0x61, 0x7A)]
  | "xdigit" => some [(0x30, 0x39), (0x41, 0x46), (0x61, 0x66)]
  | _ => none

/-- A set of characters at the front of a text. -/
abbrev ClassRead := Except PatternError (Option (CharRanges × List Char))

/-- Cuts a text after the first closing brace in it, and gives what stands before the brace. -/
def toBrace? (text : List Char) : Option (List Char × List Char) := Text.cutChars '\x7d' text

/-- Reads a set such as `\pL` or `\p{^Lu}`; `text` starts with the backslash. -/
def propertyClass (flags : Flags) (text : List Char) : ClassRead :=
  match text with
  | '\\' :: letter :: after =>
    if letter ≠ 'p' && letter ≠ 'P' then .ok none
    else
      let read (name : List Char) (rest : List Char) : ClassRead :=
        let (turned, name) := match name with
          | '^' :: name => (true, name)
          | name => (false, name)
        match Text.propertyRanges? (String.ofList name) with
        | none => .error ⟨.badRange, upTo text rest⟩
        | some ranges => .ok (some (⟨ranges, flags.ignoreCase, (letter = 'P') != turned⟩, rest))
      match after with
      | [] => read [] []
      | '\x7b' :: inner =>
        match toBrace? inner with
        | none => .error ⟨.badRange, String.ofList text⟩
        | some (name, rest) => read name rest
      | c :: rest => read [c] rest
  | _ => .ok none

/-- Reads a set such as `\d`. -/
def letterClass (flags : Flags) : List Char → Option (CharRanges × List Char)
  | '\\' :: letter :: rest =>
    (letterClass? letter).map fun (ranges, negated) => (⟨ranges, flags.ignoreCase, negated⟩, rest)
  | _ => none

/-- The text before the first `:]` and the text after it. -/
def toColonBracket? : List Char → Option (List Char × List Char)
  | [] => none
  | ':' :: ']' :: rest => some ([], rest)
  | c :: rest => (toColonBracket? rest).map fun (name, rest) => (c :: name, rest)

/-- Reads a set such as `[:alpha:]` or `[:^alpha:]`. -/
def bracketClass (flags : Flags) (text : List Char) : ClassRead :=
  match text with
  | '[' :: ':' :: after =>
    match toColonBracket? after with
    | none => .ok none
    | some (name, rest) =>
      let (negated, name) := match name with
        | '^' :: name => (true, name)
        | name => (false, name)
      match namedClass? (String.ofList name) with
      | none => .error ⟨.badRange, upTo text rest⟩
      | some ranges => .ok (some (⟨ranges, flags.ignoreCase, negated⟩, rest))
  | _ => .ok none

/-- Reads a character of a set; `whole` is the text from the opening bracket on. -/
def classChar (whole : List Char) : List Char → Except PatternError (Nat × List Char)
  | [] => .error ⟨.missingBracket, String.ofList whole⟩
  | '\\' :: rest => escape ('\\' :: rest)
  | c :: rest => do
    requireChar (c :: rest)
    return (c.toNat, rest)

/-- Reads a character or a range of characters. -/
def classRange (flags : Flags) (whole text : List Char) :
    Except PatternError (CharRanges × List Char) := do
  let (low, rest) ← classChar whole text
  match rest with
  | '-' :: next :: after =>
    if next = ']' then return (⟨[(low, low)], flags.ignoreCase, false⟩, rest)
    let (high, rest) ← classChar whole (next :: after)
    if high < low then throw ⟨.badRange, upTo text rest⟩
    return (⟨[(low, high)], flags.ignoreCase, false⟩, rest)
  | _ => return (⟨[(low, low)], flags.ignoreCase, false⟩, rest)

/-- Reads one entry of a set. -/
def classEntry (flags : Flags) (whole text : List Char) :
    Except PatternError (CharRanges × List Char) := do
  if let some read ← bracketClass flags text then return read
  if let some read ← propertyClass flags text then return read
  match letterClass flags text with
  | some read => return read
  | none => classRange flags whole text

/-- Reads the entries of a set up to its closing bracket; a bracket that comes first is an entry.
Each entry takes a character, so the length of the text is enough as a number of steps. -/
def classEntries (flags : Flags) (whole : List Char) : (steps : Nat) → (isFirst : Bool) →
    List Char → Except PatternError (List CharRanges × List Char)
  | 0, _, _ => .error ⟨.missingBracket, String.ofList whole⟩
  | steps + 1, isFirst, text =>
    match text, isFirst with
    | ']' :: rest, false => .ok ([], rest)
    | text, _ => do
      let (entry, rest) ← classEntry flags whole text
      let (entries, rest) ← classEntries flags whole steps false rest
      return (entry :: entries, rest)

/-- Reads a set in brackets; `text` starts with the opening bracket. -/
def charClass (flags : Flags) (text : List Char) : Except PatternError (CharSet × List Char) := do
  let (negated, inner) := match text.drop 1 with
    | '^' :: inner => (true, inner)
    | inner => (false, inner)
  let (parts, rest) ← classEntries flags text (inner.length + 2) true inner
  return (⟨parts, negated⟩, rest)

/-- Reads a number without leading zeros. Numbers from a hundred million on are all the same. -/
def count? : List Char → Option (Nat × List Char)
  | text@(c :: rest) =>
    if !Text.isDigit c || (c = '0' && rest.head?.any Text.isDigit) then none
    else
      let digits := text.takeWhile Text.isDigit
      some (min (digits.foldl (fun n d => n * 10 + (d.toNat - '0'.toNat)) 0) 100000000,
        text.drop digits.length)
  | [] => none

/-- Reads `{2}`, `{2,}` or `{2,3}` at the front of a text. -/
def bounds? : List Char → Option (Nat × Option Nat × List Char)
  | '\x7b' :: rest => do
    let (least, rest) ← count? rest
    match rest with
    | '\x7d' :: rest => return (least, some least, rest)
    | ',' :: '\x7d' :: rest => return (least, none, rest)
    | ',' :: rest =>
      let (most, rest) ← count? rest
      match rest with
      | '\x7d' :: rest => return (least, some most, rest)
      | _ => none
    | _ => none
  | _ => none

/-- A group that is not closed yet: what stood before it in its branch and in earlier branches, the
flags that hold again after it, and whether its parentheses count. -/
structure Frame where
  items : List Pattern
  branches : List Pattern
  flags : Flags
  counts : Bool

/-- What has been read: the patterns of the current branch and the branches before it, both last
first, and the open groups. -/
structure Reading where
  items : List Pattern := []
  branches : List Pattern := []
  flags : Flags := {}
  frames : List Frame := []

namespace Reading

def push (r : Reading) (p : Pattern) : Reading := { r with items := p :: r.items }

def pushSet (r : Reading) (part : CharRanges) : Reading := r.push (.char ⟨[part], false⟩)

def pushChar (r : Reading) (n : Nat) : Reading := r.pushSet ⟨[(n, n)], r.flags.ignoreCase, false⟩

/-- Adds the characters of a text. -/
def pushText (r : Reading) : List Char → Except PatternError Reading
  | [] => .ok r
  | c :: rest => do
    requireChar (c :: rest)
    (r.pushChar c.toNat).pushText rest

/-- Opens a group in which `flags` hold. -/
def opened (r : Reading) (flags : Flags) (counts : Bool) : Reading :=
  { items := [], branches := [], flags
    frames := ⟨r.items, r.branches, r.flags, counts⟩ :: r.frames }

def branched (r : Reading) : Reading :=
  { r with items := [], branches := concat r.items.reverse :: r.branches }

/-- The pattern of the branches read so far. -/
def pattern (r : Reading) : Pattern := oneOf (r.branched).branches.reverse

end Reading

/-- The outcome of a step: what has been read, the text from a repetition on if the step was one,
and the text after the step. -/
abbrev Step := Except PatternError (Reading × List Char × List Char)

/-- A pattern that is not nested too deeply. -/
def checked (whole : List Char) (p : Pattern) : Except PatternError Pattern :=
  if p.isTooDeep then .error ⟨.tooDeep, String.ofList whole⟩ else .ok p

/-- Repeats the last pattern of a branch. `before` starts with the operator; `last` is the text from
the operator before it on, if that stands directly in front. -/
def repeatLast (r : Reading) (least : Nat) (most : Option Nat)
    (whole before last after : List Char) : Step :=
  let after := match after with
    | '?' :: rest => rest
    | rest => rest
  if !last.isEmpty then .error ⟨.nestedRepeat, upTo last after⟩
  else
    match r.items with
    | [] => .error ⟨.missingOperand, upTo before after⟩
    | p :: items => do
      let repeated ← checked whole (.times p least most)
      if (2 ≤ least || most.any (2 ≤ ·)) && !repeated.repeatsWithin 1000 then
        throw ⟨.badCount, upTo before after⟩
      return ({ r with items := repeated :: items }, before, after)

/-- Reads the flags of a group after `(?`. The sign is false after a minus, and `seen` tells
whether a flag has come since then. -/
def groupFlags (r : Reading) (text : List Char) : (flags : Flags) → (sign seen : Bool) →
    List Char → Except PatternError (Reading × List Char)
  | _, _, _, [] => .error ⟨.badGroup, String.ofList text⟩
  | flags, sign, seen, c :: rest => do
    requireChar (c :: rest)
    let bad : Except PatternError (Reading × List Char) := .error ⟨.badGroup, upTo text rest⟩
    match c with
    | 'i' => groupFlags r text { flags with ignoreCase := sign } sign true rest
    | 'm' => groupFlags r text { flags with multiline := sign } sign true rest
    | 's' => groupFlags r text { flags with dotAll := sign } sign true rest
    | 'U' => groupFlags r text flags sign true rest
    | '-' => if sign then groupFlags r text flags false false rest else bad
    | ':' => if !sign && !seen then bad else .ok (r.opened flags false, rest)
    | ')' => if !sign && !seen then bad else .ok ({ r with flags }, rest)
    | _ => bad

/-- Reads a named group; `name` is the text after the opening angle bracket. -/
def namedGroup (r : Reading) (text name : List Char) :
    Except PatternError (Reading × List Char) :=
  match Text.cutChars '>' name with
  | none => .error ⟨.badGroupName, String.ofList text⟩
  | some (name, rest) =>
    if name.isEmpty || !name.all isPatternWord then .error ⟨.badGroupName, upTo text rest⟩
    else .ok (r.opened r.flags true, rest)

/-- Reads the start of a group with a question mark; `text` starts with the parenthesis. -/
def specialGroup (r : Reading) (text : List Char) : Except PatternError (Reading × List Char) :=
  match text.drop 2 with
  | 'P' :: '<' :: c :: rest => namedGroup r text (c :: rest)
  | '<' :: c :: rest => namedGroup r text (c :: rest)
  | rest => groupFlags r text r.flags true false rest

/-- Closes the innermost group. -/
def closeGroup (whole : List Char) (r : Reading) : Except PatternError Reading :=
  match r.frames with
  | [] => .error ⟨.unexpectedParen, String.ofList whole⟩
  | frame :: frames => do
    let p ← checked whole (if frame.counts then .group r.pattern else r.pattern)
    return ⟨p :: frame.items, frame.branches, frame.flags, frames⟩

/-- Cuts a text at the first `\E`. -/
def toQuoteEnd : List Char → List Char × List Char
  | [] => ([], [])
  | '\\' :: 'E' :: rest => ([], rest)
  | c :: rest =>
    let (quoted, rest) := toQuoteEnd rest
    (c :: quoted, rest)

/-- Reads what a backslash starts. -/
def backslash (r : Reading) (text : List Char) : Step := do
  let done (r : Reading) (rest : List Char) : Step := .ok (r, [], rest)
  match text with
  | '\\' :: 'A' :: rest => done (r.push (.anchor .textStart)) rest
  | '\\' :: 'z' :: rest => done (r.push (.anchor .textEnd)) rest
  | '\\' :: 'b' :: rest => done (r.push (.anchor .wordEdge)) rest
  | '\\' :: 'B' :: rest => done (r.push (.anchor .noWordEdge)) rest
  | '\\' :: 'C' :: _ => throw ⟨.badEscape, "\\C"⟩
  | '\\' :: 'Q' :: rest =>
    let (quoted, rest) := toQuoteEnd rest
    done (← r.pushText quoted) rest
  | text =>
    if let some (part, rest) ← propertyClass r.flags text then return (r.pushSet part, [], rest)
    match letterClass r.flags text with
    | some (part, rest) => done (r.pushSet part) rest
    | none =>
      let (n, rest) ← escape text
      done (r.pushChar n) rest

/-- Reads one piece of an expression. -/
def step (whole : List Char) (r : Reading) (last text : List Char) : Step := do
  match text with
  | [] => return (r, [], [])
  | '(' :: '?' :: _ =>
    let (r, rest) ← specialGroup r text
    return (r, [], rest)
  | '(' :: rest => return (r.opened r.flags true, [], rest)
  | '|' :: rest => return (r.branched, [], rest)
  | ')' :: rest => return (← closeGroup whole r, [], rest)
  | '^' :: rest =>
    return (r.push (.anchor (if r.flags.multiline then .lineStart else .textStart)), [], rest)
  | '$' :: rest =>
    return (r.push (.anchor (if r.flags.multiline then .lineEnd else .textEnd)), [], rest)
  | '.' :: rest =>
    let newline := if r.flags.dotAll then [] else [(10, 10)]
    return (r.pushSet ⟨newline, false, true⟩, [], rest)
  | '[' :: _ =>
    let (set, rest) ← charClass r.flags text
    return (r.push (.char set), [], rest)
  | '*' :: rest => repeatLast r 0 none whole text last rest
  | '+' :: rest => repeatLast r 1 none whole text last rest
  | '?' :: rest => repeatLast r 0 (some 1) whole text last rest
  | '\x7b' :: rest =>
    match bounds? text with
    | none => return (r.pushChar 0x7B, [], rest)
    | some (least, most, after) =>
      if 1000 < least || most.any (fun most => 1000 < most || most < least) then
        throw ⟨.badCount, upTo text after⟩
      repeatLast r least most whole text last after
  | '\\' :: _ => backslash r text
  | c :: rest =>
    requireChar text
    return (r.pushChar c.toNat, [], rest)

/-- Reads pieces until the text is used up. Each piece takes a character. -/
def parseWithin (whole : List Char) : (steps : Nat) → Reading → (last : List Char) → List Char →
    Except PatternError Pattern
  | steps + 1, r, last, c :: rest => do
    let (r, last, rest) ← step whole r last (c :: rest)
    parseWithin whole steps r last rest
  | _, r, _, _ =>
    if r.frames.isEmpty then checked whole r.pattern
    else .error ⟨.missingParen, String.ofList whole⟩

/-- Reads a regular expression. -/
def parse (source : String) : Except PatternError Pattern :=
  let text := (Text.pieces source).map fun
    | .char c => c
    | .stray byte => Text.strayByte byte
  parseWithin text text.length {} [] text

end Pattern

end ApiTypes
