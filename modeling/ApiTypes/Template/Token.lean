import ApiTypes.Text.Category
import ApiTypes.Text.Diagnostic
import ApiTypes.Text.Words

/-!
Tokens of text templates. Actions stand in doubled braces; a minus sign directly inside the braces,
set off by a blank, takes away the blanks of the text on that side. The last token is the end of the
text or a fault.
-/

namespace ApiTypes.Template

inductive TokenKind where
  | text
  | leftDelim
  | rightDelim
  | space
  | pipe
  | dot
  | field
  | variable
  | identifier
  | keyword
  | quoted
  | rawQuoted
  /-- Signs that no action starts or goes on with here. -/
  | sign
  | fault
  | finish
  deriving DecidableEq, Repr

/-- A token, where it starts in bytes, and on which line. -/
structure Token where
  kind : TokenKind
  value : String
  offset : Nat
  line : Nat
  deriving DecidableEq, Repr

/-- A token as it appears in a message. -/
def Token.describe (t : Token) : String :=
  match t.kind with
  | .finish => "EOF"
  | .fault => t.value
  | .keyword => "<" ++ t.value ++ ">"
  | _ =>
    if 10 < Text.byteLength t.value then
      Text.quoteDiagnostic (String.ofList (t.value.toList.take 10)) ++ "..."
    else Text.quoteDiagnostic t.value

/-- A place in the text. -/
structure Place where
  offset : Nat := 0
  line : Nat := 1

/-- The place after some characters. -/
def Place.past (p : Place) (cs : List Char) : Place :=
  ⟨p.offset + Text.byteCount cs, p.line + cs.count '\n'⟩

def Place.token (p : Place) (kind : TokenKind) (cs : List Char) : Token :=
  ⟨kind, String.ofList cs, p.offset, p.line⟩

def isBlank (c : Char) : Bool := c = ' ' || c = '\t' || c = '\r' || c = '\n'

def isLetterOrDigit (c : Char) : Bool :=
  if c.toNat < 128 then Text.isWordChar c || c = '_'
  else
    ["L", "Nd"].any fun property =>
      ((Text.propertyRanges? property).getD []).any fun (low, high) =>
        low ≤ c.toNat && c.toNat ≤ high

def keywords : List String :=
  ["block", "break", "continue", "define", "else", "end", "if", "range", "nil", "template", "with"]

/-- Whether blanks before an action are to be taken away: the text after the opening braces. -/
def trimsBefore : List Char → Bool
  | '-' :: c :: _ => isBlank c
  | _ => false

/-- The closing braces at the front of a text: whether blanks after them are taken away, the braces
with what belongs to them, and the rest. -/
def closing? : List Char → Option (Bool × List Char × List Char)
  | '\x7d' :: '\x7d' :: rest => some (false, ['\x7d', '\x7d'], rest)
  | c :: '-' :: '\x7d' :: '\x7d' :: rest =>
    if isBlank c then some (true, [c, '-', '\x7d', '\x7d'], rest) else none
  | _ => none

/-- Text up to the next opening braces, and the text after them. -/
def toOpening : List Char → List Char × Option (List Char)
  | [] => ([], none)
  | '\x7b' :: '\x7b' :: rest => ([], some rest)
  | c :: rest =>
    let (before, after) := toOpening rest
    (c :: before, after)

/-- Text up to the end of a comment, and the text after it. -/
def toCommentEnd? : List Char → Option (List Char × List Char)
  | [] => none
  | '*' :: '/' :: rest => some ([], rest)
  | c :: rest => (toCommentEnd? rest).map fun (before, after) => (c :: before, after)

/-- Whether a name may end in front of this text. -/
def atTerminator (cs : List Char) : Bool :=
  match cs with
  | [] => true
  | c :: _ => isBlank c || ['.', ',', '|', ':', ')', '('].contains c || (closing? cs).isSome

/-- A character and its number, for messages. -/
def nameChar (c : Char) : String :=
  let digits := (Nat.toDigits 16 c.toNat).map Char.toUpper
  "U+" ++ String.ofList (List.replicate (4 - digits.length) '0' ++ digits) ++
    (if Text.isPrintable c then " '" ++ String.ofList [c] ++ "'" else "")

/-- A quoted text up to its closing quote, without the opening one. Nothing comes out if a line
ends first. -/
def quotedEnd? : List Char → Option (List Char × List Char)
  | '"' :: rest => some (['"'], rest)
  | '\\' :: c :: rest =>
    if c = '\n' then none
    else (quotedEnd? rest).map fun (body, rest) => ('\\' :: c :: body, rest)
  | c :: rest =>
    if c = '\n' then none else (quotedEnd? rest).map fun (body, rest) => (c :: body, rest)
  | [] => none

/-- The outcome of reading one token inside an action. -/
inductive Piece where
  /-- A token of some characters, and the rest. -/
  | token (kind : TokenKind) (cs rest : List Char)
  | closed (trims : Bool) (cs rest : List Char)
  | fault (message : String)

/-- Reads a name after its first characters. -/
def namePiece (kind : TokenKind) (start cs : List Char) : Piece :=
  let name := cs.takeWhile isLetterOrDigit
  let rest := cs.drop name.length
  match rest with
  | c :: _ => if atTerminator rest then .token kind (start ++ name) rest
    else .fault ("bad character " ++ nameChar c)
  | [] => .token kind (start ++ name) []

/-- Reads blanks inside an action. The last blank belongs to closing braces that ask for it. -/
def blankPiece (cs : List Char) : Piece :=
  let blanks := cs.takeWhile isBlank
  let last := blanks.drop (blanks.length - 1)
  let rest := cs.drop blanks.length
  match closing? (last ++ rest) with
  | some (true, braces, after) =>
    if blanks.length = 1 then .closed true braces after
    else .token .space (blanks.take (blanks.length - 1)) (last ++ rest)
  | _ => .token .space blanks rest

/-- Reads one token inside an action. -/
def piece (cs : List Char) : Piece :=
  match closing? cs with
  | some (trims, braces, rest) => .closed trims braces rest
  | none =>
    match cs with
    | [] => .fault "unclosed action"
    | '|' :: rest => .token .pipe ['|'] rest
    | '"' :: rest =>
      match quotedEnd? rest with
      | some (body, rest) => .token .quoted ('"' :: body) rest
      | none => .fault "unterminated quoted string"
    | '\x60' :: rest =>
      match Text.cutChars '\x60' rest with
      | some (body, rest) => .token .rawQuoted ('\x60' :: body ++ ['\x60']) rest
      | none => .fault "unterminated raw quoted string"
    | '.' :: rest =>
      if atTerminator rest then .token .dot ['.'] rest else namePiece .field ['.'] rest
    | '$' :: rest =>
      if atTerminator rest then .token .variable ['$'] rest else namePiece .variable ['$'] rest
    | c :: rest =>
      if isBlank c then blankPiece cs
      else if isLetterOrDigit c && !Text.isDigit c then
        match namePiece .identifier [] cs with
        | .token kind name rest =>
          .token (if keywords.contains (String.ofList name) then .keyword else kind) name rest
        | other => other
      else if c.toNat < 128 && Text.isPrintable c then .token .sign [c] rest
      else .fault ("unrecognized character in action: " ++ nameChar c)

/-- Reads tokens. Each step takes characters or ends an action, so twice the length of the text is
enough. -/
def tokensWithin : (steps : Nat) → (inside : Bool) → Place → List Char → List Token
  | 0, _, p, _ => [p.token .finish []]
  | steps + 1, true, p, cs =>
    match piece cs with
    | .fault message => [⟨.fault, message, p.offset, p.line⟩]
    | .token kind part rest => p.token kind part :: tokensWithin steps true (p.past part) rest
    | .closed trims braces rest =>
      let atBraces := p.past (if trims then braces.take 2 else [])
      let dropped := if trims then rest.takeWhile isBlank else []
      atBraces.token .rightDelim ['\x7d', '\x7d'] ::
        tokensWithin steps false ((p.past braces).past dropped) (rest.drop dropped.length)
  | steps + 1, false, p, cs =>
    match toOpening cs with
    | (before, none) =>
      if before.isEmpty then [p.token .finish []]
      else [p.token .text before, (p.past before).token .finish []]
    | (before, some after) =>
      let trims := trimsBefore after
      let shown := if trims then (before.reverse.dropWhile isBlank).reverse else before
      let texts := if shown.isEmpty then [] else [p.token .text shown]
      let here := p.past before
      let marker := if trims then after.take 2 else []
      let inner := after.drop marker.length
      let inside := (here.past ['\x7b', '\x7b']).past marker
      match inner with
      | '/' :: '*' :: comment =>
        match toCommentEnd? comment with
        | none => texts ++ [⟨.fault, "unclosed comment", inside.offset, inside.line⟩]
        | some (body, rest) =>
          let done := inside.past (['/', '*'] ++ body ++ ['*', '/'])
          match closing? rest with
          | none =>
            texts ++
              [⟨.fault, "comment ends before closing delimiter", inside.offset, inside.line⟩]
          | some (trims, braces, rest) =>
            let dropped := if trims then rest.takeWhile isBlank else []
            texts ++ tokensWithin steps false ((done.past braces).past dropped)
              (rest.drop dropped.length)
      | inner =>
        texts ++ here.token .leftDelim ['\x7b', '\x7b'] :: tokensWithin steps true inside inner

/-- The tokens of a template. -/
def tokens (source : String) : List Token :=
  let cs := source.toList
  tokensWithin (2 * cs.length + 2) false {} cs

end ApiTypes.Template
