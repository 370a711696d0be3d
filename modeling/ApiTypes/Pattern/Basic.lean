import ApiTypes.Text.Bytes
import ApiTypes.Text.CaseFold
import ApiTypes.Text.Words

/-!
Regular expressions and the texts they occur in. Matching computes, for a place in the text, all
places at which a match from there can end. Repetition collects such places until no new one
comes; a text has one place more than characters.
-/

namespace ApiTypes

/-- Part of a set of characters: ranges of character numbers, with case ignored or not, or all
characters outside of them. -/
structure CharRanges where
  ranges : List (Nat × Nat)
  folded : Bool := false
  negated : Bool := false
  deriving DecidableEq, Repr

/-- A union of parts, or all characters outside of it. -/
structure CharSet where
  parts : List CharRanges
  negated : Bool := false
  deriving DecidableEq, Repr

def CharRanges.has (r : CharRanges) (c : Char) : Bool :=
  let inside (n : Nat) : Bool := r.ranges.any fun (low, high) => low ≤ n && n ≤ high
  (if r.folded then (Text.orbit c).any inside else inside c.toNat) != r.negated

def CharSet.has (s : CharSet) (c : Char) : Bool := s.parts.any (·.has c) != s.negated

/-- A condition on a place in a text. -/
inductive Anchor where
  | textStart
  | textEnd
  | lineStart
  | lineEnd
  | wordEdge
  | noWordEdge
  deriving DecidableEq, Repr

/-- A regular expression. -/
inductive Pattern where
  | empty
  | char (set : CharSet)
  | anchor (condition : Anchor)
  | both (first second : Pattern)
  | either (first second : Pattern)
  /-- A pattern in parentheses that count. -/
  | group (body : Pattern)
  /-- At least `least` times, and at most `most` times if that is given. -/
  | times (body : Pattern) (least : Nat) (most : Option Nat)
  deriving DecidableEq, Repr, Inhabited

/-- Letters, digits and the underscore make up words. -/
def isPatternWord (c : Char) : Bool := Text.isWordChar c || c = '_'

def Anchor.holds (text : Array Char) (place : Nat) (a : Anchor) : Bool :=
  let before := if place = 0 then none else text[place - 1]?
  let after := text[place]?
  match a with
  | .textStart => place = 0
  | .textEnd => place = text.size
  | .lineStart => place = 0 || before = some '\n'
  | .lineEnd => place = text.size || after = some '\n'
  | .wordEdge => before.any isPatternWord != after.any isPatternWord
  | .noWordEdge => before.any isPatternWord == after.any isPatternWord

namespace Pattern

/-- The places that any number of steps lead to; at most `rounds` rounds are made. -/
def saturate (step : Nat → List Nat) : (rounds : Nat) → List Nat → List Nat
  | 0, places => places
  | rounds + 1, places =>
    let new := ((places.flatMap step).filter fun i => !places.contains i).eraseDups
    if new.isEmpty then places else saturate step rounds (places ++ new)

/-- The places that exactly `count` steps lead to. -/
def exactly (step : Nat → List Nat) : (count : Nat) → List Nat → List Nat
  | 0, places => places
  | count + 1, places => exactly step count (places.flatMap step).eraseDups

/-- The places that at most `count` steps lead to. -/
def atMost (step : Nat → List Nat) : (count : Nat) → List Nat → List Nat
  | 0, places => places
  | count + 1, places =>
    let next := (places.flatMap step).eraseDups
    if next.isEmpty then places else (places ++ atMost step count next).eraseDups

/-- The places at which a match from the given place can end. -/
def ends (text : Array Char) : Pattern → Nat → List Nat
  | .empty, i => [i]
  | .char set, i => if text[i]?.any set.has then [i + 1] else []
  | .anchor condition, i => if condition.holds text i then [i] else []
  | .both p q, i => ((ends text p i).flatMap (ends text q)).eraseDups
  | .either p q, i => (ends text p i ++ ends text q i).eraseDups
  | .group p, i => ends text p i
  | .times p least most, i =>
    let places := exactly (ends text p) least [i]
    match most with
    | none => saturate (ends text p) (text.size + 1) places
    | some most => atMost (ends text p) (most - least) places

/-- Whether the pattern occurs anywhere in the text. -/
def occursIn (p : Pattern) (s : String) : Bool :=
  let text := (Text.toPlain s).toList.toArray
  (List.range (text.size + 1)).any fun i => !(p.ends text i).isEmpty

/-- Patterns one after another. -/
def concat : List Pattern → Pattern
  | [] => .empty
  | [p] => p
  | p :: rest => .both p (concat rest)

/-- One of some patterns. -/
def oneOf : List Pattern → Pattern
  | [] => .empty
  | [p] => p
  | p :: rest => .either p (oneOf rest)

/-- Whether nested repetitions stay below a number of copies of the innermost pattern. -/
def repeatsWithin : Nat → Pattern → Bool
  | limit, .both p q | limit, .either p q => repeatsWithin limit p && repeatsWithin limit q
  | limit, .group p => repeatsWithin limit p
  | limit, .times p least most =>
    let copies := most.getD least
    if most = some 0 then true
    else if limit < copies then false
    else repeatsWithin (if 0 < copies then limit / copies else limit) p
  | _, _ => true

/-- What a pattern is at its top: one letter or several in a row, parts one after another,
alternatives, or anything else. -/
inductive Top where
  | letters
  | parts
  | alternatives
  | other
  deriving DecidableEq, Repr

/-- How deep a pattern is nested, and what it is at its top. Letters in a row are one part, and
parts of parts, or alternatives among alternatives, are no deeper than the others. -/
def nesting : Pattern → Nat × Top
  | .empty | .anchor _ => (1, .other)
  | .char ⟨[⟨[(low, high)], _, false⟩], false⟩ => (1, if low = high then .letters else .other)
  | .char _ => (1, .other)
  | .both p q => joined .parts p.nesting q.nesting
  | .either p q => joined .alternatives p.nesting q.nesting
  | .group p | .times p .. => (p.nesting.1 + 1, .other)
where
  joined (top : Top) (a b : Nat × Top) : Nat × Top :=
    if top = .parts && a.2 = .letters && b.2 = .letters then (1, .letters)
    else
      let below (c : Nat × Top) := if c.2 = top then c.1 - 1 else c.1
      (max (below a) (below b) + 1, top)

/-- The deepest nesting that is accepted. -/
def nestingLimit : Nat := 1000

def isTooDeep (p : Pattern) : Bool := nestingLimit < p.nesting.1

end Pattern

end ApiTypes
