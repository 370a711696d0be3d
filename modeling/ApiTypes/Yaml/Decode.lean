import ApiTypes.Text.Base64
import ApiTypes.Text.Bytes
import ApiTypes.Yaml.Node
import ApiTypes.Yaml.Problem

/-!
Decoding: how the nodes of a document become values. Nodes are visited one after another, and each
visit is counted, so that a document cannot grow without bound through its aliases. This module has
the decoders for scalars, sequences and optional values.
-/

namespace ApiTypes.Yaml

/-- How far decoding has come: the problems met so far, last first, how many nodes have been visited
and how many of them behind aliases, and the aliases that are being followed. -/
structure Tally where
  problems : List Problem := []
  visits : Nat := 0
  aliased : Nat := 0
  following : List Nat := []

namespace Tally

/-- Counts a visit. -/
def visited (t : Tally) : Tally :=
  { t with
    visits := t.visits + 1
    aliased := if t.following.isEmpty then t.aliased else t.aliased + 1 }

/-- Whether too many of the visits are due to aliases: more than 99 of 100, and for more than
400,000 visits a part that falls evenly to a tenth at 4,000,000. The first visits are free. -/
def isExcessive (t : Tally) : Bool :=
  100 < t.aliased && 1000 < t.visits &&
    if t.visits ≤ 400000 then 99 * t.visits < 100 * t.aliased
    else if 4000000 ≤ t.visits then t.visits < 10 * t.aliased
    else t.visits * (99 * 3600000 - 89 * (t.visits - 400000)) < 100 * 3600000 * t.aliased

end Tally

/-- Decoding of nodes of a document. -/
abbrev Decode := ReaderT Tree (StateT Tally (Except DecodeError))

/-- How a node that is no alias becomes a value. Nothing comes out of a node that has no value of
the kind, and a problem is noted where that is a fault. -/
abbrev Decoder (α : Type) := Node → Decode (Option α)

namespace Decode

variable {α : Type}

/-- Decoding on its own: any problem is an error. -/
def run (d : Decode α) (tree : Tree) : Except DecodeError α :=
  match (ReaderT.run d tree).run {} with
  | .error e => .error e
  | .ok (value, tally) =>
    if tally.problems.isEmpty then .ok value else .error (.problems tally.problems.reverse)

/-- Notes problems. -/
def note (list : List Problem) : Decode Unit :=
  modify fun t => { t with problems := list.reverse ++ t.problems }

/-- Notes problems and gives no value. -/
def problems (list : List Problem) : Decode (Option α) := do
  note list
  return none

/-- Decodes on its own and takes over what comes of it: problems join those met so far, any other
fault ends decoding. -/
def absorb (d : Decode (Option α)) : Decode (Option α) := do
  match d.run (← read) with
  | .ok value => return value
  | .error (.problems list) => problems list
  | .error e => throw e

/-- Counts a visit. -/
def count : Decode Unit := do
  modify Tally.visited
  if (← get).isExcessive then throw (.invalid "document contains excessive aliasing")

/-- Decodes what the alias with the given number stands for. An alias for a node that contains it
has no value. -/
def follow (id : Nat) (name : String) (d : Decode α) : Decode α := do
  if (← get).following.contains id then
    throw (.invalid ("anchor '" ++ name ++ "' value contains itself"))
  modify fun t => { t with following := id :: t.following }
  let value ← d
  modify fun t => { t with following := t.following.drop 1 }
  return value

/-- Visits a node and, if it is an alias, the node it stands for. -/
def visit (node : Node) (decode : Node → Decode α) : Decode α := do
  count
  match node with
  | .alias _ name id target => follow id name do count; decode target
  | .cycle _ name id _ collection =>
    match (← read).collections.lookup collection with
    | some target => follow id name do count; decode target
    | none => throw (.invalid ("unknown anchor '" ++ name ++ "' referenced"))
  | node => decode node

end Decode

open Decode (visit)

/-- The meaning of a scalar node. -/
def scalarAtom (tag value : String) : Except DecodeError Atom :=
  if tag = "!!binary" then
    match Text.Base64.decode? (value.toList.filter fun c => c ≠ '\n' && c ≠ '\r') with
    | some bytes => .ok (.text (Text.ofBytes bytes))
    | none => .error (.invalid "!!binary value contains invalid base64 data")
  else
    match atomWithTag? tag value with
    | some atom => .ok atom
    | none =>
      let found := (atomOf false value).tag
      .error (.invalid ("cannot decode " ++ found ++ " \x60" ++ value ++ "\x60 as a " ++ tag))

/-- What two keys have in common when they count as the same key: their kind and their text. -/
def keyIdentity : Node → Nat × String
  | .scalar _ _ value => (0, value)
  | .sequence .. => (1, "")
  | .mapping .. => (2, "")
  | .alias _ name .. | .cycle _ name .. => (3, name)

/-- The keys of a mapping that were there before, each with every earlier place. -/
def repeatedKeys : List (Node × Node) → List Problem
  | [] => []
  | (key, _) :: rest =>
    let later := rest.filter fun (k, _) => keyIdentity k = keyIdentity key
    later.map (fun (k, _) => .repeatedKey k.line key.keyText key.line) ++ repeatedKeys rest

/-- Decodes a mapping with the given entries, unless keys are repeated in it. -/
def distinct {α : Type} (entries : List (Node × Node)) (d : Decode (Option α)) :
    Decode (Option α) :=
  match repeatedKeys entries with
  | [] => d
  | repeated => .problems repeated

/-- Notes that a node does not fit the target. -/
def mismatch {α : Type} (target : String) : Decoder α
  | .scalar line tag value => .problems [.mismatch line tag value target]
  | .sequence line tag _ => .problems [.mismatch line tag "" target]
  | .mapping line tag entries => distinct entries (.problems [.mismatch line tag "" target])
  | _ => return none

/-- Decodes a scalar. `null` is what comes of null; `take` chooses what else the target accepts. -/
def scalar {α : Type} (target : String) (null : Option α) (take : Atom → String → Option α) :
    Decoder α
  | .scalar line tag value => do
    match scalarAtom tag value with
    | .error e => throw e
    | .ok .null => return null
    | .ok atom =>
      match take atom value with
      | some new => return some new
      | none => mismatch target (.scalar line tag value)
  | other => mismatch target other

/-- A text takes any scalar as it is written. -/
def text : Decoder String :=
  scalar "string" none fun atom value =>
    match atom with
    | .text s => some s
    | _ => some value

/-- A truth value, also written as one of the words of older versions of the format. -/
def flag : Decoder Bool :=
  scalar "bool" none fun atom _ =>
    match atom with
    | .bool b => some b
    | .text s =>
      if ["y", "Y", "yes", "Yes", "YES", "on", "On", "ON"].contains s then some true
      else if ["n", "N", "no", "No", "NO", "off", "Off", "OFF"].contains s then some false
      else none
    | _ => none

/-- The least integer of 64 bits, which stands for every number too small for it. -/
def leastInt : Int := -(twoTo 63 : Int)

/-- An integer of 64 bits; the fraction of a number is cut off. -/
def intOfAtom : Atom → Option Int
  | .int n => if fitsInt64 n then some n else none
  | .float (.infinite negative) => if negative then some leastInt else none
  | .float x =>
    match x.truncate? with
    | none => none
    | some n => if fitsInt64 n then some n else if n ≤ (twoTo 63 : Int) then some leastInt else none
  | _ => none

def int : Decoder Int := scalar "int" none fun atom _ => intOfAtom atom

/-- An optional value of the target type: null takes it away, and a collection that is tagged as
null fits nothing. -/
def optional {α : Type} (target : String) (decode : Decoder α) : Decoder (Option α) := fun node =>
  if node.isNull then scalar ("*" ++ target) (some none) (fun _ _ => none) node
  else do return (← decode node).map some

/-- The items of a sequence, decoded one after another; those without a value are left out. -/
def sequence {α : Type} (target : String) (decode : Decoder α) : Decoder (Option (List α))
  | .sequence _ _ items => do return some ((← items.mapM (visit · decode)).filterMap id)
  | other => scalar target (some none) (fun _ _ => none) other

/-- A list of texts. A null among them is left out. -/
def texts : Decoder (Option (List String)) := sequence "[]string" text

end ApiTypes.Yaml
