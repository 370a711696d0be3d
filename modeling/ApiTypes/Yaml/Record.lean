import ApiTypes.OrderedMap
import ApiTypes.Yaml.Free

/-!
Records, maps of texts and ordered maps from nodes, and values from whole texts. Record types are
decoded from a table of their fields.
-/

namespace ApiTypes.Yaml

open Decode (visit)

/-- A field of a record: its name and how its value changes the record. -/
structure RecordField (α : Type) where
  name : String
  decode : α → Node → Decode α

/-- The field that a decoder of its values replaces. A node without a value leaves the field as it
is. -/
def setField {α β : Type} (name : String) (decode : Decoder β) (set : α → β → α) : RecordField α :=
  ⟨name, fun record node => do
    match ← visit node decode with
    | some value => return set record value
    | none => return record⟩

/-- Decodes a mapping as a record, starting from `start`. Names that are no fields are ignored. -/
def record {α : Type} (target : String) (fields : List (RecordField α)) (start : α) : Decoder α
  | .mapping _ _ entries => distinct entries do
    let put (value : α) (again : Bool) (key : Node) (name : String) (node : Node) : Decode α := do
      match fields.find? (·.name == name) with
      | none => return value
      | some field =>
        if again then
          Decode.note [.repeatedField key.line name target]
          return value
        else field.decode value node
    let (value, _) ← Gathering.run ⟨text, .text, put⟩ free (← read).reach none start entries
    return some value
  | other => scalar target none (fun _ _ => none) other

/-- A map from texts to texts. A null in it is an empty text, and null is no map. -/
def textMap : Decoder (Option (List (String × String)))
  | .mapping _ _ entries => distinct entries do
    let put (m : List (String × String)) (again : Bool) (_ : Node) (key : String) (node : Node) :
        Decode (List (String × String)) := do
      match ← visit node text with
      | some value => return putEntry (· == ·) key value m
      | none =>
        if node.isNull && (again || (m.lookup key).isNone) then
          return putEntry (· == ·) key "" m
        else return m
    let (m, _) ← Gathering.run ⟨text, .text, put⟩ free (← read).reach none [] entries
    return some (some m)
  | other => scalar "map[string]string" (some none) (fun _ _ => none) other

section

variable {α : Type} [Inhabited α]

/-- Decodes the entries of an ordered map onto `m`, up to the first fault. A repeated key takes the
last value and keeps its place; merge keys are keys like others. -/
def orderedEntries (tree : Tree) (decode : Decoder α) :
    List (Node × Node) → OrderedMap α → OrderedMap α × Option DecodeError
  | [], m => (m, none)
  | (key, node) :: rest, m =>
    match (visit node decode).run tree with
    | .ok value => orderedEntries tree decode rest (m.set key.keyText (value.getD default))
    | .error cause => (m, some (.under key.keyText cause))

/-- Decodes a node onto an ordered map. Null leaves the map; a mapping replaces its entries, and a
fault leaves it with the entries in front of the fault. -/
def orderedOnto (tree : Tree) (decode : Decoder α) (old : OrderedMap α) (node : Node) :
    OrderedMap α × Option DecodeError :=
  if node.isNull then (old, none)
  else
    match node with
    | .mapping _ _ entries => orderedEntries tree decode entries .empty
    | other => (old, some (.shape other.line ("expected a mapping, got " ++ other.tag)))

/-- An ordered map. -/
def ordered (decode : Decoder α) : Decoder (OrderedMap α) := fun node => do
  match orderedOnto (← read) decode .empty node with
  | (m, none) => return some m
  | (_, some cause) => throw cause

end

/-- Why a text gave no value. -/
inductive TextError where
  | malformed
  | undecodable (cause : DecodeError)

/-- The value of a whole text, or `start` when the text holds no value. The document counts as a
node around its root. -/
def decodeText {α : Type} (decode : Decoder α) (start : α) (source : String) :
    Except TextError α :=
  match readStream? source with
  | none => .error .malformed
  | some .empty => .ok start
  | some (.document tree) =>
    let root : Decode (Option α) := do
      Decode.count
      visit tree.root decode
    ((root.run tree).map (·.getD start)).mapError .undecodable

end ApiTypes.Yaml
