import ApiTypes.Yaml.Decode
import ApiTypes.Yaml.Value

/-!
Free values from nodes, and the entries of mappings. A mapping may take over the entries of other
mappings through merge keys; its own entries come first, and an entry taken over never replaces one
that is there already.
-/

namespace ApiTypes.Yaml

open Decode (visit)

def isMergeKey : Node → Bool
  | .scalar _ tag value => value == "<<" && tag == "!!merge"
  | _ => false

/-- Why a merge key may refuse its value. -/
def mergeRefusal : String := "map merge requires map or sequence of maps as the value"

def isCollection : Value → Bool
  | .list _ | .dict _ | .table _ => true
  | _ => false

/-- A collection cannot be a key. -/
def requireKey (key : Value) : Decode Unit :=
  if isCollection key then throw (.invalid "invalid map key") else pure ()

/-- How the entries of a mapping are gathered: how its keys are read, what a key is among free
values, and what becomes of an entry. `put` is told whether the mapping has had the key before, the
node of the key, the key and the node of the value. -/
structure Gathering (σ κ : Type) where
  key : Decoder κ
  identity : κ → Value
  put : σ → (again : Bool) → Node → κ → Node → Decode σ

/-- The state of gathering the entries of a mapping. `taken` holds the keys that a mapping further
out has set, if this one is merged into it, and `seen` the keys met in this one. -/
structure Gathered (σ : Type) where
  value : σ
  taken : Option (List Value)
  seen : List Value := []

namespace Gathering

variable {σ κ : Type}

/-- Takes an entry of the mapping itself. -/
def own (how : Gathering σ κ) (g : Gathered σ) (entry : Node × Node) : Decode (Gathered σ) := do
  let (keyNode, node) := entry
  if isMergeKey keyNode then return g
  match ← visit keyNode how.key with
  | none => return g
  | some key =>
    let identity := how.identity key
    requireKey identity
    if (g.taken.getD []).any identity.isSameKey then return g
    let value ← how.put g.value (g.seen.any identity.isSameKey) keyNode key node
    return ⟨value, g.taken.map (identity :: ·), identity :: g.seen⟩

/-- The keys of a mapping as free values. -/
def ownKeys (free : Decoder Value) (entries : List (Node × Node)) : Decode (List Value) := do
  let keys ← entries.filterMapM fun (key, _) => visit key free
  keys.forM requireKey
  return keys

/-- Gathers the entries of a mapping and those merged into it; `free` decodes free values. -/
def run (how : Gathering σ κ) (free : Decoder Value) :
    Nat → (taken : Option (List Value)) → σ → List (Node × Node) →
    Decode (σ × Option (List Value))
  | 0, _, _, _ => throw (.invalid "nesting")
  | steps + 1, taken, start, entries => do
    let g ← entries.foldlM how.own ⟨start, taken, []⟩
    match (entries.filter (isMergeKey ·.1)).getLast? with
    | none => return (g.value, g.taken)
    | some (_, source) =>
      let keys ←
        match g.taken with
        | some keys => pure keys
        | none => ownKeys free entries
      let sources :=
        match source with
        | .sequence _ _ items => items
        | node => [node]
      let (value, keys) ← sources.foldlM (fun (value, keys) source => do
        match (← read).collections.unalias source with
        | .mapping .. =>
          let merged ← visit source fun
            | .mapping _ _ inner => distinct inner do
              let (value, taken) ← run how free steps (some keys) value inner
              return some (value, taken.getD keys)
            | _ => return none
          return merged.getD (value, keys)
        | _ => throw (.invalid mergeRefusal)) (g.value, keys)
      return (value, g.taken.map fun _ => keys)

end Gathering

def atomValue : Atom → Value
  | .null => .null
  | .bool b => .bool b
  | .int n => .int n
  | .float x => .float x
  | .time t => .time t
  | .text s => .text s

/-- Whether all keys of a mapping are texts. -/
def hasTextKeys (entries : List (Node × Node)) : Bool :=
  entries.all fun (key, _) => key.tag == "!!str" || key.tag == "!!merge"

/-- Stores a value in a list of entries. A key that is there already keeps its place, and takes the
form in which it came last. -/
def putEntry {κ ν : Type} (isSame : κ → κ → Bool) (key : κ) (value : ν) :
    List (κ × ν) → List (κ × ν)
  | [] => [(key, value)]
  | (k, v) :: rest =>
    if isSame k key then (key, value) :: rest else (k, v) :: putEntry isSame key value rest

/-- Decodes a node as a free value; `steps` bounds the depth of what is visited. -/
def freeWithin : (steps : Nat) → Decoder Value
  | 0 => fun _ => throw (.invalid "nesting")
  | steps + 1 => fun
    | .scalar _ tag value =>
      match scalarAtom tag value with
      | .ok atom => return some (atomValue atom)
      | .error cause => throw cause
    | .sequence _ _ items => do
      return some (.list ((← items.mapM (visit · (freeWithin steps))).filterMap id))
    | .mapping _ _ entries => distinct entries do
      let gather {κ : Type} (key : Decoder κ) (identity : κ → Value) (isSame : κ → κ → Bool) :
          Decode (List (κ × Value)) := do
        let put (m : List (κ × Value)) (_ : Bool) (_ : Node) (key : κ) (node : Node) := do
          match ← visit node (freeWithin steps) with
          | some value => return putEntry isSame key value m
          | none => return m
        let (m, _) ← Gathering.run ⟨key, identity, put⟩ (freeWithin steps) (← read).reach none []
          entries
        return m
      if hasTextKeys entries then return some (.dict (← gather text .text (· == ·)))
      else return some (.table (← gather (freeWithin steps) id Value.isSameKey))
    | _ => return none

/-- A free value. -/
def free : Decoder Value := fun node => do freeWithin (← read).reach node

/-- A list of free values. -/
def freeList : Decoder (Option (List Value)) := sequence "[]interface {}" free

end ApiTypes.Yaml
