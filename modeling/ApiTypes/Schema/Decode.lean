import ApiTypes.Schema.Basic
import ApiTypes.Yaml.Record

/-!
Schemas from nodes. A scalar is a boolean schema, a mapping an object of keywords, and nothing else
is a schema. Whether a constant, a default or an example is present, and which extensions there
are, is read off the keys of the mapping itself and not off merged ones.
-/

namespace ApiTypes

open Yaml
open Yaml.Decode (visit)

/-- An optional object of the named type. -/
def optionalObject {α : Type} (name : String) (decode : Decoder α) : Decoder (Option α) :=
  Yaml.optional ("openapi." ++ name) decode

/-- An optional ordered map of such objects. -/
def objectMap {α : Type} (name : String) (decode : Decoder α) :
    Decoder (Option (OrderedMap (Option α))) :=
  Yaml.optional ("openapi.OrderedMap[*github.com/blimu-dev/typegen/pkg/openapi." ++ name ++ "]")
    (ordered (optionalObject name decode))

/-- A list of such objects. -/
def objectList {α : Type} (name : String) (decode : Decoder α) :
    Decoder (Option (List (Option α))) :=
  sequence ("[]*openapi." ++ name) (optionalObject name decode)

def Discriminator.fields : List (RecordField Discriminator) := [
  setField "propertyName" text fun d s => { d with propertyName := s },
  setField "mapping" (Yaml.optional "openapi.OrderedMap[string]" (ordered text)) fun d m =>
    { d with mapping := m }]

def Discriminator.decoder : Decoder Discriminator := record "openapi.Discriminator" fields {}

namespace Schema

/-- The names of types: one name or a list of names. -/
def decodeTypes : Decoder (Option (List String)) := fun node =>
  if node.isNull then sequence "openapi.TypeSet" text node
  else
    match node with
    | .scalar _ _ value => return some (some [value])
    | .mapping line .. => throw (.shape line "type must be a string or a list of strings")
    | list => .absorb (visit list texts)

/-- What a node that is no schema is told. -/
def refusal : String := "schema must be an object or a boolean"

/-- Notes which of the keywords whose null counts are present, and the extensions. -/
def notePresence (tree : Tree) (s : Schema) : List (Node × Node) → Except DecodeError Schema
  | [] => .ok s
  | (key, value) :: rest =>
    let name := key.keyText
    if name = "const" then notePresence tree { s with hasConst := true } rest
    else if name = "default" then notePresence tree { s with hasDefault := true } rest
    else if name = "example" then notePresence tree { s with hasSample := true } rest
    else if Text.startsWith "x-" name then
      match (visit value free).run tree with
      | .ok v =>
        let extensions := putEntry (· == ·) name (v.getD .null) s.extensions
        notePresence tree { s with extensions } rest
      | .error cause => .error (.under name cause)
    else notePresence tree s rest

/-- The keywords of a schema, given how the schemas below it are decoded. -/
def fields (schema : Decoder Schema) : List (RecordField Schema) :=
  let child := optionalObject "Schema" schema
  let list := objectList "Schema" schema
  let map := objectMap "Schema" schema
  let items : Decoder (Items Schema)
    | .sequence line tag nodes => do
      let list ← Decode.absorb (visit (.sequence line tag nodes) list)
      return list.map fun found => .tuple (found.getD [])
    | other => do return (← Decode.absorb (visit other schema)).map .single
  [setField "$ref" text fun s x => { s with ref := x },
    setField "type" decodeTypes fun s x => { s with types := x },
    setField "format" text fun s x => { s with format := x },
    setField "title" text fun s x => { s with title := x },
    setField "summary" text fun s x => { s with summary := x },
    setField "description" text fun s x => { s with description := x },
    setField "deprecated" flag fun s x => { s with deprecated := x },
    setField "readOnly" flag fun s x => { s with readOnly := x },
    setField "writeOnly" flag fun s x => { s with writeOnly := x },
    setField "nullable" flag fun s x => { s with nullable := x },
    setField "default" free fun s x => { s with default := x },
    setField "example" free fun s x => { s with sample := x },
    setField "const" free fun s x => { s with const := x },
    setField "enum" freeList fun s x => { s with enum := x },
    setField "properties" map fun s x => { s with properties := x },
    setField "required" texts fun s x => { s with required := x },
    setField "additionalProperties" child fun s x => { s with additionalProperties := x },
    setField "$defs" map fun s x => { s with defs := x },
    setField "items" (optionalObject "Items" items) fun s x => { s with items := x },
    setField "prefixItems" list fun s x => { s with prefixItems := x },
    setField "minItems" (Yaml.optional "int" int) fun s x => { s with minItems := x },
    setField "maxItems" (Yaml.optional "int" int) fun s x => { s with maxItems := x },
    setField "allOf" list fun s x => { s with allOf := x },
    setField "oneOf" list fun s x => { s with oneOf := x },
    setField "anyOf" list fun s x => { s with anyOf := x },
    setField "discriminator" (optionalObject "Discriminator" Discriminator.decoder) fun s x =>
      { s with discriminator := x }]

/-- Decodes a node that is not null as a schema; `steps` bounds the depth of the schema. -/
def decodeWithin : (steps : Nat) → Decoder Schema
  | 0 => fun _ => throw (.invalid "nesting")
  | steps + 1 => fun
    | .scalar line tag value => do
      match (visit (.scalar line tag value) flag).run (← read) with
      | .ok b => return some { bool := some (b.getD false) }
      | .error _ => throw (.shape line refusal)
    | .mapping line tag entries => do
      let raw := record "openapi.rawSchema" (fields (decodeWithin steps)) {}
      match ← Decode.absorb (visit (.mapping line tag entries) raw) with
      | none => return none
      | some s =>
        match notePresence (← read) s entries with
        | .ok s => return some s
        | .error cause => throw cause
    | other => throw (.shape other.line refusal)

/-- A schema. -/
def decoder : Decoder Schema := fun node => do decodeWithin (← read).reach node

/-- A schema that is there already: null leaves it as it is, and a mapping that is tagged as null
is read as keywords alone. -/
def ontoEmpty : Decoder Schema := fun node =>
  if node.isNull then record "openapi.Schema" (fields decoder) {} node else decoder node

end Schema

end ApiTypes
