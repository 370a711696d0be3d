import ApiTypes.Document.Decode
import ApiTypes.FileSystem
import ApiTypes.Resolver

/-!
References into other files. A file is named relative to the directory of the root document. What
is read from it gets its references rebased, so that they stay valid outside the file: a pointer
into the file itself gets the name of the file in front, and names of other files are joined to its
directory.
-/

namespace ApiTypes

open Yaml (Node Tree Collections)

/-- Why a document could not be read from its location. -/
inductive ReadError where
  | unsupported
  | file (e : FileError)
  | web (cause : String)

def ReadError.message : ReadError → String
  | .unsupported => "unsupported URI"
  | .file e => e.message
  | .web cause => cause

/-- The text at a location, which is a file or a host on the web with what may follow it. -/
def readLocation (fs : FileSystem) (location : String) : Except ReadError String :=
  match Location.webAddress? location with
  | some a => if a.host = "" then .error .unsupported else (fs.web a.render).mapError .web
  | none => if location = "" then .error .unsupported else (fs.read location).mapError .file

/-- Why a reference into another file could not be resolved. -/
inductive ExternalError where
  | notExternal (ref : String)
  | unreadable (location : String) (cause : ReadError)
  | malformed (location : String)
  | empty (location : String)
  | badPointer (ref : String)
  | keyMissing (ref token : String)
  | indexOutOfRange (ref token : String)
  | insideScalar (ref token : String)
  | undecodable (ref : String) (cause : Yaml.DecodeError)

def ExternalError.message : ExternalError → String
  | .notExternal ref => ref ++ ": not an external reference"
  | .unreadable location cause => "read " ++ location ++ ": " ++ cause.message
  | .malformed location => "parse " ++ location ++ ": yaml: the text is malformed"
  | .empty location => location ++ " is empty"
  | .badPointer ref => ref ++ ": " ++ Reference.pointerRefusal
  | .keyMissing ref token => ref ++ ": key " ++ Text.quoteDiagnostic token ++ " not found"
  | .indexOutOfRange ref token => ref ++ ": index " ++ Text.quoteDiagnostic token ++ " out of range"
  | .insideScalar ref token =>
    ref ++ ": cannot descend into scalar at " ++ Text.quoteDiagnostic token
  | .undecodable ref cause => ref ++ ": " ++ cause.message

/-- Follows tokens down a document: keys of mappings, positions in sequences. -/
def descend (ref : String) (collections : Collections) :
    Node → List String → Except ExternalError Node
  | node, [] => .ok node
  | node, token :: rest =>
    match node with
    | .mapping _ _ entries =>
      match entries.find? (·.1.keyText == token) with
      | some (_, value) => descend ref collections (collections.unalias value) rest
      | none => .error (.keyMissing ref token)
    | .sequence _ _ items =>
      match (decimalInt? token.toList).bind fun i => if i < 0 then none else items[i.toNat]? with
      | some item => descend ref collections (collections.unalias item) rest
      | none => .error (.indexOutOfRange ref token)
    | _ => .error (.insideScalar ref token)

/-- The node that a fragment names. -/
def lookupFragment (ref : String) (tree : Tree) (fragment : String) : Except ExternalError Node :=
  match Reference.pointerTokens? (Reference.decodeFragment fragment) with
  | none => .error (.badPointer ref)
  | some tokens => descend ref tree.collections tree.root tokens

/-- A reference found in the document at `location`, as it reads outside that document. -/
def rebaseRef (location ref : String) : String :=
  if ref = "" then ""
  else
    let (file, fragment) := Reference.split ref
    if file = "" then location ++ "#" ++ fragment
    else if Location.isAbsolute file then ref
    else
      Location.relativeTo location file ++
        (if Reference.hasFragment ref then "#" ++ fragment else "")

namespace Schema

/-- Applies a function to the references of a list of schemas. -/
def mapList (f : Schema → Schema) (list : Option (List (Option Schema))) :
    Option (List (Option Schema)) :=
  list.map (·.map (·.map f))

/-- Rebases the references of a schema and of all schemas below it, as far as `steps` levels. -/
def rebaseWithin (location : String) : Nat → Schema → Schema
  | 0, s => s
  | steps + 1, s =>
    let go := rebaseWithin location steps
    let s := { s with ref := rebaseRef location s.ref }
    if s.isBool then s
    else
      { s with
        properties := s.properties.map (·.map fun _ p => p.map go)
        additionalProperties := s.additionalProperties.map go
        defs := s.defs.map (·.map fun _ p => p.map go)
        items := s.items.map fun items =>
          match items with
          | .single t => .single (go t)
          | .tuple list => .tuple (list.map (·.map go))
        prefixItems := mapList go s.prefixItems
        allOf := mapList go s.allOf
        oneOf := mapList go s.oneOf
        anyOf := mapList go s.anyOf }

/-- The number of schemas in a schema bounds its depth. -/
def rebase (location : String) (s : Schema) : Schema := s.rebaseWithin location s.walk.length

end Schema

def rebaseContent (location : String) (content : Content) : Content :=
  content.map (·.map fun _ m =>
    m.map fun m => { m with schema := m.schema.map (Schema.rebase location) })

/-- Rebases the references below an object read from `location`. -/
def Object.rebase (location : String) : Object → Object
  | .schema s => .schema (s.rebase location)
  | .parameter p =>
    .parameter { p with
      schema := p.schema.map (Schema.rebase location)
      content := rebaseContent location p.content }
  | .header h =>
    .header { h with
      schema := h.schema.map (Schema.rebase location)
      content := rebaseContent location h.content }
  | .requestBody b => .requestBody { b with content := rebaseContent location b.content }
  | .response r =>
    .response { r with
      headers := r.headers.map (·.map fun _ h =>
        h.map fun h => { h with schema := h.schema.map (Schema.rebase location) })
      content := rebaseContent location r.content }
  | object => object

/-- Reads a node as an object of the given kind; null is an object without content. -/
def decodeObject (kind : Kind) (tree : Tree) (node : Node) : Except Yaml.DecodeError Object :=
  let read {α : Type} (empty : α) (decode : Yaml.Decoder α) (wrap : α → Object) :=
    ((Yaml.Decode.visit node decode).run tree).map fun x => wrap (x.getD empty)
  match kind with
  | .schema => read {} Schema.ontoEmpty .schema
  | .parameter => read {} Parameter.decoder .parameter
  | .requestBody => read {} RequestBody.decoder .requestBody
  | .response => read {} Response.decoder .response
  | .header => read {} Header.decoder .header
  | .pathItem => read {} PathItem.decoder .pathItem

/-- Resolves references into files, for a root document at `base`. -/
structure FileResolver where
  fs : FileSystem
  base : String

namespace FileResolver

/-- Where the document part of a reference leads. -/
def locate (r : FileResolver) (file : String) : String :=
  if Location.isAbsolute file then file else Location.relativeTo r.base file

/-- The document at a location. -/
def load (r : FileResolver) (location : String) : Except ExternalError Tree := do
  let text ← (readLocation r.fs location).mapError (.unreadable location)
  match Yaml.readStream? text with
  | none => throw (.malformed location)
  | some .empty => throw (.empty location)
  | some (.document tree) => return tree

/-- Reads the object behind a reference into another document. -/
def resolve (r : FileResolver) (ref : String) (kind : Kind) : Except ExternalError Object := do
  let (file, fragment) := Reference.split ref
  if file = "" then throw (.notExternal ref)
  let location := r.locate file
  let tree ← r.load location
  let node ← lookupFragment ref tree fragment
  let object ← (decodeObject kind tree node).mapError (.undecodable ref)
  return object.rebase location

/-- Two to the power 64: more characters than files can have together. A text has no more references
and no more schemas than it has characters. -/
def placeBound : Nat := 18446744073709551616

/-- The resolver of references that lead into files. -/
def toExternal (r : FileResolver) : ExternalResolver where
  fetch ref kind := (r.resolve ref kind).toOption
  reach := placeBound

end FileResolver

end ApiTypes
