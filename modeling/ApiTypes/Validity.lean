import ApiTypes.Document.Load
import ApiTypes.Typing.Path

/-!
The validity of a description, which a validator decides. The one given here knows plain rules: the
parts that must be there, are there, and every reference leads somewhere.
-/

namespace ApiTypes

namespace Validity

open Resolver (Resolving)

/-- The names of types that a schema may give. -/
def typeNames : List String := ["array", "boolean", "integer", "number", "object", "string"]

/-- A schema names known types, an array says what its items are, and a value that can be neither
read nor written is none. -/
def schemaHolds (s : Schema) : Bool :=
  s.isBool || ((s.types.getD []).all typeNames.contains &&
    (!s.hasType "array" || s.items.isSome) && !(s.readOnly && s.writeOnly) && !s.hasConst &&
    s.prefixItems.isNone && s.defs.isNone)

/-- A value is described by a schema or by one media type, and not by both. -/
def hasOneDescription (schema : Option Schema) (content : Content) : Bool :=
  let count := (entriesOf content).length
  if schema.isSome then count = 0 else count = 1

/-- A parameter has a name and a place, and in a path it must be given. -/
def parameterHolds (p : Parameter) : Bool :=
  p.name ≠ "" && ["path", "query", "header", "cookie"].contains p.location &&
    (p.location ≠ "path" || p.required) && hasOneDescription p.schema p.content

/-- A response says what it is. -/
def responseHolds (r : Response) : Bool := r.description ≠ "" && r.summary = ""

/-- An operation has responses. -/
def operationHolds (o : Operation) : Bool := !(entriesOf o.responses).isEmpty

/-- Whether a reference leads to an object of the wanted type. -/
def leads (α : Type) [Referable α] (ref : String) : Resolving Bool := do
  return (← Resolver.find? α ref).isSome

/-- An object is a reference that leads somewhere, or satisfies the rule for its kind. -/
def objectHolds : Object → Resolving Bool
  | .schema s => if s.isRef then leads Schema s.ref else pure (schemaHolds s)
  | .parameter p => if p.ref = "" then pure (parameterHolds p) else leads Parameter p.ref
  | .requestBody b => if b.ref = "" then pure b.content.isSome else leads RequestBody b.ref
  | .response r => if r.ref = "" then pure (responseHolds r) else leads Response r.ref
  | .header h =>
    if h.ref = "" then pure (hasOneDescription h.schema h.content) else leads Header h.ref
  | .pathItem p => if p.ref = "" then pure true else leads PathItem p.ref
  | .operation o => pure (operationHolds o)
  | .mediaType _ => pure true

/-- The parameters of a list, with references followed. -/
def resolved (parameters : Option (List (Option Parameter))) : Resolving (List Parameter) :=
  (parameters.getD []).filterMapM fun p =>
    match p with
    | none => pure none
    | some p => if p.ref = "" then pure (some p) else Resolver.find? Parameter p.ref

/-- The names of the parameters in the path. -/
def pathNames (parameters : List Parameter) : List String :=
  (parameters.filter (·.location = "path")).map (·.name)

/-- Whether no item comes twice. -/
def isDistinct {α : Type} [BEq α] (items : List α) : Bool := items.eraseDups.length = items.length

/-- An operation declares each of its parameters once, and in the path exactly those that the path
has places for. -/
def parametersHold (path : String) (shared : List Parameter) (o : Operation) : Resolving Bool := do
  let own ← resolved o.parameters
  let declared := pathNames own ++ pathNames shared
  let places := ((PathTemplate.ofPath path).params.map (·.1)).eraseDups
  return isDistinct (own.map fun p => (p.location, p.name)) &&
    (declared.length = places.length ||
      (declared.all places.contains && places.all declared.contains))

/-- A path item, with a reference followed. -/
def followed (item : PathItem) : Resolving PathItem := do
  if item.ref = "" then return item
  return (← Resolver.find? PathItem item.ref).getD item

/-- A path starts with a slash, and its operations have the parameters it asks for. -/
def pathHolds (path : String) (item : Option PathItem) : Resolving Bool := do
  let item ← match item with
    | none => pure {}
    | some item => followed item
  let shared ← resolved item.parameters
  let operations ← item.inOrder.mapM fun (_, o) => parametersHold path shared o
  return Text.startsWith "/" path && operations.all id

/-- Names of components are made of letters, digits, dots, dashes and underscores. -/
def isComponentName (name : String) : Bool :=
  name ≠ "" && name.toList.all fun c =>
    Text.isUpperLetter c || Text.isLowerLetter c || Text.isDigit c || ['.', '-', '_'].contains c

def componentsHold (c : Components) : Bool :=
  let names {α : Type} (m : Option (OrderedMap α)) : List String := (entriesOf m).map (·.1)
  c.pathItems.isNone &&
    (names c.schemas ++ names c.responses ++ names c.parameters ++ names c.requestBodies ++
      names c.headers).all isComponentName

/-- The ids that operations of a document have. -/
def operationIds (doc : Document) : List String :=
  ((entriesOf doc.paths).flatMap fun (_, item) =>
    (item.elim [] (·.inOrder)).map (·.2.operationId)).filter (· ≠ "")

/-- The rules for a whole document. -/
def documentHolds (doc : Document) : Resolving Bool := do
  let objects ← (← get).index.mapM fun (_, object) => objectHolds object
  let paths ← (entriesOf doc.paths).mapM fun (path, item) => pathHolds path item
  return doc.info.title ≠ "" && doc.info.version ≠ "" && doc.paths.isSome &&
    doc.webhooks.isNone && doc.defs.isNone && doc.components.all componentsHold &&
    isDistinct (operationIds doc) && objects.all id && paths.all id

end Validity

/-- What tells whether the text of a description at a location is valid. -/
abbrev Validator := FileSystem → (location source : String) → Bool

/-- A validator that knows the rules for plain descriptions. -/
def Validity.plain : Validator := fun fs location source =>
  (Document.parse source).toOption.any fun doc =>
    let external := (FileResolver.mk fs location).toExternal
    ((Validity.documentHolds doc).run (Resolver.ofDocument doc (some external))).1

/-- Why a description did not pass. -/
inductive ValidationError where
  | unreadable (location : String) (cause : ReadError)
  | undecodable (cause : DocumentError)
  | invalid

def ValidationError.message : ValidationError → String
  | .unreadable location cause => "read " ++ location ++ ": " ++ cause.message
  | .undecodable cause => cause.message
  | .invalid => "the document is not valid"

/-- Checks the description at a location. It has to be a document that can be read; all else is left
to a validator. -/
def validate (fs : FileSystem) (location : String) (accepts : Validator := Validity.plain) :
    Except ValidationError Unit := do
  let source ← (readLocation fs location).mapError (.unreadable location)
  discard <| (Document.parse source).mapError .undecodable
  if accepts fs location source then return
  throw .invalid

end ApiTypes
