import ApiTypes.Document.Basic
import ApiTypes.Reference

/-!
What references lead to. Every object of a document that a reference can name is indexed by its
pointer. References into other documents go to an external resolver, and what it finds is kept: a
place that has once been read as one kind of object is not read again as another.

Chains of references are followed until an object that is no reference, or a repetition. A chain
visits each place once, so the number of indexed places and of places that the external resolver
can lead to bounds its length.
-/

namespace ApiTypes

/-- The kinds of objects that references into other documents are read as. -/
inductive Kind where
  | schema
  | parameter
  | requestBody
  | response
  | header
  | pathItem
  deriving DecidableEq, Repr

/-- An object that a reference can name. -/
inductive Object where
  | schema (s : Schema)
  | parameter (p : Parameter)
  | requestBody (b : RequestBody)
  | response (r : Response)
  | header (h : Header)
  | mediaType (m : MediaType)
  | pathItem (p : PathItem)
  | operation (o : Operation)

/-- The types of objects that references are resolved to. -/
class Referable (α : Type) where
  kind : Kind
  ofObject? : Object → Option α
  refOf : α → String

instance : Referable Schema where
  kind := .schema
  ofObject?
    | .schema s => some s
    | _ => none
  refOf := Schema.ref

instance : Referable Parameter where
  kind := .parameter
  ofObject?
    | .parameter p => some p
    | _ => none
  refOf := Parameter.ref

instance : Referable RequestBody where
  kind := .requestBody
  ofObject?
    | .requestBody b => some b
    | _ => none
  refOf := RequestBody.ref

instance : Referable Response where
  kind := .response
  ofObject?
    | .response r => some r
    | _ => none
  refOf := Response.ref

instance : Referable Header where
  kind := .header
  ofObject?
    | .header h => some h
    | _ => none
  refOf := Header.ref

instance : Referable PathItem where
  kind := .pathItem
  ofObject?
    | .pathItem p => some p
    | _ => none
  refOf := PathItem.ref

/-- Reads objects from other documents. At most `reach` places can be reached through it, and no
schema it gives has more schemas in it than that. -/
structure ExternalResolver where
  fetch : String → Kind → Option Object
  reach : Nat

/-- Pointers and the objects they name, in the order of the document. -/
abbrev Index := List (String × Object)

namespace Index

/-- A schema and the schemas below it, each before those nested in it. -/
def ofSchema (place : String) (s : Schema) : List (String × Schema) :=
  (place, s) :: s.children.attach.flatMap fun ⟨(path, child), member⟩ =>
    match child, member with
    | none, _ => []
    | some child, _ => ofSchema (Reference.join place path) child
termination_by sizeOf s
decreasing_by exact Schema.sizeOf_lt_of_mem_children (by assumption)

def ofSchema? (place : String) (s : Option Schema) : Index :=
  (s.elim [] (ofSchema place)).map fun (path, s) => (path, .schema s)

def ofContent (place : String) (content : Content) : Index :=
  (entriesOf content).flatMap fun (mediaType, m) =>
    match m with
    | none => []
    | some m =>
      let here := Reference.join place [mediaType]
      (here, .mediaType m) :: ofSchema? (Reference.join here ["schema"]) m.schema

def ofParameter (place : String) : Option Parameter → Index
  | none => []
  | some p =>
    (place, .parameter p) :: ofSchema? (Reference.join place ["schema"]) p.schema ++
      ofContent (Reference.join place ["content"]) p.content

def ofHeader (place : String) : Option Header → Index
  | none => []
  | some h =>
    (place, .header h) :: ofSchema? (Reference.join place ["schema"]) h.schema ++
      ofContent (Reference.join place ["content"]) h.content

def ofRequestBody (place : String) : Option RequestBody → Index
  | none => []
  | some b => (place, .requestBody b) :: ofContent (Reference.join place ["content"]) b.content

def ofResponse (place : String) : Option Response → Index
  | none => []
  | some r =>
    (place, .response r) ::
      (entriesOf r.headers).flatMap (fun (name, h) =>
        ofHeader (Reference.join place ["headers", name]) h) ++
      ofContent (Reference.join place ["content"]) r.content

def ofParameters (place : String) (parameters : Option (List (Option Parameter))) : Index :=
  (parameters.getD []).zipIdx.flatMap fun (p, i) =>
    ofParameter (Reference.join place ["parameters", toString i]) p

def ofOperation (place : String) (o : Operation) : Index :=
  (place, .operation o) :: ofParameters place o.parameters ++
    ofRequestBody (Reference.join place ["requestBody"]) o.requestBody ++
    (entriesOf o.responses).flatMap fun (code, r) =>
      ofResponse (Reference.join place ["responses", code]) r

def ofPathItem (place : String) : Option PathItem → Index
  | none => []
  | some item =>
    (place, .pathItem item) :: ofParameters place item.parameters ++
      item.inOrder.flatMap fun (method, o) => ofOperation (Reference.join place [method.name]) o

/-- The objects of a map, each indexed below the place of the map. -/
def ofEntries {α : Type} (place : List String) (index : String → Option α → Index)
    (m : Option (OrderedMap (Option α))) : Index :=
  (entriesOf m).flatMap fun (name, x) => index (Reference.join "#" (place ++ [name])) x

def ofComponents (c : Components) : Index :=
  ofEntries ["components", "schemas"] ofSchema? c.schemas ++
    ofEntries ["components", "responses"] ofResponse c.responses ++
    ofEntries ["components", "parameters"] ofParameter c.parameters ++
    ofEntries ["components", "requestBodies"] ofRequestBody c.requestBodies ++
    ofEntries ["components", "headers"] ofHeader c.headers ++
    ofEntries ["components", "pathItems"] ofPathItem c.pathItems

/-- Every object of a document that a reference can name: components first, then paths, webhooks
and definitions. -/
def ofDocument (doc : Document) : Index :=
  doc.components.elim [] ofComponents ++ ofEntries ["paths"] ofPathItem doc.paths ++
    ofEntries ["webhooks"] ofPathItem doc.webhooks ++ ofEntries ["$defs"] ofSchema? doc.defs

/-- The schemas of an index. -/
def schemas (index : Index) : List (String × Schema) :=
  index.filterMap fun (place, object) =>
    match object with
    | .schema s => some (place, s)
    | _ => none

end Index

/-- The index of a document, the way to other documents, and what has been read from there. -/
structure Resolver where
  index : Index := []
  external : Option ExternalResolver := none
  fetched : List (String × Object) := []

namespace Resolver

def ofDocument (doc : Document) (external : Option ExternalResolver) : Resolver :=
  { index := Index.ofDocument doc, external }

def schemas (r : Resolver) : List (String × Schema) := Index.schemas r.index

/-- The object that a pointer names; of several entries the last counts. -/
def at? (r : Resolver) (place : String) : Option Object := r.index.reverse.lookup place

/-- The object that a reference into the document at hand names. -/
def resolve? (r : Resolver) (ref : String) : Option Object := r.at? (Reference.canonical ref)

def exists? (r : Resolver) (ref : String) : Bool := (r.resolve? ref).isSome

/-- More steps than a chain of references can have. -/
def chainBound (r : Resolver) : Nat := r.index.length + (r.external.elim 0 (·.reach)) + 2

/-- Resolving changes only what has been fetched. -/
abbrev Resolving := StateM Resolver

/-- The object of the wanted type that a reference names, without following it further. -/
def lookup? (α : Type) [Referable α] (ref : String) : Resolving (Option α) := do
  let r ← get
  let key := Reference.canonical ref
  if !Reference.isExternal ref then return (r.at? key).bind Referable.ofObject?
  match r.fetched.lookup key with
  | some object => return Referable.ofObject? object
  | none =>
    match r.external.bind (·.fetch ref (Referable.kind α)) with
    | none => return none
    | some object =>
      set { r with fetched := (key, object) :: r.fetched }
      return Referable.ofObject? object

/-- Follows a chain of references. A chain that runs into itself ends with the last object. The
object comes with the pointer that names it. -/
def follow (α : Type) [Referable α] : Nat → (visited : List String) →
    (last : Option (String × α)) → (ref : String) → Resolving (Option (String × α))
  | 0, _, last, _ => pure last
  | steps + 1, visited, last, ref => do
    if ref = "" then return last
    let key := Reference.canonical ref
    if visited.contains key then return last
    match ← lookup? α ref with
    | none => return none
    | some node => follow α steps (key :: visited) (some (key, node)) (Referable.refOf node)

/-- The object that a reference leads to in the end, with its pointer. -/
def locate? (α : Type) [Referable α] (ref : String) : Resolving (Option (String × α)) := do
  follow α (← get).chainBound [] none ref

/-- The object that a reference leads to in the end. -/
def find? (α : Type) [Referable α] (ref : String) : Resolving (Option α) := do
  return (← locate? α ref).map (·.2)

def followTarget : Nat → (visited : List String) → (key : String) → Resolving String
  | 0, _, key => pure key
  | steps + 1, visited, key => do
    if visited.contains key then return key
    match ← lookup? Schema key with
    | none => return key
    | some s =>
      if s.isRef then followTarget steps (key :: visited) (Reference.canonical s.ref)
      else return key

/-- The pointer of the schema that a reference leads to in the end. A chain that runs into itself
ends with the first pointer it meets again. -/
def target (ref : String) : Resolving String := do
  followTarget (← get).chainBound [] (Reference.canonical ref)

end Resolver

end ApiTypes
