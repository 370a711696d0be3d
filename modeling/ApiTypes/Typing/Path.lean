import ApiTypes.Typing.Parameter

/-!
The types of operations and path items, and of the roots that list them.
-/

namespace ApiTypes

/-- A path as fixed text and parameters in turn. -/
structure PathTemplate where
  head : String
  /-- The name of each parameter and the fixed text after it. -/
  params : List (String × String)
  deriving DecidableEq, Repr

namespace PathTemplate

def isNameChar (c : Char) : Bool := c ≠ '\x7b' && c ≠ '\x7d'

/-- The fixed text at the front of a path and the parameters after it, each a name without braces in
braces. -/
def cut (cs : List Char) : List Char × List (List Char × List Char) :=
  match cs with
  | [] => ([], [])
  | c :: rest =>
    let name := rest.takeWhile isNameChar
    if c = '\x7b' && !name.isEmpty && (rest.drop name.length).head? = some '\x7d' then
      let (tail, params) := cut (rest.drop (name.length + 1))
      ([], (name, tail) :: params)
    else
      let (head, params) := cut rest
      (c :: head, params)
termination_by cs.length
decreasing_by
  · simp only [List.length_drop, List.length_cons]
    omega
  · simp

def ofPath (path : String) : PathTemplate :=
  let (head, params) := cut path.toList
  ⟨String.ofList head, params.map fun (name, tail) => (String.ofList name, String.ofList tail)⟩

/-- The template literal type, with the types of parameters where they are known. -/
def toType (t : PathTemplate) (types : List (String × TypeExpr)) : TypeExpr :=
  .template t.head (t.params.map fun (name, tail) =>
    TemplateSpan.mk ((types.lookup name).getD .string) tail)

end PathTemplate

namespace Typing

/-- The members of an operation: parameters, request body and responses. -/
def operationMembers (o : Operation) (place : String) : Typing (List Member) := do
  let parameters ← parametersMember (o.parameters.getD []) (Reference.join place ["parameters"])
  let body ← requestBodyMember o.requestBody (Reference.join place ["requestBody"])
  let responses ← responsesType o.responses (Reference.join place ["responses"])
  return [parameters, body, .property "responses" false (← options).immutable responses []]

/-- The type that stands for an operation. One with an id is declared under it and accessed. -/
def declaredType (o : Operation) (place : String) (method : Method) (t : TypeExpr) :
    Typing TypeExpr := do
  if o.operationId = "" then return t
  registerOperation
    { id := o.operationId, type := t, doc := o.doc, place := place, method := method.name }
  return (TypeExpr.named "operations").index [o.operationId]

/-- The member for a method. -/
def methodMember (item : PathItem) (place : String) (method : Method) : Typing Member := do
  let options ← options
  match (item.operation? method).filter fun o => !(options.excludeDeprecated && o.deprecated) with
  | none => return .property method.name true options.immutable .never []
  | some o =>
    let parameters ← mergeParameters item o place method
    let members ← operationMembers { o with parameters := some parameters }
      (Reference.join place [method.name])
    let t ← declaredType o place method (.object members)
    return .property method.name false options.immutable t o.doc

/-- The type of a path item: its shared parameters and one member for each method. -/
def pathItemType (item : PathItem) (place : String) : Typing TypeExpr := do
  let shared ← parametersMember (item.parameters.getD []) (Reference.join place ["parameters"])
  let methods ← Method.all.mapM (methodMember item place)
  return .object (shared :: methods)

/-- The type of a path item that may be a reference. -/
def pathItemRefType (item : PathItem) (place : String) : Typing TypeExpr :=
  if item.ref = "" then pathItemType item place else refType pathItemType item.ref place

/-- The type of the values that can stand for a path parameter. -/
def pathParamType (p : Parameter) : Typing TypeExpr := do
  let schema ← match p.schema with
    | none => pure none
    | some s => do
      if s.isRef then pure (some ((← find? Schema s.ref).getD s)) else pure (some s)
  return if schema.any fun s => s.hasType "number" || s.hasType "integer" then .number
    else .string

/-- The path parameters of a path item and its operations; of several with one name the last
counts. -/
def pathParamTypes (item : PathItem) : Typing (List (String × TypeExpr)) := do
  let listed := item.parameters.getD [] ++
    item.inOrder.flatMap fun (_, o) => o.parameters.getD []
  let types ← listed.filterMapM fun p => match p with
    | none => pure none
    | some p => do
      match ← resolvedParameter? p with
      | none => return none
      | some p =>
        if p.location ≠ "path" then return none
        return some (p.name, ← pathParamType p)
  return types.reverse

/-- An object type, or a dictionary that admits nothing if there are no members. -/
def objectOrEmpty (members : List Member) : TypeExpr :=
  if members.isEmpty then .record .string .never else .object members

/-- The path item behind a reference, or the path item itself. -/
def resolvedItem (item : PathItem) : Typing PathItem := do
  if item.ref = "" then return item
  return (← find? PathItem item.ref).getD item

/-- The members for paths. Under the option for it, a path with parameters is an index signature. -/
def pathMembers : List (String × Option PathItem) → Typing (List Member)
  | [] => pure []
  | (_, none) :: rest => pathMembers rest
  | (path, some item) :: rest => do
    let t ← pathItemRefType item (Reference.join "#" ["paths", path])
    let template := PathTemplate.ofPath path
    if (← options).pathParamsAsTypes && !template.params.isEmpty then
      let types ← pathParamTypes (← resolvedItem item)
      let member := Member.indexSignature "path" (template.toType types) t false []
      return member :: (← pathMembers rest)
    else return .property path false false t item.doc :: (← pathMembers rest)

def pathsType (paths : Option PathItems) : Typing TypeExpr := do
  return objectOrEmpty (← pathMembers (← entries paths))

def webhookMembers : List (String × Option PathItem) → Typing (List Member)
  | [] => pure []
  | (_, none) :: rest => webhookMembers rest
  | (name, some item) :: rest => do
    let t ← pathItemRefType item (Reference.join "#" ["webhooks", name])
    return .property name false false t item.doc :: (← webhookMembers rest)

def webhooksType (webhooks : Option PathItems) : Typing TypeExpr := do
  return objectOrEmpty (← webhookMembers (← entries webhooks))

end Typing

end ApiTypes
