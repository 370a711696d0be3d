import ApiTypes.Typing.Schema

/-!
The types of what is sent and received: media types, headers, request bodies and responses.
-/

namespace ApiTypes.Typing

/-- The type of the schema of a media type. -/
def mediaTypeType (m : Option MediaType) (place : String) : Typing TypeExpr :=
  match m.bind (·.schema) with
  | none => pure .unknown
  | some s => schemaType (some s) (Reference.join place ["schema"])

/-- The type of a media type that may be a reference. -/
def mediaTypeRefType (m : Option MediaType) (place : String) : Typing TypeExpr :=
  match m.filter (·.ref ≠ "") with
  | some m => schemaRefType m.ref place
  | none => mediaTypeType m place

/-- One member for each media type. -/
def contentMembers (content : Content) (place : String) : Typing (List Member) := do
  let options ← options
  (← entries content).mapM fun (name, m) => do
    let t ← mediaTypeRefType m (Reference.join place [name])
    return .property name false options.immutable t []

def hasContent (content : Content) : Bool := !(entriesOf content).isEmpty

/-- The type of a header: that of its schema, or one member for each media type. -/
def headerType (h : Header) (place : String) : Typing TypeExpr := do
  if h.schema.isSome then schemaType h.schema place
  else if hasContent h.content then return .object (← contentMembers h.content place)
  else return .unknown

/-- The type of a request body. A body without content cannot be sent. -/
def requestBodyType (b : RequestBody) (place : String) : Typing TypeExpr := do
  if !hasContent b.content then return .never
  let members ← contentMembers b.content (Reference.join place ["content"])
  return .object [.property "content" false (← options).immutable (.object members) []]

/-- The request body member of an operation. It may be left out if it is missing, not required or
empty. -/
def requestBodyMember (b : Option RequestBody) (place : String) : Typing Member := do
  let isReadonly := (← options).immutable
  let member (isOptional : Bool) (t : TypeExpr) (doc : List String) : Member :=
    .property "requestBody" isOptional isReadonly t doc
  let known (resolved : RequestBody) (t : TypeExpr) : Member :=
    member (!resolved.required || !hasContent resolved.content) t resolved.doc
  match b with
  | none => return member true .never []
  | some b =>
    if b.ref = "" then return known b (← requestBodyType b place)
    match ← find? RequestBody b.ref with
    | none => return member true (← unresolved b.ref place) []
    | some resolved => return known resolved (← refType requestBodyType b.ref place)

/-- The members for the headers of a response. A referenced header is documented by its target. -/
def headerMembers (place : String) : List (String × Option Header) → Typing (List Member)
  | [] => pure []
  | (_, none) :: rest => headerMembers place rest
  | (name, some h) :: rest => do
    let options ← options
    let here := Reference.join place ["headers", name]
    if h.ref ≠ "" then
      let t ← refType headerType h.ref here
      let doc := (← find? Header h.ref).elim [] Header.doc
      return .property name false options.immutable t doc :: (← headerMembers place rest)
    else if options.excludeDeprecated && h.deprecated then headerMembers place rest
    else
      let t ← headerType h here
      return .property name (!h.required) options.immutable t h.doc ::
        (← headerMembers place rest)

/-- The type of a response: its headers, to which unknown ones may come, and its content. -/
def responseType (r : Response) (place : String) : Typing TypeExpr := do
  let options ← options
  let headers ← headerMembers place (← entries r.headers)
  let further := Member.indexSignature "name" .string .unknown options.immutable []
  let content ← contentMembers r.content (Reference.join place ["content"])
  let contentMember :=
    if content.isEmpty then
      Member.property "content" true options.immutable
        (if options.contentNever then .never else .unknown) []
    else Member.property "content" false options.immutable (.object content) []
  return .object
    [.property "headers" false options.immutable (.object (headers ++ [further])) [],
      contentMember]

/-- The members for the responses of an operation. -/
def responseMembers (place : String) : List (String × Option Response) → Typing (List Member)
  | [] => pure []
  | (_, none) :: rest => responseMembers place rest
  | (code, some r) :: rest => do
    let isReadonly := (← options).immutable
    let here := Reference.join place [code]
    if r.ref ≠ "" then
      let t ← refType responseType r.ref here
      let doc := (← find? Response r.ref).elim [] Response.doc
      return .property code false isReadonly t doc :: (← responseMembers place rest)
    else
      let t ← responseType r here
      return .property code false isReadonly t r.doc :: (← responseMembers place rest)

/-- The type of the responses of an operation. -/
def responsesType (responses : Option Responses) (place : String) : Typing TypeExpr := do
  match ← responseMembers place (← entries responses) with
  | [] => return .never
  | members => return .object members

end ApiTypes.Typing
