import ApiTypes.Resolver
import ApiTypes.StatusCode

/-!
A summary of the operations of a document, grouped by their first tag.
-/

namespace ApiTypes

/-- What is told of a parameter. -/
structure ParameterSummary where
  name : String
  required : Bool
  deprecated : Bool
  /-- The type names of its schema, or the name of the schema it refers to. -/
  type : String
  description : String
  deriving DecidableEq, Repr

/-- What is told of a request body. -/
structure BodySummary where
  /-- The media types, if the body has a list of them. -/
  contentTypes : Option (List String)
  required : Bool
  deriving DecidableEq, Repr

/-- What is told of an operation. Its codes are the representative ones, or empty. -/
structure OperationSummary where
  operationId : String
  method : String
  path : String
  tag : String
  tags : List String
  summary : String
  deprecated : Bool
  webhook : Bool
  pathParams : List ParameterSummary
  queryParams : List ParameterSummary
  headerParams : List ParameterSummary
  cookieParams : List ParameterSummary
  requestBody : Option BodySummary
  success : String
  error : String
  deriving DecidableEq, Repr

/-- The operations that have the same first tag. -/
structure Service where
  tag : String
  operations : List OperationSummary
  deriving DecidableEq, Repr

structure Summary where
  title : String
  version : String
  services : List Service
  deriving DecidableEq, Repr

namespace Summary

open Resolver (Resolving)

/-- The tag of operations without tags. -/
def miscTag : String := "misc"

/-- The text after the last slash. -/
def afterLastSlash (s : String) : String := (Text.split '/' s).getLast?.getD s

/-- The type of a parameter in a few words. -/
def typeWords : Option Schema → String
  | none => "string"
  | some s =>
    let has {α : Type} (list : Option (List α)) : Bool := !(list.getD []).isEmpty
    if s.isRef then afterLastSlash s.ref
    else if has s.enum then "enum"
    else if has s.types then Text.join "|" (s.types.getD [])
    else if has s.oneOf then "oneOf"
    else if has s.anyOf then "anyOf"
    else if has s.allOf then "allOf"
    else "unknown"

def ofParameter (p : Parameter) : ParameterSummary :=
  { name := p.name, required := p.required || p.location = "path", deprecated := p.deprecated
    type := typeWords p.schema, description := p.description }

/-- The parameters of an operation over those of its path item, keyed by location and name. Dangling
references are left out. -/
def mergedParameters (shared own : List (Option Parameter)) :
    Resolving (OrderedMap Parameter) := do
  let keyed ← (shared ++ own).filterMapM fun p => do
    let resolved ← match p with
      | none => pure none
      | some p => if p.ref = "" then pure (some p) else Resolver.find? Parameter p.ref
    return resolved.map fun p => (p.location ++ ":" ++ p.name, p)
  return OrderedMap.ofList keyed

def bodyOf (b : Option RequestBody) : Resolving (Option BodySummary) := do
  let resolved ← match b with
    | none => pure none
    | some b => if b.ref = "" then pure (some b) else Resolver.find? RequestBody b.ref
  return resolved.map fun b => ⟨b.content.map (·.keys), b.required⟩

/-- The summary of one operation. -/
def ofOperation (item : PathItem) (path : String) (webhook : Bool) (method : Method)
    (o : Operation) : Resolving OperationSummary := do
  let body ← bodyOf o.requestBody
  let parameters ← mergedParameters (item.parameters.getD []) (o.parameters.getD [])
  let located (location : String) : List ParameterSummary :=
    (parameters.values.filter (·.location = location)).map ofParameter
  let responses := o.responses.getD .empty
  let tags := o.tags.getD []
  return {
    operationId := o.operationId, method := method.name.toUpper, path
    tag := tags.headD miscTag, tags, summary := o.summary, deprecated := o.deprecated, webhook
    pathParams := located "path", queryParams := located "query"
    headerParams := located "header", cookieParams := located "cookie", requestBody := body
    success := (successCodes responses).headD "", error := (errorCodes responses).headD "" }

/-- The summaries of the operations of some path items. -/
def ofItems (webhook : Bool) (items : Option PathItems) : Resolving (List OperationSummary) := do
  let listed ← (entriesOf items).mapM fun (path, item) => do
    match item with
    | none => return []
    | some item =>
      let item ← if item.ref = "" then pure item
        else do pure ((← Resolver.find? PathItem item.ref).getD item)
      item.inOrder.mapM fun (method, o) => ofOperation item path webhook method o
  return listed.flatten

/-- The order of operations: by path, then by method. -/
def precedes (a b : OperationSummary) : Bool :=
  if a.path = b.path then a.method ≤ b.method else a.path ≤ b.path

/-- Groups operations by tag, with tags and operations in order. -/
def group (operations : List OperationSummary) : List Service :=
  let tags := (operations.map (·.tag)).eraseDups.mergeSort (· ≤ ·)
  tags.map fun tag => ⟨tag, (operations.filter (·.tag = tag)).mergeSort precedes⟩

/-- The summary of a document. References into other documents are not followed. -/
def ofDocument (doc : Document) : Summary :=
  let act : Resolving (List OperationSummary) := do
    return (← ofItems false doc.paths) ++ (← ofItems true doc.webhooks)
  ⟨doc.info.title, doc.info.version, group (act.run (Resolver.ofDocument doc none)).1⟩

def operations (s : Summary) : List OperationSummary := s.services.flatMap (·.operations)

end Summary

end ApiTypes
