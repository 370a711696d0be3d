import ApiTypes.Summary.Basic
import ApiTypes.Yaml.Emit

/-!
The summary of a document as a file in JSON or YAML.
-/

namespace ApiTypes.Summary

/-- An entry that is left out if its text is empty. -/
def textEntry (key s : String) : List (String × JsonValue) :=
  if s = "" then [] else [(key, .text s)]

/-- An entry that is left out unless it is true. -/
def flagEntry (key : String) (b : Bool) : List (String × JsonValue) :=
  if b then [(key, .bool true)] else []

/-- An entry that is left out if its list is empty. -/
def listEntry (key : String) (items : List JsonValue) : List (String × JsonValue) :=
  if items.isEmpty then [] else [(key, .array items)]

def parameterValue (p : ParameterSummary) : JsonValue :=
  .object ([("name", .text p.name), ("required", .bool p.required)] ++
    flagEntry "deprecated" p.deprecated ++ [("type", .text p.type)] ++
    textEntry "description" p.description)

/-- A request body; `noList` stands for a list of media types that is missing. -/
def bodyValue (noList : JsonValue) (b : BodySummary) : JsonValue :=
  .object [("contentTypes", b.contentTypes.elim noList fun types => .array (types.map .text)),
    ("required", .bool b.required)]

def operationValue (noList : JsonValue) (o : OperationSummary) : JsonValue :=
  .object (textEntry "operationId" o.operationId ++
    [("method", .text o.method), ("path", .text o.path), ("tag", .text o.tag)] ++
    listEntry "tags" (o.tags.map .text) ++ textEntry "summary" o.summary ++
    flagEntry "deprecated" o.deprecated ++ flagEntry "webhook" o.webhook ++
    listEntry "pathParams" (o.pathParams.map parameterValue) ++
    listEntry "queryParams" (o.queryParams.map parameterValue) ++
    listEntry "headerParams" (o.headerParams.map parameterValue) ++
    listEntry "cookieParams" (o.cookieParams.map parameterValue) ++
    o.requestBody.toList.map (fun b => ("requestBody", bodyValue noList b)) ++
    textEntry "success" o.success ++ textEntry "error" o.error)

/-- The summary as a value; `noList` stands for a list that is missing. -/
def toValue (noList : JsonValue) (s : Summary) : JsonValue :=
  .object (textEntry "title" s.title ++ textEntry "version" s.version ++
    [("services", .array (s.services.map fun service =>
      .object [("tag", .text service.tag),
        ("operations", .array (service.operations.map (operationValue noList)))]))])

/-- The JSON text; a missing list is null. -/
def jsonText (s : Summary) : String := (s.toValue .null).render ++ "\n"

/-- The YAML text; a missing list is empty. -/
def yamlText (s : Summary) : String := Yaml.Emit.document (s.toValue (.array []))

end ApiTypes.Summary
