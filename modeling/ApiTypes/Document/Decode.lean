import ApiTypes.Document.Basic
import ApiTypes.Schema.Decode

/-!
API descriptions from texts. The text has to hold a mapping whose version is supported.
-/

namespace ApiTypes

open Yaml
open Yaml.Decode (visit)

def Info.fields : List (RecordField Info) := [
  setField "title" text fun i x => { i with title := x },
  setField "version" text fun i x => { i with version := x },
  setField "description" text fun i x => { i with description := x }]

def MediaType.fields : List (RecordField MediaType) := [
  setField "$ref" text fun m x => { m with ref := x },
  setField "schema" (optionalObject "Schema" Schema.decoder) fun m x => { m with schema := x },
  setField "example" free fun m x => { m with sample := x }]

def MediaType.decoder : Decoder MediaType := record "openapi.MediaType" fields {}

def decodeContent : Decoder Content := objectMap "MediaType" MediaType.decoder

def Header.fields : List (RecordField Header) := [
  setField "$ref" text fun h x => { h with ref := x },
  setField "description" text fun h x => { h with description := x },
  setField "required" flag fun h x => { h with required := x },
  setField "deprecated" flag fun h x => { h with deprecated := x },
  setField "schema" (optionalObject "Schema" Schema.decoder) fun h x => { h with schema := x },
  setField "content" decodeContent fun h x => { h with content := x }]

def Header.decoder : Decoder Header := record "openapi.Header" fields {}

def Parameter.fields : List (RecordField Parameter) := [
  setField "$ref" text fun p x => { p with ref := x },
  setField "name" text fun p x => { p with name := x },
  setField "in" text fun p x => { p with location := x },
  setField "description" text fun p x => { p with description := x },
  setField "required" flag fun p x => { p with required := x },
  setField "deprecated" flag fun p x => { p with deprecated := x },
  setField "schema" (optionalObject "Schema" Schema.decoder) fun p x => { p with schema := x },
  setField "content" decodeContent fun p x => { p with content := x }]

def Parameter.decoder : Decoder Parameter := record "openapi.Parameter" fields {}

def decodeParameters : Decoder (Option (List (Option Parameter))) :=
  objectList "Parameter" Parameter.decoder

def RequestBody.fields : List (RecordField RequestBody) := [
  setField "$ref" text fun b x => { b with ref := x },
  setField "description" text fun b x => { b with description := x },
  setField "required" flag fun b x => { b with required := x },
  setField "content" decodeContent fun b x => { b with content := x }]

def RequestBody.decoder : Decoder RequestBody := record "openapi.RequestBody" fields {}

def Response.fields : List (RecordField Response) := [
  setField "$ref" text fun r x => { r with ref := x },
  setField "summary" text fun r x => { r with summary := x },
  setField "description" text fun r x => { r with description := x },
  setField "headers" (objectMap "Header" Header.decoder) fun r x => { r with headers := x },
  setField "content" decodeContent fun r x => { r with content := x }]

def Response.decoder : Decoder Response := record "openapi.Response" fields {}

def decodeResponses : Decoder (Option Responses) :=
  objectMap "Response" Response.decoder

def Operation.fields : List (RecordField Operation) := [
  setField "operationId" text fun o x => { o with operationId := x },
  setField "summary" text fun o x => { o with summary := x },
  setField "description" text fun o x => { o with description := x },
  setField "deprecated" flag fun o x => { o with deprecated := x },
  setField "tags" texts fun o x => { o with tags := x },
  setField "parameters" decodeParameters fun o x => { o with parameters := x },
  setField "requestBody" (optionalObject "RequestBody" RequestBody.decoder) fun o x =>
    { o with requestBody := x },
  setField "responses" decodeResponses fun o x => { o with responses := x }]

def Operation.decoder : Decoder Operation := record "openapi.Operation" fields {}

def PathItem.fields : List (RecordField PathItem) :=
  [setField "$ref" text fun p x => { p with ref := x },
    setField "summary" text fun p x => { p with summary := x },
    setField "description" text fun p x => { p with description := x },
    setField "parameters" decodeParameters fun p x => { p with parameters := x }] ++
  Method.all.map fun method =>
    setField method.name (optionalObject "Operation" Operation.decoder) fun p x =>
      p.setOperation method x

def PathItem.decoder : Decoder PathItem := record "openapi.PathItem" fields {}

def decodePathItems : Decoder (Option PathItems) := objectMap "PathItem" PathItem.decoder

def decodeSchemas : Decoder (Option (OrderedMap (Option Schema))) :=
  objectMap "Schema" Schema.decoder

def Components.fields : List (RecordField Components) := [
  setField "schemas" decodeSchemas fun c x => { c with schemas := x },
  setField "responses" decodeResponses fun c x => { c with responses := x },
  setField "parameters" (objectMap "Parameter" Parameter.decoder) fun c x =>
    { c with parameters := x },
  setField "requestBodies" (objectMap "RequestBody" RequestBody.decoder) fun c x =>
    { c with requestBodies := x },
  setField "headers" (objectMap "Header" Header.decoder) fun c x => { c with headers := x },
  setField "pathItems" decodePathItems fun c x => { c with pathItems := x }]

def Components.decoder : Decoder Components := record "openapi.Components" fields {}

def Document.fields : List (RecordField Document) := [
  setField "openapi" text fun d x => { d with openapi := x },
  setField "swagger" text fun d x => { d with swagger := x },
  setField "info" (record "openapi.Info" Info.fields {}) fun d x => { d with info := x },
  setField "paths" decodePathItems fun d x => { d with paths := x },
  setField "webhooks" decodePathItems fun d x => { d with webhooks := x },
  setField "components" (optionalObject "Components" Components.decoder) fun d x =>
    { d with components := x },
  setField "$defs" decodeSchemas fun d x => { d with defs := x }]

/-- Why a text is no supported API description. -/
inductive DocumentError where
  | malformed
  | empty
  | rootNotMapping
  | undecodable (cause : DecodeError)
  | missingVersion
  | unsupported (version : String)
  | unsupportedSwagger (version : String)

def DocumentError.message : DocumentError → String
  | .malformed => "parse document: yaml: the text is malformed"
  | .empty => "document is empty"
  | .rootNotMapping => "document root must be a mapping"
  | .undecodable cause => "decode document: " ++ cause.message
  | .missingVersion => "document has no \"openapi\" version field"
  | .unsupported version =>
    "openapi " ++ Text.quoteDiagnostic version ++ " is not supported (expected 3.x)"
  | .unsupportedSwagger version =>
    "swagger " ++ version ++ " documents are not supported, convert to OpenAPI 3.x first"

/-- A decimal integer of 64 bits with an optional sign. -/
def decimalInt? (cs : List Char) : Option Int := signed? (digitsIn? 10) cs

/-- The major version: the number before the first point, white space around the text ignored. -/
def majorVersion? (version : String) : Option Int :=
  decimalInt? (((Text.split '.' (Text.trim version)).head?.getD "").toList)

/-- Accepts documents of major version three. A swagger version, even a blank one, is refused
before the other version is looked at. -/
def Document.checkVersion (doc : Document) : Except DocumentError Unit :=
  if doc.swagger ≠ "" then .error (.unsupportedSwagger doc.swagger)
  else if Text.trim doc.openapi = "" then .error .missingVersion
  else if majorVersion? doc.openapi = some 3 then .ok ()
  else .error (.unsupported doc.openapi)

/-- Reads an API description. -/
def Document.parse (source : String) : Except DocumentError Document :=
  match readStream? source with
  | none => .error .malformed
  | some .empty => .error .empty
  | some (.document tree) =>
    match tree.root with
    | .mapping .. => do
      let found ← ((visit tree.root (record "openapi.Document" Document.fields {})).run tree)
        |>.mapError .undecodable
      let doc := found.getD {}
      doc.checkVersion
      return doc
    | _ => .error .rootNotMapping

end ApiTypes
