import ApiTypes.Document.Basic
import ApiTypes.JsonValue

/-!
Documentation of generated types, as lines of a comment block.
-/

namespace ApiTypes

/-- What a comment block can say. -/
structure Annotations where
  title : String := ""
  summary : String := ""
  format : String := ""
  deprecated : Bool := false
  description : String := ""
  default : Option Yaml.Value := none
  sample : Option Yaml.Value := none
  isConstant : Bool := false
  /-- The types of the values of an enum. -/
  enum : String := ""

/-- A value inside a comment: lists and maps as JSON where they have such a notation. -/
def Yaml.Value.docText (v : Yaml.Value) : String :=
  match v with
  | .null => "null"
  | .dict _ | .list _ => ((JsonValue.ofValue? v).map JsonValue.render).getD v.describe
  | v => v.describe

/-- The lines in their fixed order. -/
def Annotations.lines (a : Annotations) : List String :=
  let line (present : Bool) (text : String) : List String := if present then [text] else []
  let title := Text.trim a.title
  let summary := Text.trim a.summary
  let description := Text.trim a.description
  line (title ≠ "") title ++ line (summary ≠ "") summary ++
    line (a.format ≠ "") ("Format: " ++ a.format) ++ line a.deprecated "@deprecated" ++
    line (description ≠ "") ("@description " ++ description) ++
    (a.default.toList.map fun v => "@default " ++ v.docText) ++
    (a.sample.toList.map fun v => "@example " ++ v.docText) ++
    line a.isConstant "@constant" ++ line (a.enum ≠ "") ("@enum \x7b" ++ a.enum ++ "\x7d")

/-- References and boolean schemas are not documented. -/
def Schema.doc (s : Schema) : List String :=
  if s.isBool || s.isRef then []
  else
    let types := match s.types.getD [] with
      | [] => "unknown"
      | types => Text.join "|" types
    { title := s.title, summary := s.summary, format := s.format, deprecated := s.deprecated
      description := s.description
      default := if s.hasDefault then some s.default else none
      sample := if s.hasSample then some s.sample else none
      isConstant := s.hasConst
      enum := if (s.enum.getD []).isEmpty then "" else types ++ if s.nullable then "|null" else ""
      : Annotations }.lines

def Parameter.doc (p : Parameter) : List String :=
  { description := p.description, deprecated := p.deprecated : Annotations }.lines

def Header.doc (h : Header) : List String :=
  { description := h.description, deprecated := h.deprecated : Annotations }.lines

def Operation.doc (o : Operation) : List String :=
  { summary := o.summary, description := o.description, deprecated := o.deprecated
    : Annotations }.lines

def PathItem.doc (item : PathItem) : List String :=
  { summary := item.summary, description := item.description : Annotations }.lines

def Response.doc (r : Response) : List String :=
  { summary := r.summary, description := r.description : Annotations }.lines

def RequestBody.doc (b : RequestBody) : List String :=
  { description := b.description : Annotations }.lines

end ApiTypes
