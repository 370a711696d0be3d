import ApiTypes.Decimal.Binary64

/-!
The part of TypeScript that describes types: type expressions, the members of object types, and
the few declarations of a file of types.
-/

namespace ApiTypes

/-- The value of a literal type or of an enum member. -/
inductive Literal where
  | null
  | text (s : String)
  | bool (b : Bool)
  | int (n : Int)
  | number (x : Binary64)
  deriving DecidableEq, Repr, Inhabited

mutual

/-- A type expression. -/
inductive TypeExpr where
  /-- A type nobody stated; it reads as the keyword for an unknown type. -/
  | unstated
  /-- A built-in type. -/
  | keyword (name : String)
  | literal (value : Literal)
  /-- A named type, applied to type arguments if it has any. -/
  | ref (name : String) (args : List TypeExpr)
  /-- The type found in `object` under `index`. -/
  | access (object index : TypeExpr)
  | union (types : List TypeExpr)
  | intersection (types : List TypeExpr)
  | array (elem : TypeExpr)
  /-- The readonly operator on an array or a tuple. -/
  | readonly (type : TypeExpr)
  | tuple (elems : List TypeExpr)
  /-- The open end of a tuple. -/
  | spread (type : TypeExpr)
  | object (members : List Member)
  /-- A template literal type: fixed text and holes in turn. -/
  | template (head : String) (spans : List TemplateSpan)

/-- A hole of a template literal type and the fixed text after it. -/
inductive TemplateSpan where
  | mk (type : TypeExpr) (tail : String)

/-- An entry of an object type. Names are raw; printing quotes them where that is needed. -/
inductive Member where
  | property (name : String) (isOptional isReadonly : Bool) (type : TypeExpr) (doc : List String)
  | indexSignature (param : String) (key type : TypeExpr) (isReadonly : Bool) (doc : List String)

end

instance : Inhabited TypeExpr := ⟨.unstated⟩

/-- An entry of an enum. The name is printed as it is. -/
structure EnumMember where
  name : String
  value : Literal
  doc : List String := []
  deriving Inhabited

/-- A piece of a file of types. -/
inductive Decl where
  | alias (name : String) (type : TypeExpr) (exported : Bool) (doc : List String)
  | interface (name : String) (members : List Member) (exported : Bool) (doc : List String)
  | enum (name : String) (members : List EnumMember) (exported : Bool) (doc : List String)
  /-- Text that is taken over as it is. -/
  | raw (text : String)
  /-- A type expression on its own. -/
  | expression (type : TypeExpr)
  deriving Inhabited

namespace TypeExpr

def any : TypeExpr := .keyword "any"
def boolean : TypeExpr := .keyword "boolean"
def never : TypeExpr := .keyword "never"
def null : TypeExpr := .keyword "null"
def number : TypeExpr := .keyword "number"
def string : TypeExpr := .keyword "string"
def undefined : TypeExpr := .keyword "undefined"
def unknown : TypeExpr := .keyword "unknown"

/-- The literal type of a text. -/
def ofText (s : String) : TypeExpr := .literal (.text s)

/-- A named type without arguments. -/
def named (name : String) : TypeExpr := .ref name []

/-- The type found in `object` when the keys are followed one after another. -/
def index (object : TypeExpr) (keys : List String) : TypeExpr :=
  keys.foldl (fun t key => .access t (ofText key)) object

/-- A dictionary type. -/
def record (key value : TypeExpr) : TypeExpr := .ref "Record" [key, value]

/-- A keyword for values without parts, or the literal null. -/
def isPrimitive : TypeExpr → Bool
  | .keyword name => ["boolean", "never", "null", "number", "string", "undefined"].contains name
  | .literal value => value = .null
  | _ => false

/-- An object type without members. -/
def isEmptyObject : TypeExpr → Bool
  | .object [] => true
  | _ => false

end TypeExpr

/-- A plain property without documentation. -/
def Member.plain (name : String) (type : TypeExpr) : Member := .property name false false type []

end ApiTypes
