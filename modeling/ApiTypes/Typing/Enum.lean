import ApiTypes.Reference
import ApiTypes.TypeExpr.Compose
import ApiTypes.Typing.Doc

/-!
Enums. A list of texts and numbers can be declared as an enum, named after the place of its schema;
its members are named after their values or by an extension of the schema.
-/

namespace ApiTypes

/-- Whether a character can stand in a bare member name. -/
def isMemberChar (c : Char) : Bool := Text.isIdentifierStart c || Text.isDigit c

/-- A text with each point replaced. -/
def pointsToUnderscores (cs : List Char) : List Char := cs.map fun c => if c = '.' then '_' else c

/-- The member name of a value. Names that would start with a digit or a minus sign get a word in
front, other characters that cannot stand in a name are replaced, and a text without any that can
is quoted. -/
def enumMemberName (name : String) : String :=
  if name = "" then "Empty"
  else if Text.isIdentifier name then name
  else
    let cs := match name.toList with
      | '-' :: rest => "ValueMinus".toList ++ pointsToUnderscores rest
      | c :: rest =>
        if Text.isDigit c then "Value".toList ++ pointsToUnderscores (c :: rest) else c :: rest
      | [] => []
    if cs.any isMemberChar then
      String.ofList ((cs.flatMap fun c => if c = '+' then "Plus".toList else [c]).map fun c =>
        if isMemberChar c then c else '_')
    else Text.quote name

/-- Numbers the second and later occurrences of a name. -/
def numberRepeats (seen : List String) : List String → List String
  | [] => []
  | name :: rest =>
    let before := seen.count name
    (if before = 0 then name else name ++ "_" ++ toString (before + 1)) ::
      numberRepeats (name :: seen) rest

/-- The first of `name`, `name_2`, `name_3` and so on that is not taken. One more attempt than there
are taken names is enough. -/
def freshName (taken : List String) (name : String) : String :=
  if !taken.contains name then name
  else
    ((List.range (taken.length + 1)).map fun i => name ++ "_" ++ toString (i + 2)).find?
      (!taken.contains ·) |>.getD name

/-- Whether a name starts with a digit. -/
def startsWithDigit (name : String) : Bool := name.toList.head?.any Text.isDigit

/-- The name of the enum declared for the schema at a place:
`#/components/schemas/Pet/properties/kind` gives `PetKind`. -/
def enumName (place : String) : String :=
  let tokens := match (Reference.tokens? place).getD [] with
    | "components" :: "schemas" :: rest => rest
    | tokens => tokens
  let name := String.join ((tokens.filter (· ≠ "properties")).map Text.typeName)
  if name = "" || startsWithDigit name then "Enum" ++ name else name

/-- The texts of an extension that lists names. Null gives an empty text. -/
def extensionTexts? (s : Schema) (key : String) : Option (List String) :=
  match s.extension? key with
  | some (.list items) => some (items.map fun v => match v with
    | .null => ""
    | v => v.describe)
  | _ => none

/-- The literal of a value without parts. -/
def Literal.ofValue : Yaml.Value → Literal
  | .null => .null
  | .bool b => .bool b
  | .int n => .int n
  | .float x => .number x
  | .text s => .text s
  | v => .text v.describe

/-- Whether a list of values can be declared as an enum. -/
def isEnumerable (values : List Yaml.Value) : Bool :=
  values.all fun v => match v with
    | .null | .text _ | .int _ | .float _ => true
    | _ => false

/-- The members of the enum of a schema. Null is left out. -/
def enumMembers (s : Schema) : List EnumMember :=
  let names := ((extensionTexts? s "x-enum-varnames").orElse fun _ =>
    extensionTexts? s "x-enumNames").getD []
  let descriptions := (extensionTexts? s "x-enum-descriptions").getD []
  let listed := ((s.enum.getD []).zipIdx).filter fun (v, _) => v != .null
  let named := listed.map fun (v, i) =>
    let given := names.getD i ""
    enumMemberName (if given = "" then v.describe else given)
  (listed.zip (numberRepeats [] named)).map fun ((v, i), name) =>
    let description := descriptions.getD i ""
    { name, value := .ofValue v, doc := if description = "" then [] else [description] }

/-- The enums declared so far, the names given to places, and all names that are taken. -/
structure EnumRegistry where
  decls : List Decl := []
  byPlace : List (String × String) := []
  taken : List String := []

namespace EnumRegistry

/-- Declares the enum of the schema at a place and gives its name. A place has one declaration. -/
def hoist (r : EnumRegistry) (place : String) (s : Schema) : String × EnumRegistry :=
  match r.byPlace.lookup place with
  | some name => (name, r)
  | none =>
    let name := freshName r.taken (enumName place)
    (name,
      { decls := r.decls ++ [.enum name (enumMembers s) true s.doc]
        byPlace := (place, name) :: r.byPlace
        taken := name :: r.taken })

end EnumRegistry

mutual

/-- The literal type of a value; lists and maps are taken apart. -/
def TypeExpr.ofValue : Yaml.Value → TypeExpr
  | .dict entries =>
    .object (((TypeExpr.ofEntries entries).mergeSort fun a b => a.1 ≤ b.1).map
      fun (key, t) => .plain key t)
  | .list items => .tuple (TypeExpr.ofValues items)
  | v => .literal (.ofValue v)

def TypeExpr.ofValues : List Yaml.Value → List TypeExpr
  | [] => []
  | v :: rest => TypeExpr.ofValue v :: TypeExpr.ofValues rest

def TypeExpr.ofEntries : List (String × Yaml.Value) → List (String × TypeExpr)
  | [] => []
  | (key, v) :: rest => (key, TypeExpr.ofValue v) :: TypeExpr.ofEntries rest

end

end ApiTypes
