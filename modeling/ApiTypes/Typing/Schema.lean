import ApiTypes.Typing.Array

/-!
The type of a schema. Hooks come first, then references, enums and constants, the schema's own type,
the compositions `allOf`, `anyOf` and `oneOf`, and at last the flag that admits null.

Each rule is a definition that takes the types of the schemas below from a function `body`. Putting
the rules together ties the knot: `schemaBody` applies them to itself. It goes at most twice through
one schema before it goes to one nested in it, once for its list of types and once for a single
type, and it goes from a reference into another document to its target only if it is not inside that
target already.
-/

namespace ApiTypes

open Typing

/-- Gives the type of what is left of a schema when no hook takes it over. -/
abbrev SchemaBody := Option Schema → (place : String) → Typing TypeExpr

namespace Typing

/-- The type of a schema at a place, and whether a hook says that it may be left out. -/
def hookedType (body : SchemaBody) (s : Option Schema) (place : String) :
    Typing (TypeExpr × Bool) := do
  let (t, isOptional) ← match ← schemaHook? s place with
    | some taken => pure taken
    | none => do pure (← body s place, false)
  match ← typeHook? t s place with
  | some { type := some t, isOptional } => return (t, isOptional)
  | _ => return (t, isOptional)

/-- A type that a hook may have marked as one that can be left out. -/
def orUndefined (t : TypeExpr × Bool) : TypeExpr :=
  if t.2 then .unionOf [t.1, .undefined] else t.1

/-- The type of a schema at a place. -/
def typeWith (body : SchemaBody) (s : Option Schema) (place : String) : Typing TypeExpr :=
  orUndefined <$> hookedType body s place

/-- The type of a schema before hooks on finished types. -/
def unfinishedWith (body : SchemaBody) (s : Option Schema) (place : String) : Typing TypeExpr := do
  match ← schemaHook? s place with
  | some taken => return orUndefined taken
  | none => body s place

/-- The type of a list of values. -/
def enumType (s : Schema) (place : String) : Typing TypeExpr := do
  let values := s.enum.getD []
  let admitsNull := s.nullable || s.hasType "null"
  if (← options).enum && isEnumerable values then
    let (name, enums) := (← get).enums.hoist place s
    modify fun p => { p with enums }
    let t := TypeExpr.named name
    return if admitsNull || values.any (· == .null) then .unionOf [t, .null] else t
  return .unionOf (values.map .ofValue ++ if admitsNull then [.null] else [])

/-- Whether one of the alternatives has the given type name and no other. -/
def isAlternative (name : String) : List (Option Schema) → Typing Bool
  | [] => pure false
  | none :: _ => throw .nullAlternative
  | some member :: rest =>
    if member.singleType? = some name then pure true else isAlternative name rest

def isPrimitiveName (name : String) : Bool :=
  ["boolean", "string", "number", "integer", "null"].contains name

/-- The schema for one name of its list of types. -/
def singled (s : Schema) (name : String) : Schema :=
  { s with types := some [name], nullable := false, allOf := none, anyOf := none, oneOf := none }

/-- Whether a type name is left to the alternatives of the schema: a primitive type that is one of
them. -/
def isLeftToAlternatives (s : Schema) (name : String) : Typing Bool :=
  if isPrimitiveName name then isAlternative name (s.oneOf.getD []) else pure false

/-- The type for one name of a list of types. -/
def singledType (body : SchemaBody) (s : Schema) (place name : String) : Typing TypeExpr :=
  if name = "null" then pure .null else unfinishedWith body (some (singled s name)) place

/-- The types for a list of type names. -/
def typeListMembers (body : SchemaBody) (s : Schema) (place : String) :
    List String → Typing (List TypeExpr)
  | [] => pure []
  | name :: rest => do
    if ← isLeftToAlternatives s name then typeListMembers body s place rest
    else
      let t ← singledType body s place name
      return t :: (← typeListMembers body s place rest)

/-- The types of a list of schemas, each at its position. -/
def typesAt (body : SchemaBody) (place : String) : List (Option Schema × Nat) →
    Typing (List TypeExpr)
  | [] => pure []
  | (s, i) :: rest => do
    let t ← typeWith body s (Reference.join place [toString i])
    return t :: (← typesAt body place rest)

/-- The type of the items of an array. -/
def itemType (body : SchemaBody) (s : Schema) (place : String) : Typing TypeExpr := do
  let tuple (keyword : String) (schemas : List (Option Schema)) : Typing TypeExpr :=
    TypeExpr.tuple <$> typesAt body (Reference.join place [keyword]) schemas.zipIdx
  match s.prefixItems, s.items with
  | some schemas, _ => tuple "prefixItems" schemas
  | none, some (.tuple schemas) => tuple "items" schemas
  | none, some (.single item) => typeWith body (some item) (Reference.join place ["items"])
  | none, none =>
    warn .schemaShape place "array without items, using unknown[]"
    return .unknown

/-- Whether a schema is deprecated, or the schema that a reference leads to. -/
def isDeprecated (s : Schema) : Typing Bool := do
  if s.isRef then return (← find? Schema s.ref).elim false (·.deprecated)
  return s.deprecated

/-- The property that holds the tag of a variant. -/
def tagMember (options : Options) (v : Variant) : Member :=
  .property v.propertyName false options.immutable (.unionOf (v.values.map .ofText)) []

/-- Whether a place lies in what a client sends. Defaults are filled in there by the server. -/
def isInput (place : String) : Bool :=
  Text.contains "/parameters" place || Text.contains "/requestBody" place

/-- Whether a property of an object may be left out. -/
def isOptionalProperty (options : Options) (s : Schema) (place name : String)
    (property : Schema) : Bool :=
  !(s.isRequired name || (s.required.isNone && options.propertiesRequiredByDefault) ||
    (property.hasDefault && options.defaultNonNullable && !isInput place))

/-- Whether a property is not written: the one that holds the tag is not, and under the option for
it no deprecated one. -/
def isDropped (tag name : String) (property : Schema) : Typing Bool := do
  if name ≠ tag && (← options).excludeDeprecated then isDeprecated property
  else return name = tag

/-- The members for the properties of an object, without the one named `tag`. -/
def propertyMembers (body : SchemaBody) (s : Schema) (place : String) (tag : String) :
    List (String × Option Schema) → Typing (List Member)
  | [] => pure []
  | (_, none) :: rest => propertyMembers body s place tag rest
  | (name, some property) :: rest => do
    if ← isDropped tag name property then propertyMembers body s place tag rest
    else
      let options ← options
      let (t, mayBeAbsent) ←
        hookedType body (some property) (Reference.join place ["properties", name])
      let member := Member.property name
        (isOptionalProperty options s place name property || mayBeAbsent)
        (options.immutable || property.readOnly) t property.doc
      return member :: (← propertyMembers body s place tag rest)

/-- The members for the definitions of a schema. -/
def definitionMembers (body : SchemaBody) (place : String) :
    List (String × Option Schema) → Typing (List Member)
  | [] => pure []
  | (name, s) :: rest => do
    let t ← typeWith body s (Reference.join place ["$defs", name])
    let isReadonly := (← options).immutable || s.any (·.readOnly)
    let member := Member.property name false isReadonly t (s.elim [] Schema.doc)
    return member :: (← definitionMembers body place rest)

/-- The type of the properties that an object does not list, if it may have such. -/
def indexType? (body : SchemaBody) (s : Schema) (place : String) : Typing (Option TypeExpr) := do
  match s.additionalProperties with
  | some further =>
    if further.bool = some false then return none
    some <$> typeWith body (some further) (Reference.join place ["additionalProperties"])
  | none =>
    let admitted := (← options).additionalProperties &&
      (s.hasType "object" || !(entriesOf s.properties).isEmpty)
    return if admitted then some .unknown else none

/-- The tag that the schema at a place carries: that of a variant, unless it is a root itself. -/
def tagOf? (discriminators : Discriminators) (s : Schema) (place : String) : Option Variant :=
  if s.discriminator.isNone then discriminators.variant? place else none

/-- The type with some members and one for further properties, if there are any. -/
def objectWith? : List Member → (index : Option TypeExpr) → Option TypeExpr
  | [], index => index
  | members, none => some (.object members)
  | members, some index => some (.intersectionOf [.object members, index])

/-- The type of the members of an object, if it has any. -/
def objectType? (body : SchemaBody) (s : Schema) (place : String) :
    Typing (Option TypeExpr) := do
  let options ← options
  let variant := tagOf? (← read).discriminators s place
  let properties ← propertyMembers body s place (variant.elim "" (·.propertyName))
    (← entries s.properties)
  let definitions ← definitionMembers body place (← entries s.defs)
  let index := (← indexType? body s place).map fun t =>
    TypeExpr.object [.indexSignature "key" .string t options.immutable []]
  return objectWith? (variant.toList.map (tagMember options) ++ properties ++
    if definitions.isEmpty then [] else [.plain "$defs" (.object definitions)]) index

/-- The type that a schema has on its own, without compositions, if it says anything on it. -/
def coreType? (body : SchemaBody) (s : Schema) (place : String) : Typing (Option TypeExpr) := do
  match s.types.getD [] with
  | [] => objectType? body s place
  | ["object"] => objectType? body s place
  | ["null"] => return some .null
  | ["string"] => return some .string
  | ["boolean"] => return some .boolean
  | ["number"] | ["integer"] => return some .number
  | ["array"] => do
    let item ← itemType body s place
    some <$> ofExcept (arrayType s item (← options))
  | [name] => do
    warn .schemaShape place ("unknown type " ++ Text.quoteDiagnostic name ++ ", using unknown")
    return some .unknown
  | names => return some (.unionOf (← typeListMembers body s place names))

/-- The required keys of a part of a composition: its own, then those of the whole. -/
def mergeRequired (own whole : List String) : List String :=
  whole.foldl (fun keys key => if keys.contains key then keys else keys ++ [key]) own

/-- Makes some properties of a type required. -/
def withRequired (t : TypeExpr) (keys : List String) : Typing TypeExpr := do
  modify fun p => { p with usesWithRequired := true }
  return .ref "WithRequired" [t, .unionOf (keys.map .ofText)]

/-- The type of a referenced part of a schema. Keys that the schema requires and the part only
declares are made required. -/
def referencedPart (body : SchemaBody) (s part : Schema) (place : String) : Typing TypeExpr := do
  let t ← typeWith body (some part) place
  let missing := match ← find? Schema part.ref with
    | some target => (s.required.getD []).filter fun key =>
      (entriesOf target.properties).any (·.1 = key) && !target.isRequired key
    | none => []
  if missing.isEmpty then return t
  withRequired t missing

/-- The type of a part that stands in the schema itself and shares its required keys. -/
def inlinePart (body : SchemaBody) (s part : Schema) (place : String) : Typing TypeExpr :=
  let required := mergeRequired (part.required.getD []) (s.required.getD [])
  typeWith body
    (some { part with required := if required.isEmpty then none else some required }) place

/-- The type of a part of a schema. -/
def partType (body : SchemaBody) (s part : Schema) (place : String) : Typing TypeExpr :=
  if part.isRef then referencedPart body s part place else inlinePart body s part place

/-- The discriminator property of a part, or the empty text. -/
def partTag (part : Schema) : Typing String :=
  if part.isRef then do
    let target ← resolving (Resolver.target part.ref)
    return (← read).discriminators.propertyAt target
  else pure (part.discriminator.elim "" (·.propertyName))

/-- A part of a schema: its type, and the discriminator property that is left out of it or the empty
text. -/
structure Part where
  type : TypeExpr
  tag : String

/-- The type of a part as it is written. -/
def Part.written (part : Part) : TypeExpr :=
  if part.tag = "" then part.type else part.type.without [part.tag]

/-- The parts of a schema. The discriminator property of a part is left out of its type, so that the
tag of the variant applies. -/
def partTypes (body : SchemaBody) (s : Schema) (place : String) :
    List (Option Schema × Nat) → Typing (List Part)
  | [] => pure []
  | (none, _) :: rest => partTypes body s place rest
  | (some part, i) :: rest => do
    let type ← partType body s part (Reference.join place ["allOf", toString i])
    let tag ← partTag part
    return { type, tag } :: (← partTypes body s place rest)

/-- What the type of a schema is put together from: the type that it has on its own, and its
parts. -/
structure Composition where
  core : Option TypeExpr
  parts : List Part

/-- The types that a schema has at once. -/
def Composition.types (c : Composition) : List TypeExpr := c.core.toList ++ c.parts.map Part.written

/-- The type that a schema has if there are no alternatives, unless it says nothing. -/
def Composition.whole (c : Composition) : Option TypeExpr :=
  match c.types with
  | [] => none
  | types => some (.intersectionOf types)

def composition (body : SchemaBody) (s : Schema) (place : String) : Typing Composition := do
  let core ← coreType? body s place
  let parts ← partTypes body s place (s.allOf.getD []).zipIdx
  return { core, parts }

/-- Adds alternatives to what a schema has produced already. Primitive alternatives widen the type,
any others narrow it. -/
def compose (base : Option TypeExpr) (alternatives : List TypeExpr) : Option TypeExpr :=
  match base, alternatives with
  | base, [] => base
  | none, alternatives => some (.unionOf alternatives)
  | some t, alternatives =>
    if alternatives.all (·.isPrimitive) then some (.unionOf (t :: alternatives))
    else some (.intersectionOf [t, .unionOf alternatives])

/-- The type of a schema that says nothing on its structure. -/
def bareType (options : Options) (s : Schema) : TypeExpr :=
  if (s.types.getD []).isEmpty || options.emptyObjectsUnknown then .unknown
  else .record .string .never

/-- Whether a schema is a plain list of values. -/
def isEnumSchema (s : Schema) : Bool :=
  !(s.enum.getD []).isEmpty && !s.hasType "object" && (entriesOf s.properties).isEmpty &&
    s.additionalProperties.isNone

/-- Adds the alternatives of a schema to what it has produced already, and null if it admits it. -/
def withAlternatives (body : SchemaBody) (s : Schema) (place : String)
    (whole : Option TypeExpr) : Typing TypeExpr := do
  let anyOf ← typesAt body (Reference.join place ["anyOf"]) (s.anyOf.getD []).zipIdx
  let oneOf ← typesAt body (Reference.join place ["oneOf"]) (s.oneOf.getD []).zipIdx
  let options ← options
  let t := (compose (compose whole anyOf) oneOf).getD (bareType options s)
  return if s.nullable && !(s.hasDefault && options.defaultNonNullable) then
      .unionOf [t, .null]
    else t

/-- The type of a schema that is put together from its own type and its compositions. -/
def composedType (body : SchemaBody) (s : Schema) (place : String) : Typing TypeExpr := do
  withAlternatives body s place (← composition body s place).whole

/-- One unfolding of the type of a schema. -/
def bodyStep (body : SchemaBody) : SchemaBody
  | none, _ => pure .never
  | some s, place =>
    match s.bool with
    | some b => pure (if b then .unknown else .never)
    | none =>
      if s.isRef then refType (fun target => typeWith body (some target)) s.ref place
      else if isEnumSchema s then enumType s place
      else if s.hasConst then pure (.ofValue s.const)
      else composedType body s place

/-- The type of a schema, unfolded at most the given number of times. -/
def schemaBody : Nat → SchemaBody
  | 0 => fun _ _ => throw .exhausted
  | steps + 1 => bodyStep (schemaBody steps)

/-- More unfoldings than the type of a schema takes: two for each schema in it, and as many for each
target that references into other documents may lead to. Such a target lies in one of these
documents or, at the end of a chain, in the document at hand. -/
def unfoldings (s : Option Schema) : Typing Nat := do
  let resolver := (← get).resolver
  let reach := resolver.external.elim 0 (·.reach)
  return 2 * (s.elim 0 (·.walk.length) + 1) + reach * (2 * (reach + resolver.index.length + 1))

/-- The type of a schema at a place. -/
def schemaType (s : Option Schema) (place : String) : Typing TypeExpr := do
  typeWith (schemaBody (← unfoldings s)) s place

/-- The type of a schema before hooks on finished types. -/
def unfinishedType (s : Option Schema) (place : String) : Typing TypeExpr := do
  unfinishedWith (schemaBody (← unfoldings s)) s place

/-- The type of a reference to a schema. -/
def schemaRefType (ref place : String) : Typing TypeExpr :=
  refType (fun target : Schema => schemaType (some target)) ref place

end Typing

end ApiTypes
