import ApiTypes.Typing.Path

/-!
The root for components: one member for each category, and under the option for it one alias for
each component.
-/

namespace ApiTypes.Typing

/-- The kinds of components, in the order of writing. -/
inductive Category where
  | schemas
  | responses
  | parameters
  | requestBodies
  | headers
  | pathItems
  deriving DecidableEq, Repr

namespace Category

def all : List Category := [.schemas, .responses, .parameters, .requestBodies, .headers, .pathItems]

def name : Category → String
  | .schemas => "schemas"
  | .responses => "responses"
  | .parameters => "parameters"
  | .requestBodies => "requestBodies"
  | .headers => "headers"
  | .pathItems => "pathItems"

/-- What aliases of the category start with. -/
def aliasStart : Category → String
  | .schemas => "Schema"
  | .responses => "Response"
  | .parameters => "Parameter"
  | .requestBodies => "RequestBody"
  | .headers => "Header"
  | .pathItems => "PathItem"

end Category

/-- A component that is ready to be written. -/
structure Component where
  name : String
  schema : Option Schema := none
  deprecated : Bool := false
  doc : List String
  /-- Its type at a place. -/
  typeAt : String → Typing TypeExpr

/-- The components of a map that are not null. -/
def componentsOf {α : Type} (m : Option (OrderedMap (Option α)))
    (component : String → α → Component) : Typing (List Component) := do
  return (← entries m).filterMap fun (name, x) => x.map (component name)

/-- The type of a component that may be a reference to one of its kind. -/
def namedType {α : Type} [Referable α] (type : α → String → Typing TypeExpr) (x : α) :
    String → Typing TypeExpr :=
  if Referable.refOf x = "" then type x else refType type (Referable.refOf x)

/-- The components of a category. Only a schema can be null. -/
def listComponents (c : Components) : Category → Typing (List Component)
  | .schemas => do
    return (← entries c.schemas).map fun (name, s) =>
      { name, schema := s, deprecated := s.any (·.deprecated), doc := s.elim [] Schema.doc
        typeAt := unfinishedType s }
  | .responses => componentsOf c.responses fun name r =>
    { name, doc := r.doc, typeAt := namedType responseType r }
  | .parameters => componentsOf c.parameters fun name p =>
    { name, deprecated := p.deprecated, doc := p.doc, typeAt := namedType parameterType p }
  | .requestBodies => componentsOf c.requestBodies fun name b =>
    { name, doc := b.doc, typeAt := namedType requestBodyType b }
  | .headers => componentsOf c.headers fun name h =>
    { name, deprecated := h.deprecated, doc := h.doc, typeAt := namedType headerType h }
  | .pathItems => componentsOf c.pathItems fun name item =>
    { name, doc := item.doc, typeAt := namedType pathItemType item }

/-- The aliases declared so far and the names they have taken. -/
structure Aliases where
  decls : List Decl := []
  taken : List String := []

/-- The name that an alias would have if none were taken. -/
def aliasBase (options : Options) (category : Category) (name : String) : String :=
  let start := if category = .schemas && options.rootTypesNoSchemaPrefix then ""
    else category.aliasStart
  let base := start ++ Text.typeName name
  if base = "" || startsWithDigit base then category.aliasStart ++ base else base

/-- Declares the alias of a component, under the option for it. A name that is taken gets a
number. -/
def addAlias (category : Category) (name place : String) (aliases : Aliases) : Typing Aliases := do
  let options ← options
  if !options.rootTypes then return aliases
  let base := aliasBase options category name
  let chosen := freshName aliases.taken base
  if chosen ≠ base then
    warn .nameCollision place ("root type " ++ base ++ " already declared, using " ++ chosen)
  let type := (TypeExpr.named "components").index [category.name, name]
  return ⟨aliases.decls ++ [.alias chosen type true []], chosen :: aliases.taken⟩

/-- The members for components of a category. Hooks on finished types have the last word. -/
def componentMembers (category : Category) : Aliases → List Component →
    Typing (List Member × Aliases)
  | aliases, [] => pure ([], aliases)
  | aliases, c :: rest => do
    let options ← options
    if options.excludeDeprecated && c.deprecated then componentMembers category aliases rest
    else
      let place := Reference.join "#" ["components", category.name, c.name]
      let t ← c.typeAt place
      let result ← typeHook? t c.schema place
      let member := Member.property c.name (result.any (·.isOptional)) options.immutable
        ((result.bind (·.type)).getD t) c.doc
      let aliases ← addAlias category c.name place aliases
      let (members, aliases) ← componentMembers category aliases rest
      return (member :: members, aliases)

/-- The members for categories. A category without components is empty. -/
def categoryMembers (c : Components) : Aliases → List Category → Typing (List Member × Aliases)
  | aliases, [] => pure ([], aliases)
  | aliases, category :: rest => do
    let (items, aliases) ← componentMembers category aliases (← listComponents c category)
    let member := Member.plain category.name (if items.isEmpty then .never else .object items)
    let (members, aliases) ← categoryMembers c aliases rest
    return (member :: members, aliases)

/-- The type of the components and the aliases for them. -/
def componentsType (c : Components) : Typing (TypeExpr × List Decl) := do
  let (members, aliases) ← categoryMembers c {} Category.all
  return (.object members, aliases.decls)

/-- The type of components that may be absent. -/
def optionalComponentsType : Option Components → Typing (TypeExpr × List Decl)
  | some c => componentsType c
  | none => pure (.record .string .never, [])

end ApiTypes.Typing
