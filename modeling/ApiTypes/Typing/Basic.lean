import ApiTypes.Discriminators
import ApiTypes.OperationRegistry
import ApiTypes.Text.Diagnostic
import ApiTypes.Typing.Enum

/-!
The setting in which an API description is turned into types: options, hooks, what has been found
out about the document, and what is collected on the way. A failure keeps what was collected before
it.
-/

namespace ApiTypes

/-- What the generated types look like. -/
structure Options where
  /-- Objects that say nothing on further properties admit them. -/
  additionalProperties : Bool := false
  /-- Keys are ordered alphabetically. -/
  alphabetize : Bool := false
  /-- Bounds on the number of items turn arrays into tuples. -/
  arrayLength : Bool := false
  /-- A default makes a property required and keeps null out of its type. -/
  defaultNonNullable : Bool := false
  emptyObjectsUnknown : Bool := false
  /-- Lists of values become enums. -/
  enum : Bool := false
  excludeDeprecated : Bool := false
  /-- The roots are type aliases and not interfaces. -/
  exportType : Bool := false
  /-- Everything is read-only. -/
  immutable : Bool := false
  /-- Paths with parameters are keyed by template literals. -/
  pathParamsAsTypes : Bool := false
  propertiesRequiredByDefault : Bool := false
  makePathsEnum : Bool := false
  /-- Responses without content have no content at all, and not an unknown one. -/
  contentNever : Bool := false
  /-- Each component gets an alias of its own. -/
  rootTypes : Bool := false
  rootTypesNoSchemaPrefix : Bool := false
  /-- Dangling references become unknown types. -/
  silent : Bool := false
  strictOperationIds : Bool := false
  /-- Text in front of the declarations. -/
  inject : String := ""
  /-- Text after the declarations. -/
  injectFooter : String := ""

/-- What a hook decides: another type, and whether the value may be left out. -/
structure HookResult where
  type : Option TypeExpr := none
  isOptional : Bool := false

/-- Takes over the schema at a place before any rule applies, or hands it on. -/
abbrev SchemaHook := Schema → (place : String) → Option HookResult

/-- Takes over a finished type, or leaves it. There is no schema for components of other kinds. -/
abbrev TypeHook := TypeExpr → Option Schema → (place : String) → Option HookResult

/-- Gives the types named for them to schemas of certain formats. -/
def formatHook (formats : List (String × String)) : SchemaHook := fun s _ =>
  if s.format = "" || s.isRef then none
  else
    (formats.lookup s.format).map fun name =>
      let t := TypeExpr.named name
      { type := some (if s.nullable || s.hasType "null" then .unionOf [t, .null] else t) }

inductive WarningKind where
  | unresolvedRef
  | refCycle
  | schemaShape
  | duplicateOperationId
  | nameCollision
  deriving DecidableEq, Repr

def WarningKind.name : WarningKind → String
  | .unresolvedRef => "unresolved-ref"
  | .refCycle => "ref-cycle"
  | .schemaShape => "schema-shape"
  | .duplicateOperationId => "duplicate-operation-id"
  | .nameCollision => "name-collision"

/-- A problem that does not stop the generation. -/
structure Warning where
  kind : WarningKind
  place : String
  message : String
  deriving DecidableEq, Repr

def Warning.text (w : Warning) : String :=
  w.place ++ ": " ++ w.message ++ " (" ++ w.kind.name ++ ")"

/-- Why no types could be made. -/
inductive TypingError where
  | unresolvedRef (ref place : String)
  | duplicateOperationId (earlier later : OperationEntry)
  /-- A null among the alternatives of a schema with several types. -/
  | nullAlternative
  /-- Bounds of an array that no tuple can have. -/
  | oversizedTuple
  /-- References led deeper into other documents than their resolver allows. -/
  | exhausted

def TypingError.message : TypingError → String
  | .unresolvedRef ref place =>
    "can't resolve $ref " ++ Text.quoteDiagnostic ref ++ " at " ++ place
  | .duplicateOperationId earlier later =>
    "duplicate operationId: " ++ Text.quoteDiagnostic later.id ++ " used by " ++ earlier.method ++
      " " ++ earlier.place ++ " and " ++ later.method ++ " " ++ later.place
  | .nullAlternative => "null among the alternatives of a schema with several types"
  | .oversizedTuple => "tuple too long"
  | .exhausted => "references nested too deeply"

/-- What stays fixed. -/
structure Setting where
  options : Options := {}
  schemaHooks : List SchemaHook := []
  typeHooks : List TypeHook := []
  discriminators : Discriminators := {}

/-- What is collected. -/
structure Progress where
  resolver : Resolver := {}
  warnings : List Warning := []
  operations : OperationRegistry := .empty
  enums : EnumRegistry := {}
  /-- The references into other documents whose targets are being written out in place. -/
  inlining : List String := []
  /-- Whether the helper type that makes properties required is in use. -/
  usesWithRequired : Bool := false

abbrev Typing := ReaderT Setting (ExceptT TypingError (StateM Progress))

namespace Typing

def options : Typing Options := return (← read).options

def ofExcept {α : Type} : Except TypingError α → Typing α
  | .ok x => pure x
  | .error e => throw e

def warn (kind : WarningKind) (place message : String) : Typing Unit :=
  modify fun p => { p with warnings := p.warnings ++ [⟨kind, place, message⟩] }

/-- Asks the resolver. -/
def resolving {α : Type} (act : Resolver.Resolving α) : Typing α :=
  modifyGet fun p =>
    let (result, resolver) := act.run p.resolver
    (result, { p with resolver })

/-- The object that a reference leads to. -/
def find? (α : Type) [Referable α] (ref : String) : Typing (Option α) :=
  resolving (Resolver.find? α ref)

/-- A dangling reference is an unknown type with a warning, or a failure. -/
def unresolved (ref place : String) : Typing TypeExpr := do
  if !(← options).silent then throw (.unresolvedRef ref place)
  warn .unresolvedRef place
    ("can't resolve $ref " ++ Text.quoteDiagnostic ref ++ ", using unknown")
  return .unknown

/-- Marks a reference as being written out while `act` runs, whether or not it succeeds. -/
def inliningRef {α : Type} (key : String) (act : Typing α) : Typing α := fun setting =>
  ExceptT.mk do
    modify fun p => { p with inlining := key :: p.inlining }
    let result ← (act setting).run
    modify fun p => { p with inlining := p.inlining.erase key }
    return result

/-- The type of a reference. A place in the document at hand is accessed by its name. What lies in
another document has no name and is written out in place by `inline`, except inside itself. -/
def refType {α : Type} [Referable α] (inline : α → String → Typing TypeExpr)
    (ref place : String) : Typing TypeExpr := do
  if !Reference.isExternal ref then
    if (← get).resolver.exists? ref then return Reference.toType ref
    return ← unresolved ref place
  let key := Reference.canonical ref
  if (← get).inlining.contains key then
    warn .refCycle place
      ("circular $ref " ++ Text.quoteDiagnostic ref ++ " into another document, using unknown")
    return .unknown
  match ← find? α ref with
  | none => unresolved ref place
  | some target => inliningRef key (inline target key)

/-- The type that the first interested hook gives to a schema. -/
def schemaHook? (s : Option Schema) (place : String) : Typing (Option (TypeExpr × Bool)) := do
  let hooks := (← read).schemaHooks
  return s.bind fun s => hooks.findSome? fun hook =>
    (hook s place).bind fun result => result.type.map (·, result.isOptional)

/-- What the first interested hook says on a finished type. -/
def typeHook? (t : TypeExpr) (s : Option Schema) (place : String) :
    Typing (Option HookResult) := do
  return (← read).typeHooks.findSome? fun hook => hook t s place

/-- The entries of a map in the order in which they are written. -/
def entries {α : Type} (m : Option (OrderedMap α)) : Typing (List (String × α)) := do
  let listed := entriesOf m
  if (← options).alphabetize then return listed.mergeSort fun a b => a.1 ≤ b.1
  return listed

/-- Declares an operation under its id. -/
def registerOperation (e : OperationEntry) : Typing Unit := do
  let (earlier, operations) := (← get).operations.register e
  modify fun p => { p with operations }
  match earlier with
  | none => return
  | some earlier =>
    if (← options).strictOperationIds then throw (.duplicateOperationId earlier e)
    warn .duplicateOperationId (Reference.join e.place [e.method])
      ("operationId " ++ Text.quoteDiagnostic e.id ++ " already used by " ++ earlier.method ++
        " " ++ earlier.place ++ ", keeping the last one")

end Typing

end ApiTypes
