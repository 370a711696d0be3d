import ApiTypes.Document.Decode
import ApiTypes.PathsEnum
import ApiTypes.Typing.Components

/-!
The declarations for a whole document: the roots for paths, webhooks, components, definitions and
operations, whatever the document declares, then aliases, enums and the enum of paths.
-/

namespace ApiTypes

namespace Typing

/-- The helper type that makes some properties of a type required. -/
def withRequiredHelper : String :=
  "type WithRequired<T, K extends keyof T> = T & \x7b\n    [P in K]-?: T[P];\n\x7d;"

def definitionsMembers : List (String × Option Schema) → Typing (List Member)
  | [] => pure []
  | (name, s) :: rest => do
    let t ← schemaType s (Reference.join "#" ["$defs", name])
    let member := Member.property name false (← options).immutable t (s.elim [] Schema.doc)
    return member :: (← definitionsMembers rest)

/-- The type of the definitions of a document. -/
def definitionsType (defs : Option (OrderedMap (Option Schema))) : Typing TypeExpr := do
  return objectOrEmpty (← definitionsMembers (← entries defs))

/-- The declaration of a root: an interface where its type allows it and no option is against it. -/
def rootDecl (options : Options) (name : String) (t : TypeExpr) : Decl :=
  match t, options.exportType with
  | .object members, false => .interface name members true []
  | t, _ => .alias name t true []

/-- The type of the operations that have an id. -/
def operationsType (options : Options) (operations : OperationRegistry) : TypeExpr :=
  objectOrEmpty (operations.values.map fun e =>
    .property e.id false options.immutable e.type e.doc)

/-- Text that is taken over, if there is any. -/
def rawDecls (text : String) : List Decl := if text = "" then [] else [.raw text]

/-- The types of the roots that are made from the document, and the aliases of components. -/
structure Roots where
  paths : TypeExpr
  webhooks : TypeExpr
  components : TypeExpr
  definitions : TypeExpr
  aliases : List Decl

def documentRoots (doc : Document) : Typing Roots := do
  let paths ← pathsType doc.paths
  let webhooks ← webhooksType doc.webhooks
  let (components, aliases) ← optionalComponentsType doc.components
  let definitions ← definitionsType doc.defs
  return { paths, webhooks, components, definitions, aliases }

/-- The declarations of the roots. -/
def rootDecls (options : Options) (roots : Roots) (operations : OperationRegistry) : List Decl :=
  [rootDecl options "paths" roots.paths, rootDecl options "webhooks" roots.webhooks,
    rootDecl options "components" roots.components, rootDecl options "$defs" roots.definitions,
    rootDecl options "operations" (operationsType options operations)]

/-- The declarations after the roots. -/
def furtherDecls (doc : Document) (options : Options) (aliases : List Decl) (progress : Progress) :
    List Decl :=
  aliases ++ progress.enums.decls ++
    (if progress.usesWithRequired then [.raw withRequiredHelper] else []) ++
    rawDecls options.injectFooter ++
    if options.makePathsEnum && !(entriesOf doc.paths).isEmpty then [pathsEnum doc.paths] else []

/-- All declarations for a document. -/
def documentDecls (doc : Document) : Typing (List Decl) := do
  let options ← options
  let roots ← documentRoots doc
  let progress ← get
  return rawDecls options.inject ++ rootDecls options roots progress.operations ++
    furtherDecls doc options roots.aliases progress

/-- How types are to be made. -/
structure Request where
  options : Options := {}
  schemaHooks : List SchemaHook := []
  typeHooks : List TypeHook := []
  external : Option ExternalResolver := none

/-- Looks for discriminators in a document and runs `act` in the setting they belong to. -/
def runOn {α : Type} (act : Typing α) (doc : Document) (request : Request) :
    Except TypingError α × Progress :=
  let (discriminators, resolver) :=
    (Discriminators.scan).run (Resolver.ofDocument doc request.external)
  let setting : Setting := ⟨request.options, request.schemaHooks, request.typeHooks, discriminators⟩
  (act setting).run.run { resolver }

/-- Why no declarations could be made for a document. -/
inductive Failure where
  | version (cause : DocumentError)
  | typing (cause : TypingError)

def Failure.message : Failure → String
  | .version cause => cause.message
  | .typing cause => cause.message

/-- What is made of a document. -/
structure Output where
  decls : List Decl
  warnings : List Warning
  operations : List OperationEntry

/-- The text of the declarations. -/
def Output.text (o : Output) : String := printDecls o.decls

/-- Makes the declarations for a document of a supported version. -/
def generate (doc : Document) (request : Request) : Except Failure Output := do
  doc.checkVersion.mapError .version
  match runOn (documentDecls doc) doc request with
  | (.error e, _) => throw (.typing e)
  | (.ok decls, progress) => return ⟨decls, progress.warnings, progress.operations.values⟩

end Typing

end ApiTypes
