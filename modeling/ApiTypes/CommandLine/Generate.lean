import ApiTypes.CommandLine.Flag
import ApiTypes.Generation.Basic

/-!
Generation from the command line. A dash in place of a file prints the declarations.
-/

namespace ApiTypes.CommandLine

/-- Why nothing was generated. -/
inductive GenerateError where
  | incomplete
  | onlyDeclarations
  | printing (cause : TargetError)
  | generation (cause : GenerationError)

/-- The name of the output that is printed. -/
def printedOut : String := "-"

def GenerateError.message : GenerateError → String
  | .incomplete => "either --config or both --input and --out must be provided"
  | .onlyDeclarations =>
    "--out " ++ printedOut ++ " only supports the " ++ ArtifactKind.declarations.name ++ " type"
  | .printing cause => cause.message
  | .generation cause => cause.message

/-- The declarations of an output, as they are printed. -/
def printed (t : Target) (fs : FileSystem) : Except TargetError String := do
  let doc ← t.document fs
  let shown : Target :=
    { type := ArtifactKind.declarations.name
      spec := Location.settled fs.workingDirectory t.spec
      options := t.options }
  let rendered ← (shown.declarations fs doc).mapError .render
  return rendered.text

/-- The absolute form of a path, unless it is none. -/
def settledPath (workingDirectory path : String) : String :=
  if path = "" || path = printedOut || Location.isAbsolutePath path then path
  else Location.absolute workingDirectory path

/-- Generates what is asked for; the result is what is printed. -/
def generate (env : Environment) (r : GenerationRequest) : Work GenerateError String := do
  let t := r.target
  if r.config = "" && (t.spec = "" || t.out = "") then throw .incomplete
  if r.config = "" && t.out = printedOut then
    if t.type ≠ "" && t.type ≠ ArtifactKind.declarations.name then throw .onlyDeclarations
    Work.look fun fs => (printed t fs).mapError .printing
  else
    let directory := (← get).workingDirectory
    let settled : GenerationRequest :=
      { r with
        only := settledPath directory r.only
        target := { t with out := settledPath directory t.out } }
    ExceptT.adapt .generation (Generation.run env settled)
    return ""

namespace Arguments

/-- The options for types that switches ask for. -/
def typingOptions (a : Arguments) : Options :=
  let on (name : String) : Bool := a.switch name false
  { additionalProperties := on "additional-properties"
    alphabetize := on "alphabetize"
    arrayLength := on "array-length"
    emptyObjectsUnknown := on "empty-objects-unknown"
    enum := on "enum"
    excludeDeprecated := on "exclude-deprecated"
    exportType := on "export-type"
    immutable := on "immutable"
    pathParamsAsTypes := on "path-params-as-types"
    propertiesRequiredByDefault := on "properties-required-by-default"
    makePathsEnum := on "make-paths-enum"
    contentNever := on "content-never"
    rootTypes := on "root-types"
    rootTypesNoSchemaPrefix := on "root-types-no-schema-prefix"
    silent := on "silent"
    strictOperationIds := on "strict-operation-ids" }

/-- The output that flags describe. -/
def target (a : Arguments) : Target :=
  let nonNullable := "default-non-nullable"
  { type := a.text "type" ArtifactKind.declarations.name
    out := a.text "out" ""
    spec := a.text "input" ""
    includeTags := some (a.texts "include-tags")
    excludeTags := some (a.texts "exclude-tags")
    options :=
      { typing := a.typingOptions
        defaultNonNullable := if a.has nonNullable then some (a.switch nonNullable true) else none
        formats := some (a.pairs "format") } }

/-- What flags ask to generate. -/
def request (a : Arguments) : GenerationRequest :=
  { config := a.text "config" "", only := a.text "only" "", target := a.target }

end Arguments

end ApiTypes.CommandLine
