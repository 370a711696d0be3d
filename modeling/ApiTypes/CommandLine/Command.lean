import ApiTypes.CommandLine.Flag

/-!
The commands of the program, and the help for them.
-/

namespace ApiTypes.CommandLine

/-- A command. -/
structure Command where
  name : String
  /-- What follows the name in the usage line. -/
  operands : String := ""
  /-- What it does, in one line. -/
  summary : String
  /-- What it does, if a line is not enough. -/
  description : String := ""
  flags : List Flag := []
  /-- Flags that must be used. -/
  required : List String := []
  /-- Whether it does anything but show help. -/
  isRunnable : Bool := true
  /-- The commands below it, with their summaries. -/
  children : List (String × String) := []

/-- The name of the program. -/
def programName : String := "typegen"

/-- Flags of every command. -/
def globalFlags : List Flag := [
  { name := "verbose", short := some 'v', kind := .switch, usage := "Log debug output" },
  { name := "quiet", short := some 'q', kind := .switch, usage := "Only log errors" }]

/-- The flag that asks for the help on a command. -/
def helpFlag (command : String) : Flag :=
  { name := "help", short := some 'h', kind := .switch, usage := "help for " ++ command }

/-- The flag for the description that a command works on. -/
def inputFlag : Flag :=
  { name := "input", short := some 'i', kind := .text
    usage := "OpenAPI spec file or URL (yaml/json)" }

/-- A switch that is off. -/
def switchFlag (name usage : String) : Flag := { name, kind := .switch, usage }

def generateFlags : List Flag := [
  { name := "config", short := some 'c', kind := .text, usage := "Path to typegen.yaml config" },
  { name := "only", kind := .text, usage := "Generate only the output writing to this path" },
  inputFlag,
  { name := "type", kind := .text, usage := "Output type (typescript or manifest)"
    preset := "\"typescript\"" },
  { name := "out", short := some 'o', kind := .text, usage := "Output file, - for stdout" },
  { name := "include-tags", kind := .texts, usage := "Regex patterns for tags to include" },
  { name := "exclude-tags", kind := .texts, usage := "Regex patterns for tags to exclude" },
  switchFlag "additional-properties"
    "Treat schema objects as if additionalProperties: true were set",
  switchFlag "alphabetize" "Sort object keys alphabetically",
  switchFlag "array-length" "Generate tuples from minItems/maxItems",
  { name := "default-non-nullable", kind := .switch
    usage := "Treat schemas with a default as non-nullable", preset := "true" },
  switchFlag "empty-objects-unknown"
    "Generate unknown instead of Record<string, never> for empty objects",
  switchFlag "enum" "Export true TS enums instead of unions",
  switchFlag "exclude-deprecated" "Exclude deprecated fields and operations",
  switchFlag "export-type" "Export type instead of interface",
  switchFlag "immutable" "Generate readonly types",
  switchFlag "path-params-as-types" "Convert paths to template literal types",
  switchFlag "properties-required-by-default"
    "Treat properties as required when a schema has no required list",
  switchFlag "make-paths-enum" "Generate an ApiPaths enum for all paths",
  switchFlag "content-never" "Type responses without content as content?: never",
  switchFlag "root-types" "Export every component as a root type alias",
  switchFlag "root-types-no-schema-prefix" "Drop the Schema prefix from root type aliases",
  switchFlag "silent" "Degrade unresolved refs to unknown instead of failing",
  switchFlag "strict-operation-ids" "Fail on duplicate operationIds",
  { name := "format", kind := .pairs, preset := "[]"
    usage := "Map a schema format to a TypeScript type, e.g. date-time=Date" }]

def generateCommand : Command :=
  { name := "generate", summary := "Generate type declarations", flags := generateFlags }

def validateCommand : Command :=
  { name := "validate", summary := "Validate an OpenAPI spec", flags := [inputFlag]
    required := ["input"] }

def inspectCommand : Command :=
  { name := "inspect", summary := "List the operations of an OpenAPI spec", flags := [inputFlag]
    required := ["input"] }

def helpCommand : Command :=
  { name := "help", operands := " [command]", summary := "Help about any command"
    description := "Help provides help for any command in the application.\nSimply type " ++
      programName ++ " help [path to command] for full details." }

def completionSummary (shell : String) : String :=
  "Generate the autocompletion script for " ++ shell

/-- Scripts for shells; only the help on them is here. -/
def completionCommand : Command :=
  { name := "completion", summary := completionSummary "the specified shell", isRunnable := false
    description := completionSummary (programName ++ " for the specified shell") ++
      ".\nSee each sub-command's help for details on how to use the generated script.\n"
    children := ["bash", "fish", "powershell", "zsh"].map fun shell =>
      (shell, completionSummary shell) }

/-- All commands, by name. -/
def commands : List Command :=
  [completionCommand, generateCommand, helpCommand, inspectCommand, validateCommand]

/-- The program as a command. -/
def rootCommand : Command :=
  { name := programName, summary := "Generate TypeScript types from OpenAPI specs"
    isRunnable := false, children := commands.map fun c => (c.name, c.summary) }

/-- The commands by which another one is reached. -/
def Command.path (c : Command) : String :=
  if c.name = programName then programName else programName ++ " " ++ c.name

/-- The name of the values of a flag in help. -/
def FlagKind.valueName : FlagKind → String
  | .switch => ""
  | .text => " string"
  | .texts => " stringArray"
  | .pairs => " stringToString"

/-- What stands on the left in the help on a flag. -/
def Flag.heading (f : Flag) : String :=
  (if f.short.isSome then "  " else "      ") ++ f.title ++ f.kind.valueName

/-- What stands on the right in the help on a flag. -/
def Flag.explanation (f : Flag) : String :=
  if f.preset = "" then f.usage else f.usage ++ " (default " ++ f.preset ++ ")"

/-- `s` filled up with blanks to a width. -/
def padTo (width : Nat) (s : String) : String := s ++ Text.replicate (width - s.length) " "

/-- The help on flags, by name and in two columns. -/
def flagLines (flags : List Flag) : List String :=
  let sorted := flags.mergeSort fun f g => f.name ≤ g.name
  let width := (sorted.map (·.heading.length)).foldl max 0
  sorted.map fun f => padTo (width + 3) f.heading ++ f.explanation

namespace Command

/-- The flags that a command takes, those of every command included. -/
def allFlags (c : Command) : List Flag := c.flags ++ globalFlags ++ [helpFlag c.name]

/-- The least width of the names in a list of commands. -/
def nameWidth : Nat := 11

/-- The part of the help that says how a command is used. -/
def usageLines (c : Command) : List String :=
  let isRoot := c.name = programName
  let ownFlags := c.flags ++ (if isRoot then globalFlags else []) ++ [helpFlag c.name]
  ["Usage:"] ++ (if c.isRunnable then ["  " ++ c.path ++ c.operands ++ " [flags]"] else []) ++
    (if c.children.isEmpty then []
      else
        ["  " ++ c.path ++ " [command]", "", "Available Commands:"] ++
          c.children.map fun (name, summary) => "  " ++ padTo nameWidth name ++ " " ++ summary) ++
    ["", "Flags:"] ++ flagLines ownFlags ++
    (if isRoot then [] else ["", "Global Flags:"] ++ flagLines globalFlags) ++
    (if c.children.isEmpty then []
      else ["", "Use \"" ++ c.path ++ " [command] --help\" for more information about a command."])

/-- The help on a command. -/
def help (c : Command) : String :=
  let about := Text.trimEnd Text.isSpace (if c.description = "" then c.summary else c.description)
  about ++ "\n\n" ++ String.join (c.usageLines.map (· ++ "\n"))

end Command

end ApiTypes.CommandLine
