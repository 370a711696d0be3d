import ApiTypes.CommandLine.Command
import ApiTypes.CommandLine.Generate
import ApiTypes.Summary.Listing
import ApiTypes.Validity

/-!
What the program does with its arguments. The first argument that is neither a flag nor the value of
one names the command; all others are for the command.
-/

namespace ApiTypes.CommandLine

/-- Why the program failed. -/
inductive RunError where
  | unknownCommand (name : String)
  | flag (cause : FlagError)
  | flagsMissing (names : List String)
  | generate (cause : GenerateError)
  | validate (cause : ValidationError)
  | inspect (cause : LoadError)

def RunError.message : RunError → String
  | .unknownCommand name =>
    "unknown command " ++ Text.quoteDiagnostic name ++ " for " ++ Text.quoteDiagnostic programName
  | .flag cause => cause.message
  | .flagsMissing names =>
    "required flag(s) \"" ++ Text.join "\", \"" names ++ "\" not set"
  | .generate cause => cause.message
  | .validate cause => cause.message
  | .inspect cause => cause.message

/-- Whether an argument in front of the command has its value in the next one. A flag that is not
known counts as one that has. -/
def takesNext (argument : String) : Bool :=
  let isSwitch (p : Flag → Bool) : Bool := globalFlags.any fun f => p f && f.isSwitch
  let cs := argument.toList
  !cs.contains '=' &&
    match cs with
    | '-' :: '-' :: name => !isSwitch (·.name = String.ofList name)
    | ['-', c] => c.utf8Size = 1 && !isSwitch (·.short = some c)
    | _ => false

/-- The arguments that may name a command. A flag with a value ends the search if there are not two
more arguments. -/
def candidates : List String → List String
  | [] => []
  | argument :: rest =>
    if argument = "--" then []
    else if takesNext argument then
      match rest with
      | _ :: next :: more => candidates (next :: more)
      | _ => []
    else if argument ≠ "" && !Text.startsWith "-" argument then argument :: candidates rest
    else candidates rest

/-- The arguments without the one that names the command. -/
def withoutName (name : String) : List String → List String
  | [] => []
  | argument :: rest =>
    if argument = "--" then argument :: rest
    else if takesNext argument then
      match rest with
      | value :: rest => argument :: value :: withoutName name rest
      | [] => [argument]
    else if argument = name then rest
    else argument :: withoutName name rest

/-- The command that arguments name, and the arguments for it. -/
def select (arguments : List String) : Except RunError (Command × List String) :=
  match candidates arguments with
  | [] => .ok (rootCommand, arguments)
  | name :: _ =>
    match commands.find? (·.name = name) with
    | some c => .ok (c, withoutName name arguments)
    | none => .error (.unknownCommand name)

/-- The help that is asked for by the names of commands; nothing for names that lead nowhere. -/
def helpOn (names : List String) : String :=
  match select names with
  | .ok (c, _) => c.help
  | .error _ => ""

/-- Runs a command; the result is what is printed. -/
def perform (accepts : Validator) (env : Environment) (c : Command) (a : Arguments) :
    Work RunError String :=
  match c.name with
  | "generate" => ExceptT.adapt .generate (generate env a.request)
  | "validate" => do
    Work.look fun fs => (validate fs (a.text "input" "") accepts).mapError .validate
    return ""
  | "inspect" => do
    let doc ← Work.look fun fs => (Document.load fs (a.text "input" "")).mapError .inspect
    return (Summary.ofDocument doc).listing
  | "help" => return helpOn a.operands
  | _ => return c.help

/-- Runs the program with the given arguments; the result is what is printed. -/
def run (env : Environment) (arguments : List String) (accepts : Validator := Validity.plain) :
    Work RunError String := do
  let (c, own) ← Work.look fun _ => select arguments
  let a ← Work.look fun _ => (Arguments.read c.allFlags own).mapError .flag
  if a.switch "help" false || !c.isRunnable then return c.help
  let missing := c.required.filter fun name => !a.has name
  if !missing.isEmpty then throw (.flagsMissing missing)
  perform accepts env c a

end ApiTypes.CommandLine
