import ApiTypes.Template.Parse
import ApiTypes.Text.CaseMap

/-!
What a template makes of its data, which are texts under names.
-/

namespace ApiTypes.Template

/-- The values of actions. -/
inductive Value where
  /-- What a name without data gives. -/
  | absent
  | text (s : String)
  | data
  deriving DecidableEq, Repr

/-- Why running a template failed, and at which operand. -/
structure RunFault where
  operand : Operand
  message : String

/-- The data of a template. -/
abbrev Data := List (String × String)

abbrev Running := Except RunFault

/-- A value as it is inserted. -/
def insertion (data : Data) : Value → String
  | .absent => "<no value>"
  | .text s => s
  | .data =>
    let parts := (data.mergeSort fun a b => a.1 ≤ b.1).map fun (key, s) => key ++ ":" ++ s
    "map[" ++ Text.join " " parts ++ "]"

/-- Whether a value counts as true. -/
def holds (data : Data) : Value → Bool
  | .absent => false
  | .text s => s ≠ ""
  | .data => !data.isEmpty

/-- Follows keys. A text has none; `opaque_` tells whether its kind is still unknown there. -/
def follow (data : Data) (operand : Operand) : (isOpen : Bool) → Value → List String →
    Running Value
  | _, value, [] => pure value
  | _, .absent, _ :: rest => follow data operand true .absent rest
  | isOpen, .text _, name :: _ =>
    throw ⟨operand, "can't evaluate field " ++ name ++ " in type " ++
      (if isOpen then "interface \x7b\x7d" else "string")⟩
  | _, .data, name :: rest =>
    follow data operand true ((data.lookup name).elim .absent .text) rest

/-- The text of a value that a function is given. -/
def textOf (operand : Operand) : Value → Running String
  | .text s => pure s
  | .absent => throw ⟨operand, "invalid value; expected string"⟩
  | .data =>
    throw ⟨operand, "wrong type for value; expected string; got map[string]interface \x7b\x7d"⟩

/-- Refuses values for what takes none. -/
def noArguments (first : Operand) (args : List Operand) (final : Option Value) : Running Unit :=
  if args.isEmpty && final.isNone then pure ()
  else throw ⟨first, "can't give argument to non-function " ++ first.term.written⟩

def apply (name s : String) : String :=
  match name with
  | "lower" => Text.lower s
  | "upper" => Text.upper s
  | _ => Text.trim s

/-- The value of an operand on its own. -/
def argument (data : Data) (dot : Value) (operand : Operand) : Running Value :=
  match operand.term with
  | .dot => pure dot
  | .field names => follow data operand false dot names
  | .root names => follow data operand false .data names
  | .text s _ => pure (.text s)
  | .function name =>
    throw ⟨operand, "wrong number of args for " ++ name ++ ": want 1 got 0"⟩

/-- The value of a command; `final` is the value of the command before it. -/
def runCommand (data : Data) (dot : Value) (final : Option Value) : List Operand → Running Value
  | [] => pure .absent
  | first :: args => do
    let keyed (names : List String) (start : Value) : Running Value := do
      let before ← follow data first false start names.dropLast
      match before, names.getLast? with
      | .data, some name =>
        if !args.isEmpty || final.isSome then
          throw ⟨first, name ++ " is not a method but has arguments"⟩
      | _, _ => pure ()
      follow data first false start names
    match first.term with
    | .field names => keyed names dot
    | .root [] => do
      noArguments first args final
      return .data
    | .root names => keyed names .data
    | .dot => do
      noArguments first args final
      return dot
    | .text s _ => do
      noArguments first args final
      return .text s
    | .function name => do
      let count := args.length + if final.isSome then 1 else 0
      if count ≠ 1 then
        throw ⟨first, "wrong number of args for " ++ name ++ ": want 1 got " ++ toString count⟩
      match args, final with
      | [arg], _ => return .text (apply name (← textOf arg (← argument data dot arg)))
      | _, some value => return .text (apply name (← textOf first value))
      | _, none => return .absent

/-- The value of a pipeline. -/
def runPipeline (data : Data) (dot : Value) (commands : Pipeline) : Running Value := do
  let step (final : Option Value) (c : List Operand) : Running (Option Value) :=
    some <$> runCommand data dot final c
  return (← commands.foldlM step none).getD .absent

mutual

/-- The text of a node. -/
def runNode (data : Data) (dot : Value) : Node → Running String
  | .text s => pure s
  | .action commands => return insertion data (← runPipeline data dot commands)
  | .choice rebinds commands yes no => do
    let value ← runPipeline data dot commands
    if holds data value then runNodes data (if rebinds then value else dot) yes
    else runNodes data dot no

def runNodes (data : Data) (dot : Value) : List Node → Running String
  | [] => pure ""
  | node :: rest => return (← runNode data dot node) ++ (← runNodes data dot rest)

end

/-- Why a template gives no text: it cannot be read, or not be filled in with the data. -/
inductive Failure where
  | parse (cause : String)
  | run (cause : String)

def Failure.message (name : String) : Failure → String
  | .parse cause => "failed to parse template " ++ name ++ ": " ++ cause
  | .run cause => "failed to execute template " ++ name ++ ": " ++ cause

/-- What fills a named template in with data. -/
abbrev Engine := (name source : String) → Data → Except Failure String

/-- The line and the bytes before a place on that line. -/
def lineAndColumn (source : String) (offset : Nat) : Nat × Nat :=
  let before := Text.takeBytes offset source.toList
  let onLine := (before.reverse.takeWhile (· ≠ '\n')).reverse
  (1 + before.count '\n', Text.byteCount onLine)

/-- The text that a named template makes of its data. Actions can call few functions. -/
def render : Engine := fun name source data =>
  match parse name source with
  | .error cause =>
    .error (.parse ("template: " ++ name ++ ":" ++ toString cause.line ++ ": " ++ cause.message))
  | .ok read =>
    match runNodes data .data read with
    | .ok text => .ok text
    | .error cause =>
      let (line, column) := lineAndColumn source cause.operand.offset
      .error (.run ("template: " ++ name ++ ":" ++ toString line ++ ":" ++ toString column ++
        ": executing " ++ Text.quoteDiagnostic name ++ " at <" ++ cause.operand.term.written ++
        ">: " ++ cause.message))

end ApiTypes.Template
