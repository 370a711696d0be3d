import ApiTypes.Document.Load
import ApiTypes.Generation.Command
import ApiTypes.Generation.Render
import ApiTypes.TagFilter

/-!
The making of one output, in stages. Everything that can fail because of the description comes
before the one stage that writes the file, so that a failure leaves the file as it was.
-/

namespace ApiTypes

/-- Why an output could not be made. -/
inductive TargetError where
  | unsupported (type : String)
  | directory (cause : FileError)
  | preCommand (command : List String) (cause : CommandFault)
  | load (cause : LoadError)
  | tags (cause : TagFilterError)
  | render (cause : RenderError)
  | place (cause : FileError)
  | write (path : String) (cause : FileError)
  | postCommand (command : List String) (cause : CommandFault)

def TargetError.message : TargetError → String
  | .unsupported type => "unsupported output type: " ++ type
  | .directory cause => "failed to create output directory: " ++ cause.message
  | .preCommand command cause =>
    "pre-generation commands failed: pre-command (" ++ Text.join " " command ++ ") failed: " ++
      cause.message
  | .load cause => cause.message
  | .tags cause => cause.message
  | .render cause => cause.message
  | .place cause => cause.message
  | .write path cause => "failed to write " ++ path ++ ": " ++ cause.message
  | .postCommand command cause =>
    "post-generation commands failed: post-command (" ++ Text.join " " command ++ ") failed: " ++
      cause.message

/-- How far the making of an output has come. -/
inductive Stage where
  | waiting
  /-- The directory is there. -/
  | housed
  /-- The command in front has run. -/
  | ready
  /-- The text is made. -/
  | rendered (text : String)
  /-- The directory is sure to be there again. -/
  | placed (text : String)
  | written
  | finished
  deriving DecidableEq, Repr

/-- Work on a file system. What was done before a failure stays done. -/
abbrev Work (ε : Type) := ExceptT ε (StateM FileSystem)

namespace Work

/-- Changes the file system. -/
def change {ε : Type} (act : FileSystem → Except ε FileSystem) : Work ε Unit := do
  let fs ← get
  match act fs with
  | .ok next => set next
  | .error e => throw e

/-- Looks at the file system. -/
def look {ε α : Type} (act : FileSystem → Except ε α) : Work ε α := do
  match act (← get) with
  | .ok value => return value
  | .error e => throw e

end Work

namespace Target

/-- The document of an output, with only the operations it asks for. -/
def document (t : Target) (fs : FileSystem) : Except TargetError Document := do
  let doc ← (Document.load fs t.spec).mapError .load
  let filter ← (TagFilter.ofPatterns (t.includeTags.getD []) (t.excludeTags.getD [])).mapError .tags
  return filter.apply doc

/-- The text of an output, from the description on. -/
def text (t : Target) (kind : ArtifactKind) (fs : FileSystem) : Except TargetError String := do
  let doc ← t.document fs
  (t.render fs kind doc).mapError .render

/-- Runs a command in the directory of the output. -/
def command (t : Target) (command : List String)
    (failed : List String → CommandFault → TargetError) : Work TargetError Unit := do
  let (next, fault) := Command.run t.directory command (← get)
  set next
  match fault with
  | some cause => throw (failed command cause)
  | none => return

/-- The next stage of an output of the given kind. -/
def step (t : Target) (kind : ArtifactKind) : Stage → Work TargetError Stage
  | .waiting => do
    Work.change fun fs => (fs.makeDirectory t.directory).mapError .directory
    return .housed
  | .housed => do
    t.command (t.preCommand.getD []) .preCommand
    return .ready
  | .ready => do
    return .rendered (← Work.look (t.text kind))
  | .rendered text => do
    Work.change fun fs => (fs.makeDirectory t.directory).mapError .place
    return .placed text
  | .placed text => do
    Work.change fun fs => (fs.write t.out text).mapError (.write t.out)
    return .written
  | .written => do
    t.command (t.postCommand.getD []) .postCommand
    return .finished
  | .finished => return .finished

/-- Takes an output through a number of stages. -/
def advance (t : Target) (kind : ArtifactKind) : Nat → Stage → Work TargetError Stage
  | 0, stage => return stage
  | n + 1, stage => do
    t.advance kind n (← t.step kind stage)

/-- The number of steps from the first stage to the last. -/
def stepCount : Nat := 6

/-- Makes an output. -/
def generate (t : Target) : Work TargetError Unit := do
  match ArtifactKind.ofName? t.type with
  | none => throw (.unsupported t.type)
  | some kind => discard (t.advance kind stepCount .waiting)

end Target

end ApiTypes
