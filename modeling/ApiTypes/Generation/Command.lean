import ApiTypes.FileSystem
import ApiTypes.Text.Diagnostic

/-!
The commands that can run before and after an output is made.
-/

namespace ApiTypes

/-- Why a command failed. -/
inductive CommandFault where
  | exitStatus (code : Nat)
  | notFound (name : String)

def CommandFault.message : CommandFault → String
  | .exitStatus code => "exit status " ++ toString code
  | .notFound name =>
    "exec: " ++ Text.quoteDiagnostic name ++ ": executable file not found in $PATH"

namespace Command

/-- Makes an empty file, unless there is something at the path. -/
def touchOne (fs : FileSystem) (path : String) : Except FileError FileSystem :=
  if (fs.file? path).isSome || fs.isDirectory path then .ok fs else fs.write path ""

/-- Touches paths one after another. A path that cannot be touched fails the command and stops
nothing. -/
def touch (directory : String) : List String → FileSystem → FileSystem × Option CommandFault
  | [], fs => (fs, none)
  | path :: rest, fs =>
    match touchOne fs (Location.absolute directory path) with
    | .ok next => touch directory rest next
    | .error _ => ((touch directory rest fs).1, some (.exitStatus 1))

/-- Runs a command in a directory. What it did stays done even if it fails. -/
def run (directory : String) (command : List String) (fs : FileSystem) :
    FileSystem × Option CommandFault :=
  match command with
  | [] => (fs, none)
  | ["touch"] => (fs, some (.exitStatus 1))
  | "touch" :: paths => touch directory paths fs
  | "true" :: _ => (fs, none)
  | "false" :: _ => (fs, some (.exitStatus 1))
  | name :: _ => (fs, some (.notFound name))

end Command

end ApiTypes
