import ApiTypes.Location
import ApiTypes.Typing.Basic

/-!
What is to be generated: a description, and the outputs that are made of it.
-/

namespace ApiTypes

/-- What an output holds. -/
inductive ArtifactKind where
  /-- Type declarations. -/
  | declarations
  /-- A listing of the operations. -/
  | manifest
  deriving DecidableEq, Repr

namespace ArtifactKind

def name : ArtifactKind → String
  | .declarations => "typescript"
  | .manifest => "manifest"

/-- All kinds, by name. -/
def all : List ArtifactKind := [.manifest, .declarations]

def ofName? (name : String) : Option ArtifactKind := all.find? (·.name == name)

theorem ofName?_name (kind : ArtifactKind) : ofName? kind.name = some kind := by
  cases kind <;> decide

end ArtifactKind

/-- The options of an output. -/
structure TargetOptions where
  typing : Options := {}
  /-- Replaces the switch of the same name; it is on where nothing is said. -/
  defaultNonNullable : Option Bool := none
  /-- Types for schemas of certain formats. -/
  formats : Option (List (String × String)) := none

namespace TargetOptions

def isDefaultNonNullable (o : TargetOptions) : Bool := o.defaultNonNullable.getD true

/-- The options that hold when types are made. -/
def effective (o : TargetOptions) : Options :=
  { o.typing with defaultNonNullable := o.isDefaultNonNullable }

/-- The hooks that the formats ask for. -/
def hooks (o : TargetOptions) : List SchemaHook :=
  match o.formats.getD [] with
  | [] => []
  | formats => [formatHook formats]

end TargetOptions

/-- One output. -/
structure Target where
  /-- The name of the kind. -/
  type : String := ""
  /-- The file to write. -/
  out : String := ""
  /-- The description; an empty one stands for that of the configuration. -/
  spec : String := ""
  includeTags : Option (List String) := none
  excludeTags : Option (List String) := none
  /-- Runs in the directory of the file, before it is made. -/
  preCommand : Option (List String) := none
  /-- Runs in the directory of the file, after it is made. -/
  postCommand : Option (List String) := none
  banner : String := ""
  options : TargetOptions := {}

/-- The directory of the file to write. -/
def Target.directory (t : Target) : String := Location.directory t.out

structure Config where
  spec : String := ""
  name : String := ""
  /-- How many outputs may be in the making at a time. -/
  concurrency : Int := 0
  targets : List Target := []

end ApiTypes
