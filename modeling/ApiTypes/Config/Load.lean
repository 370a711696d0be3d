import ApiTypes.Config.Decode
import ApiTypes.Config.Environment
import ApiTypes.FileSystem

/-!
Configurations from files. The environment has the last word on what a file says, and then gaps are
filled and paths are settled.
-/

namespace ApiTypes

/-- Why there is no configuration to work with. -/
inductive ConfigError where
  | unreadable (cause : FileError)
  | invalid (cause : Yaml.TextError)
  | environment (causes : List EnvironmentError)
  | specMissing
  /-- The output with the given number names no file. -/
  | outMissing (index : Nat)

def ConfigError.message : ConfigError → String
  | .unreadable cause => cause.message
  | .invalid .malformed => "yaml: the text is malformed"
  | .invalid (.undecodable cause) => cause.message
  | .environment causes =>
    "environment: env: " ++ Text.join "; " (causes.map EnvironmentError.message)
  | .specMissing => "config.spec is required"
  | .outMissing index => "outputs[" ++ toString index ++ "] missing required field out"

namespace Config

/-- How many outputs are in the making at a time if nothing is said. -/
def defaultConcurrency : Int := 4

/-- Fills the gaps of an output and settles its paths. -/
def completeTarget (workingDirectory spec : String) (index : Nat) (t : Target) :
    Except ConfigError Target :=
  if t.out = "" then .error (.outMissing index)
  else
    .ok { t with
      type := if t.type = "" then ArtifactKind.declarations.name else t.type
      out := if Location.isAbsolutePath t.out then t.out
        else Location.absolute workingDirectory t.out
      spec := if t.spec = "" then spec else Location.settled workingDirectory t.spec }

/-- Fills the gaps of the outputs, the first of which has the given number. -/
def completeTargets (workingDirectory spec : String) :
    Nat → List Target → Except ConfigError (List Target)
  | _, [] => .ok []
  | index, t :: rest => do
    let first ← completeTarget workingDirectory spec index t
    return first :: (← completeTargets workingDirectory spec (index + 1) rest)

/-- Fills the gaps of a configuration and settles its paths. -/
def complete (workingDirectory : String) (c : Config) : Except ConfigError Config :=
  if c.spec = "" then .error .specMissing
  else do
    let spec := Location.settled workingDirectory c.spec
    let targets ← completeTargets workingDirectory spec 0 c.targets
    return { c with
      spec
      concurrency := if c.concurrency ≤ 0 then defaultConcurrency else c.concurrency
      targets }

/-- A configuration as the environment wants it, without gaps. -/
def settle (workingDirectory : String) (env : Environment) (c : Config) :
    Except ConfigError Config := do
  let overrides ← env.overrides.mapError .environment
  complete workingDirectory (overrides.apply c)

/-- Reads a configuration. -/
def load (fs : FileSystem) (env : Environment) (path : String) : Except ConfigError Config := do
  let source ← (fs.read path).mapError .unreadable
  let c ← (Yaml.decodeText decoder {} source).mapError .invalid
  settle fs.workingDirectory env c

end Config

end ApiTypes
