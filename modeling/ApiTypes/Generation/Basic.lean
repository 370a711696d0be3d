import ApiTypes.Config.Load
import ApiTypes.Generation.Target

/-!
The making of the outputs of a configuration. Which outputs are wanted, and whether all of them can
be made, is settled before anything is changed; then they are made in order, up to the first
failure.
-/

namespace ApiTypes

/-- Why a configuration was not carried out. -/
inductive GenerationError where
  /-- There is neither a configuration nor enough to make up one. -/
  | incomplete
  | config (cause : ConfigError)
  | unsupportedType (type : String)
  | noTarget (path : String)
  | target (out : String) (cause : TargetError)

def GenerationError.message : GenerationError → String
  | .incomplete => "either config path or fallback spec and out must be provided"
  | .config cause => cause.message
  | .unsupportedType type => "unsupported output type: " ++ type
  | .noTarget path => "no output writes to " ++ path
  | .target out cause => "output " ++ out ++ ": " ++ cause.message

/-- What is to be generated: a configuration, or else one output. -/
structure GenerationRequest where
  /-- The path of the configuration, or nothing. -/
  config : String := ""
  /-- The only output to make, by its path, or nothing. -/
  only : String := ""
  target : Target := {}

namespace Generation

/-- Whether an output is wanted. -/
def wants (only : String) (t : Target) : Bool := only = "" || t.out = only

/-- The outputs that are wanted. All of them must be of a known kind, and if only one is asked for
it must be there. -/
def selection (only : String) (targets : List Target) : Except GenerationError (List Target) :=
  let wanted := targets.filter (wants only)
  match wanted.find? fun t => (ArtifactKind.ofName? t.type).isNone with
  | some t => .error (.unsupportedType t.type)
  | none => if only ≠ "" && wanted.isEmpty then .error (.noTarget only) else .ok wanted

/-- Makes outputs one after another. -/
def generateAll : List Target → Work GenerationError Unit
  | [] => return
  | t :: rest => do
    ExceptT.adapt (.target t.out) t.generate
    generateAll rest

/-- Makes the outputs of a configuration. -/
def carryOut (c : Config) (only : String) : Work GenerationError Unit := do
  generateAll (← Work.look fun _ => selection only c.targets)

/-- The configuration that a request asks for. -/
def configOf (env : Environment) (r : GenerationRequest) (fs : FileSystem) :
    Except GenerationError Config :=
  if r.config ≠ "" then (Config.load fs env r.config).mapError .config
  else if r.target.spec = "" || r.target.out = "" then .error .incomplete
  else
    let c : Config := { spec := r.target.spec, targets := [{ r.target with spec := "" }] }
    (c.settle fs.workingDirectory env).mapError .config

/-- Carries out a request. -/
def run (env : Environment) (r : GenerationRequest) : Work GenerationError Unit := do
  let c ← Work.look (configOf env r)
  carryOut c r.only

end Generation

end ApiTypes
