import ApiTypes.Config.Basic
import ApiTypes.Text.Literal

/-!
Environment variables that change a configuration. A variable that is empty counts as one that is
not set.
-/

namespace ApiTypes

/-- The environment variables of a run. -/
abbrev Environment := List (String × String)

/-- A variable whose text does not fit the setting it is for. -/
structure EnvironmentError where
  setting : String
  type : String
  cause : Text.LiteralError

def EnvironmentError.message (e : EnvironmentError) : String :=
  "parse error on field " ++ Text.quoteDiagnostic e.setting ++ " of type " ++
    Text.quoteDiagnostic e.type ++ ": " ++ e.cause.message

/-- What the environment asks for. -/
structure Overrides where
  spec : Option String := none
  concurrency : Option Int := none
  silent : Option Bool := none
  alphabetize : Option Bool := none

namespace Environment

def value? (env : Environment) (name : String) : Option String :=
  (env.lookup name).filter (· ≠ "")

/-- The setting that a variable gives, or what is wrong with it. -/
def setting? {α : Type} (env : Environment) (key setting type : String)
    (read : String → Except Text.LiteralError α) : Except EnvironmentError (Option α) :=
  match env.value? key with
  | none => .ok none
  | some text => (read text).map some |>.mapError fun cause => ⟨setting, type, cause⟩

/-- The error in a result, if it is one. -/
def fault? {ε α : Type} : Except ε α → Option ε
  | .ok _ => none
  | .error e => some e

/-- Reads the variables. All faults are reported together. -/
def overrides (env : Environment) : Except (List EnvironmentError) Overrides :=
  let concurrency := env.setting? "TYPEGEN_CONCURRENCY" "Concurrency" "int" Text.readInt32
  let silent := env.setting? "TYPEGEN_SILENT" "Silent" "*bool" Text.readTruthValue
  let alphabetize := env.setting? "TYPEGEN_ALPHABETIZE" "Alphabetize" "*bool" Text.readTruthValue
  match concurrency, silent, alphabetize with
  | .ok concurrency, .ok silent, .ok alphabetize =>
    .ok {
      spec := env.value? "TYPEGEN_SPEC"
      concurrency := concurrency.filter (0 < ·)
      silent
      alphabetize }
  | _, _, _ => .error ([fault? concurrency, fault? silent, fault? alphabetize].filterMap id)

end Environment

namespace Overrides

/-- The switches that the environment sets, set. -/
def onOptions (o : Overrides) (options : Options) : Options :=
  { options with
    silent := o.silent.getD options.silent
    alphabetize := o.alphabetize.getD options.alphabetize }

def onTarget (o : Overrides) (t : Target) : Target :=
  { t with options := { t.options with typing := o.onOptions t.options.typing } }

/-- A configuration as the environment wants it. The switches are set for every output. -/
def apply (o : Overrides) (c : Config) : Config :=
  { c with
    spec := o.spec.getD c.spec
    concurrency := o.concurrency.getD c.concurrency
    targets := c.targets.map o.onTarget }

end Overrides

end ApiTypes
