import ApiTypes.Text.Basic
import ApiTypes.Text.Diagnostic

/-!
What can be wrong with the nodes of a well-formed document. A node that fits no target is a problem;
problems are collected and reported together when decoding ends. Some faults end decoding at once:
ill-formed values, and every fault below an entry of an ordered map, which is reported with the key
of the entry.
-/

namespace ApiTypes.Yaml

/-- A place where a node does not fit. -/
inductive Problem where
  /-- A node cannot become a value of the target type; collections have the empty text as value. -/
  | mismatch (line : Nat) (tag value target : String)
  | repeatedKey (line : Nat) (key : String) (first : Nat)
  | repeatedField (line : Nat) (name target : String)
  deriving DecidableEq

/-- Why a node could not be decoded. -/
inductive DecodeError where
  | problems (list : List Problem)
  /-- A value that is no YAML value of its kind. -/
  | invalid (detail : String)
  /-- A node whose shape a type refuses. -/
  | shape (line : Nat) (detail : String)
  /-- A fault below the entry with the given key. -/
  | under (key : String) (cause : DecodeError)

/-- A scalar in a message: at most ten bytes, or the first seven and dots. -/
def shorten (s : String) : String :=
  if 10 < Text.byteLength s then String.ofList (Text.takeBytes 7 s.toList) ++ "..." else s

/-- How a message shows the value of a node: between backquotes, or as it is behind the tags of
collections. -/
def shownValue (tag value : String) : String :=
  if tag = "!!seq" || tag = "!!map" then value else " \x60" ++ shorten value ++ "\x60"

def Problem.message : Problem → String
  | .mismatch line tag value target =>
    "line " ++ toString line ++ ": cannot unmarshal " ++ tag ++ shownValue tag value ++ " into " ++
      target
  | .repeatedKey line key first =>
    "line " ++ toString line ++ ": mapping key " ++ Text.quoteDiagnostic key ++
      " already defined at line " ++ toString first
  | .repeatedField line name target =>
    "line " ++ toString line ++ ": field " ++ name ++ " already set in type " ++ target

def DecodeError.message : DecodeError → String
  | .problems list =>
    "yaml: unmarshal errors:\n  " ++ Text.join "\n  " (list.map Problem.message)
  | .invalid detail => "yaml: " ++ detail
  | .shape line detail => "line " ++ toString line ++ ": " ++ detail
  | .under key cause => key ++ ": " ++ cause.message

/-- Whether the fault is that nodes fit no target. -/
def DecodeError.isMismatch : DecodeError → Bool
  | .problems _ => true
  | .under _ cause => cause.isMismatch
  | _ => false

end ApiTypes.Yaml
