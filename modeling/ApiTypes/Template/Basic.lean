import ApiTypes.Template.Token

/-!
Text templates: text with actions that insert values or choose between parts.
-/

namespace ApiTypes.Template

/-- What an action can name. -/
inductive Term where
  | dot
  /-- A path of keys from the current value. -/
  | field (names : List String)
  /-- A path of keys from the data. -/
  | root (names : List String)
  /-- A text, and how it is written. -/
  | text (value source : String)
  | function (name : String)
  deriving DecidableEq, Repr

/-- A term and where it stands. -/
structure Operand where
  term : Term
  offset : Nat
  deriving DecidableEq, Repr

/-- A term in the notation of templates. -/
def Term.written : Term → String
  | .dot => "."
  | .field names => "." ++ Text.join "." names
  | .root names => Text.join "." ("$" :: names)
  | .text _ source => source
  | .function name => name

/-- Commands, each of which passes its value to the next. -/
abbrev Pipeline := List (List Operand)

inductive Node where
  | text (s : String)
  | action (pipeline : Pipeline)
  /-- A choice; with `rebinds` the value that is tested is the current one inside. -/
  | choice (rebinds : Bool) (pipeline : Pipeline) (yes no : List Node)

/-- Why a template cannot be read, and on which line. -/
structure ParseFault where
  line : Nat
  message : String
  deriving DecidableEq, Repr

/-- The functions that actions can call, all from text to text. -/
def functions : List String := ["lower", "trim", "upper"]

end ApiTypes.Template
