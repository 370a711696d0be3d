import ApiTypes.Text.Diagnostic
import ApiTypes.Text.Words

/-!
Numbers and truth values that are written as texts on a command line or in an environment.
-/

namespace ApiTypes.Text

/-- Why a text is no number or truth value. -/
inductive LiteralFault where
  | syntaxFault
  | rangeFault
  deriving DecidableEq, Repr

def LiteralFault.message : LiteralFault → String
  | .syntaxFault => "invalid syntax"
  | .rangeFault => "value out of range"

/-- A text that could not be read; `reader` is what tried to. -/
structure LiteralError where
  reader : String
  text : String
  fault : LiteralFault

def LiteralError.message (e : LiteralError) : String :=
  "strconv." ++ e.reader ++ ": parsing " ++ quoteDiagnostic e.text ++ ": " ++ e.fault.message

/-- The two truth values in each of their spellings. -/
def truthValue? (s : String) : Option Bool :=
  if ["1", "t", "T", "true", "TRUE", "True"].contains s then some true
  else if ["0", "f", "F", "false", "FALSE", "False"].contains s then some false
  else none

def readTruthValue (s : String) : Except LiteralError Bool :=
  match truthValue? s with
  | some b => .ok b
  | none => .error ⟨"ParseBool", s, .syntaxFault⟩

/-- The natural number that decimal digits spell. There has to be one digit at least. -/
def decimalDigits? (cs : List Char) : Option Nat :=
  if cs.isEmpty || !cs.all isDigit then none
  else some (cs.foldl (fun n c => n * 10 + (c.toNat - '0'.toNat)) 0)

/-- A decimal integer of 32 bits, with a sign or without. -/
def readInt32 (s : String) : Except LiteralError Int :=
  let (negative, digits) := match s.toList with
    | '-' :: rest => (true, rest)
    | '+' :: rest => (false, rest)
    | cs => (false, cs)
  match decimalDigits? digits with
  | none => .error ⟨"ParseInt", s, .syntaxFault⟩
  | some n =>
    let value : Int := if negative then -n else n
    if -(twoTo 31 : Int) ≤ value && value < (twoTo 31 : Int) then .ok value
    else .error ⟨"ParseInt", s, .rangeFault⟩

end ApiTypes.Text
