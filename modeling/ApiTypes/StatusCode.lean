import ApiTypes.Document.Decode
import ApiTypes.Text.Diagnostic

/-!
Status codes of responses by priority. Codes of a class in ascending order come before the
wildcards of classes, and these before the code for everything else.
-/

namespace ApiTypes

/-- Whether a key of a response map is a code of the class, and which. -/
def statusCode? (statusClass : Int) (key : String) : Option Int :=
  match decimalInt? key.toList with
  | some n => if Text.byteLength key = 3 && n.tdiv 100 = statusClass then some n else none
  | none => none

/-- Whether two texts differ at most in the case of ASCII letters. The letters of the wildcards have
no other partners. -/
def equalsIgnoringCase (a b : String) : Bool :=
  a.toList.map Char.toLower == b.toList.map Char.toLower

/-- The codes of some classes, class by class, then the keys that spell the wildcards in either
case. -/
def rankCodes (classes : List Int) (wildcards : List String) (responses : Responses) :
    List String :=
  let numeric := classes.flatMap fun statusClass =>
    ((responses.keys.filterMap (statusCode? statusClass)).mergeSort (· ≤ ·)).map toString
  let others := wildcards.flatMap fun wildcard =>
    responses.keys.filter (equalsIgnoringCase wildcard)
  numeric ++ others

/-- The codes of success: those of two hundred and above, then their wildcard. -/
def successCodes (responses : Responses) : List String := rankCodes [2] ["2XX"] responses

/-- The codes of errors: those of the client, those of the server, and the wildcards. -/
def errorCodes (responses : Responses) : List String :=
  rankCodes [4, 5] ["4XX", "5XX", "default"] responses

/-- The code that stands for success. -/
def firstSuccess? (responses : Responses) : Option String := (successCodes responses).head?

/-- The code that stands for an error. -/
def firstError? (responses : Responses) : Option String := (errorCodes responses).head?

end ApiTypes
