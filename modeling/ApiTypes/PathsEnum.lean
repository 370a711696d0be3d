import ApiTypes.Document.Basic
import ApiTypes.Text.CaseMap
import ApiTypes.Typing.Enum

/-!
An enum of all operations and their paths. Members are named by the id of their operation, or else
by its method and path. Their values have a colon before each parameter in place of the braces.
-/

namespace ApiTypes

def isParamChar (c : Char) : Bool := Text.isWordChar c || c = '_'

/-- A path with `{id}` written as `:id`. -/
def colonParams (cs : List Char) : List Char :=
  match cs with
  | [] => []
  | c :: rest =>
    let name := rest.takeWhile isParamChar
    if c = '\x7b' && !name.isEmpty && (rest.drop name.length).head? = some '\x7d' then
      ':' :: name ++ colonParams (rest.drop (name.length + 1))
    else c :: colonParams rest
termination_by cs.length
decreasing_by
  · simp only [List.length_drop, List.length_cons]
    omega
  · simp

/-- How much of a line is left out from an opening brace on: all up to the last closing brace. -/
def bracedLength (rest : List Char) : Nat :=
  let line := rest.takeWhile (· ≠ '\n')
  line.length - (line.reverse.takeWhile (· ≠ '\x7d')).length

/-- A part of a path without parameters and punctuation. A colon takes the rest of its line with
it. -/
def stripPunctuation (cs : List Char) : List Char :=
  match cs with
  | [] => []
  | c :: rest =>
    if c = '\x7b' && 0 < bracedLength rest then stripPunctuation (rest.drop (bracedLength rest))
    else if c = ':' then stripPunctuation (rest.dropWhile (· ≠ '\n'))
    else if isParamChar c then c :: stripPunctuation rest
    else stripPunctuation (rest.dropWhile fun d => !isParamChar d)
termination_by cs.length
decreasing_by
  all_goals first
    | simp only [List.length_drop, List.length_cons]; omega
    | exact Nat.lt_succ_of_le (List.dropWhile_sublist _).length_le

/-- A name for an operation without id: `get` and `/users/{id}/posts` give `GetUsersPosts`. -/
def methodPathName (method path : String) : String :=
  let parts := (Text.split '/' (method ++ path)).filter (· ≠ "")
  String.join (parts.map fun part =>
    String.ofList (stripPunctuation (Text.upperFirst part).toList))

/-- The operations of some paths with their paths and methods. -/
def listedOperations (paths : Option PathItems) : List (String × Method × Operation) :=
  (entriesOf paths).flatMap fun (path, item) =>
    item.elim [] fun item => item.inOrder.map fun (method, o) => (path, method, o)

/-- The enum of all operations. -/
def pathsEnum (paths : Option PathItems) : Decl :=
  let operations := listedOperations paths
  let names := operations.map fun (path, method, o) =>
    enumMemberName (if o.operationId = "" then methodPathName method.name path else o.operationId)
  let members := (operations.zip (numberRepeats [] names)).map fun ((path, _, _), name) =>
    { name, value := .text (String.ofList (colonParams path.toList)) : EnumMember }
  .enum "ApiPaths" members true []

end ApiTypes
