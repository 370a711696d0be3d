import ApiTypes.Text.Basic
import ApiTypes.Text.Bytes
import ApiTypes.TypeExpr.Basic

/-!
References: a document part, a hash sign, and a pointer into the document. A pointer is a list of
tokens, each written after a slash with tildes and slashes inside it escaped. Pointers of the
document at hand start with the hash sign and double as names for places in it.
-/

namespace ApiTypes.Reference

/-- A character of a token as it stands in a pointer. -/
def escapeChar (c : Char) : List Char :=
  if c = '~' then ['~', '0'] else if c = '/' then ['~', '1'] else [c]

/-- A token as it stands in a pointer. -/
def escapeToken (token : String) : String := String.ofList (token.toList.flatMap escapeChar)

/-- Reads the escapes of a token; a tilde before anything else stands for itself. -/
def unescapeChars : List Char → List Char
  | '~' :: '1' :: rest => '/' :: unescapeChars rest
  | '~' :: '0' :: rest => '~' :: unescapeChars rest
  | c :: rest => c :: unescapeChars rest
  | [] => []

/-- A place and the way further down from it. The empty place is the root of the document. -/
def join (place : String) (tokens : List String) : String :=
  (if place = "" then "#" else place) ++ String.join (tokens.map fun t => "/" ++ escapeToken t)

/-- The document part and the fragment of a reference. -/
def split (ref : String) : String × String :=
  match Text.cutChars '#' ref.toList with
  | some (file, fragment) => (String.ofList file, String.ofList fragment)
  | none => (ref, "")

def hasFragment (ref : String) : Bool := ref.toList.contains '#'

/-- Whether a reference leads into another document. -/
def isExternal (ref : String) : Bool := (split ref).1 ≠ ""

/-- The tokens of a pointer; it is empty or starts with a slash. -/
def pointerTokens? (pointer : String) : Option (List String) :=
  match pointer.toList with
  | [] => some []
  | '/' :: rest => some ((Text.splitChars '/' rest).map fun cs => String.ofList (unescapeChars cs))
  | _ => none

/-- Why a pointer was refused. -/
def pointerRefusal : String := "JSON pointer must be empty or start with a \"/"

/-- A fragment with its percent escapes read, where they are well-formed. -/
def decodeFragment (fragment : String) : String := (Text.percentDecode? fragment).getD fragment

/-- The tokens of the fragment of a reference. -/
def tokens? (ref : String) : Option (List String) :=
  pointerTokens? (decodeFragment (split ref).2)

/-- The uniform spelling of a reference, so that equal targets compare equal. -/
def canonical (ref : String) : String :=
  match tokens? ref with
  | some tokens => (split ref).1 ++ join "#" tokens
  | none => ref

/-- The last token of a reference, or the empty text. -/
def lastToken (ref : String) : String := ((tokens? ref).bind (·.getLast?)).getD ""

/-- Follows the tokens after the first. A `properties` token from position `depth` on is left out,
because generated object types have no such key, but never two in a row. -/
def indexTokens (depth : Nat) : (position : Nat) → (skipped : Bool) → TypeExpr → List String →
    TypeExpr
  | _, _, t, [] => t
  | position, skipped, t, token :: rest =>
    if token = "properties" && !skipped && depth ≤ position then
      indexTokens depth (position + 1) true t rest
    else indexTokens depth (position + 1) false (.access t (.ofText token)) rest

/-- The type that a reference into the document at hand stands for: an access to one of the
declared roots. -/
def toType (ref : String) : TypeExpr :=
  match tokens? ref with
  | some (root :: rest) =>
    indexTokens (if root = "components" then 2 else 1) 0 false (.named root) rest
  | _ => .unknown

end ApiTypes.Reference
