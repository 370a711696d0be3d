import ApiTypes.Text.Accent

/-!
Words of a name. Names of components, paths and operations come in every casing; declaration
names are built from their words. Accents are folded first, any character outside `A-Z a-z 0-9`
separates words, and a capital starts a new word after a small letter or digit. A run of capitals
is one word, up to the capital that is followed by a small letter: `XMLHttp` is `XML`, `Http`.
-/

namespace ApiTypes.Text

def isUpperLetter (c : Char) : Bool := 'A' ≤ c && c ≤ 'Z'

def isLowerLetter (c : Char) : Bool := 'a' ≤ c && c ≤ 'z'

def isDigit (c : Char) : Bool := '0' ≤ c && c ≤ '9'

def isWordChar (c : Char) : Bool := isUpperLetter c || isLowerLetter c || isDigit c

/-- Whether `c` begins a word although the word character `before` stands directly in front. -/
def startsWord (before c : Char) (after : Option Char) : Bool :=
  isUpperLetter c && (!isUpperLetter before || after.any isLowerLetter)

/-- The words of a text, when `word` has been read of the first one, last character first. -/
def wordsFrom (word : List Char) : List Char → List (List Char)
  | [] => if word.isEmpty then [] else [word.reverse]
  | c :: rest =>
    if isWordChar c then
      match word with
      | [] => wordsFrom [c] rest
      | before :: _ =>
        if startsWord before c rest.head? then word.reverse :: wordsFrom [c] rest
        else wordsFrom (c :: word) rest
    else if word.isEmpty then wordsFrom [] rest
    else word.reverse :: wordsFrom [] rest

/-- The words of a text whose accents have been folded. -/
def wordsOfFolded (cs : List Char) : List (List Char) := wordsFrom [] cs

def words (s : String) : List String :=
  (wordsOfFolded (foldAccents s.toList)).map String.ofList

/-- A word with a capital at the front and small letters after it. -/
def capitalize : List Char → List Char
  | [] => []
  | c :: rest => c.toUpper :: rest.map Char.toLower

/-- The declaration name of a folded text: its words, capitalized, in one piece. -/
def typeNameOfFolded (cs : List Char) : List Char :=
  ((wordsOfFolded cs).map capitalize).flatten

/-- The declaration name of a component or a pointer token: `pet_status` and `petStatus` give
`PetStatus`, `HTTPMethod` gives `HttpMethod`. It may be empty or start with a digit. -/
def typeName (s : String) : String :=
  String.ofList (typeNameOfFolded (foldAccents s.toList))

def isIdentifierStart (c : Char) : Bool :=
  isUpperLetter c || isLowerLetter c || c = '_' || c = '$'

/-- Names that can stand unquoted in a declaration. Only ASCII names qualify. -/
def isIdentifierChars : List Char → Bool
  | [] => false
  | c :: rest => isIdentifierStart c && rest.all fun d => isIdentifierStart d || isDigit d

def isIdentifier (s : String) : Bool := isIdentifierChars s.toList

end ApiTypes.Text
