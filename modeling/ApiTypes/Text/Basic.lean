/-!
Cutting and trimming of texts, on lists of characters so that each rule is one recursion.
-/

namespace ApiTypes.Text

/-- The pieces of a text between the places where `sep` stands. There is always one piece more
than there are separators, and a piece may be empty. -/
def splitChars (sep : Char) : List Char → List (List Char)
  | [] => [[]]
  | c :: rest =>
    if c = sep then [] :: splitChars sep rest
    else
      match splitChars sep rest with
      | [] => [[c]]
      | piece :: pieces => (c :: piece) :: pieces

def split (sep : Char) (s : String) : List String :=
  (splitChars sep s.toList).map String.ofList

/-- Drops characters from the end as long as they satisfy `p`. -/
def dropEndWhile (p : Char → Bool) (cs : List Char) : List Char :=
  (cs.reverse.dropWhile p).reverse

def trimEnd (p : Char → Bool) (s : String) : String :=
  String.ofList (dropEndWhile p s.toList)

/-- White space: the blanks of Latin-1 and the separators of the wider character set. -/
def isSpace (c : Char) : Bool :=
  c = ' ' || (9 ≤ c.toNat && c.toNat ≤ 13) || c.toNat = 0x85 || c.toNat = 0xA0 ||
    c.toNat = 0x1680 || (0x2000 ≤ c.toNat && c.toNat ≤ 0x200A) || c.toNat = 0x2028 ||
    c.toNat = 0x2029 || c.toNat = 0x202F || c.toNat = 0x205F || c.toNat = 0x3000

/-- The text without white space at either end. -/
def trim (s : String) : String :=
  String.ofList (dropEndWhile isSpace (s.toList.dropWhile isSpace))

/-- Removes `start` from the front of `cs`, if it stands there. -/
def dropStart? : (start cs : List Char) → Option (List Char)
  | [], cs => some cs
  | _ :: _, [] => none
  | p :: start, c :: cs => if p = c then dropStart? start cs else none

/-- Whether `s` begins with `start`. -/
def startsWith (start s : String) : Bool :=
  (dropStart? start.toList s.toList).isSome

/-- Whether `part` stands somewhere in the text. -/
def containsChars (part : List Char) : List Char → Bool
  | [] => part.isEmpty
  | c :: rest => (dropStart? part (c :: rest)).isSome || containsChars part rest

def contains (part s : String) : Bool :=
  containsChars part.toList s.toList

/-- The text before the first place where `sep` stands and the text after it. -/
def cutChars (sep : Char) : List Char → Option (List Char × List Char)
  | [] => none
  | c :: rest =>
    if c = sep then some ([], rest)
    else (cutChars sep rest).map fun (before, after) => (c :: before, after)

/-- `texts` one after another with `sep` between neighbours. -/
def join (sep : String) : List String → String
  | [] => ""
  | [s] => s
  | s :: rest => s ++ sep ++ join sep rest

/-- `s` written `n` times. -/
def replicate (n : Nat) (s : String) : String :=
  match n with
  | 0 => ""
  | n + 1 => s ++ replicate n s

end ApiTypes.Text
