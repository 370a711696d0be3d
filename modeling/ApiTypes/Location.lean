import ApiTypes.Text.Basic
import ApiTypes.Text.Bytes
import ApiTypes.Text.CaseMap
import ApiTypes.Text.Words

/-!
Where documents are: paths in a file system and addresses with a scheme. Paths are joined and
cleaned by their text alone.
-/

namespace ApiTypes.Location

/-- One step of cleaning a path: `done` holds the parts kept so far, last first. -/
def cleanStep (rooted : Bool) (done : List String) (part : String) : List String :=
  if part = "" || part = "." then done
  else if part = ".." then
    match done with
    | [] => if rooted then [] else [".."]
    | last :: before => if last = ".." then ".." :: done else before
  else part :: done

/-- The shortest path that means the same: no empty parts, no dots, and no part that is taken back
by the next. -/
def clean (path : String) : String :=
  let rooted := Text.startsWith "/" path
  let parts := ((Text.split '/' path).foldl (cleanStep rooted) []).reverse
  let body := Text.join "/" parts
  if rooted then "/" ++ body else if body = "" then "." else body

/-- Everything up to the last slash, cleaned. -/
def directory (path : String) : String :=
  clean (String.ofList (path.toList.reverse.dropWhile (· ≠ '/')).reverse)

/-- Parts joined by slashes and cleaned; empty parts at the front do not count. -/
def joinPaths (parts : List String) : String :=
  match parts.dropWhile (· = "") with
  | [] => ""
  | rest => clean (Text.join "/" rest)

def isAbsolutePath (path : String) : Bool := Text.startsWith "/" path

/-- The absolute form of a path, seen from a working directory. -/
def absolute (workingDirectory path : String) : String :=
  if isAbsolutePath path then clean path else joinPaths [workingDirectory, path]

/-- The last part of a path. Slashes at the end do not count, and a path without parts is a dot or
a slash. -/
def base (path : String) : String :=
  match ((Text.split '/' path).filter (· ≠ "")).getLast? with
  | some part => part
  | none => if path = "" then "." else "/"

/-- The text from the last dot of the last part on, if there is a dot. -/
def extension (path : String) : String :=
  let reversed := path.toList.reverse.takeWhile (· ≠ '/')
  if reversed.contains '.' then
    String.ofList ('.' :: (reversed.takeWhile (· ≠ '.')).reverse)
  else ""

/-- What stands before the colon of an address. -/
inductive Scheme where
  | absent
  | present (name : String) (rest : List Char)
  | malformed

/-- Looks for a scheme: a letter, then letters, digits and a few marks, then a colon. -/
def schemeOf (cs : List Char) : Scheme := go [] cs
where
  go (read : List Char) : List Char → Scheme
    | [] => .absent
    | c :: rest =>
      if Text.isUpperLetter c || Text.isLowerLetter c then go (c :: read) rest
      else if Text.isDigit c || c = '+' || c = '-' || c = '.' then
        if read.isEmpty then .absent else go (c :: read) rest
      else if c = ':' then
        if read.isEmpty then .malformed
        else .present (Text.lower (String.ofList read.reverse)) rest
      else .absent

/-- An address. The host may have a name and a password in front of it; where no path starts after
the scheme, all up to the query is one part that means nothing here. -/
structure Address where
  scheme : String
  user : Option (String × Option String) := none
  host : String := ""
  /-- Whether a path follows the scheme directly, with no slashes for a host. -/
  isHostless : Bool := false
  path : String := ""
  /-- The path in the form it was given. -/
  writtenPath : String := ""
  opaquePart : String := ""
  query : Option String := none
  fragment : String := ""

/-- Characters that can stand in the name of a host as they are. -/
def isHostChar (c : Char) : Bool :=
  Text.isUpperLetter c || Text.isLowerLetter c || Text.isDigit c ||
    ['-', '_', '.', '~', '!', '$', '&', '\'', '(', ')', '*', '+', ',', ';', '=', ':', '[', ']', '<',
      '>', '"'].contains c

/-- Whether a text can name a host. Only bytes beyond the basic characters may be escaped, and the
percent sign. -/
def isHost : List Char → Bool
  | [] => true
  | '%' :: a :: b :: rest =>
    match Text.hexDigitValue? a, Text.hexDigitValue? b with
    | some high, some low => (8 ≤ high || (high = 2 && low = 5)) && isHost rest
    | _, _ => false
  | c :: rest => (128 ≤ c.toNat || isHostChar c) && isHost rest

/-- Whether a text is empty or a colon and a number of digits. -/
def isServiceNumber : List Char → Bool
  | [] => true
  | c :: digits => c = ':' && digits.all Text.isDigit

/-- Whether a text is a group of four hexadecimal digits at most. -/
def isHexGroup (cs : List Char) : Bool :=
  0 < cs.length && cs.length ≤ 4 && cs.all fun c => (Text.hexDigitValue? c).isSome

/-- Whether a text is four numbers below 256 with points between them, without leading zeros. -/
def isDottedQuad (cs : List Char) : Bool :=
  let groups := Text.splitChars '.' cs
  groups.length = 4 && groups.all fun group =>
    0 < group.length && group.length ≤ 3 && group.all Text.isDigit &&
      (group.length = 1 || group.head? ≠ some '0') &&
      group.foldl (fun n c => n * 10 + (c.toNat - '0'.toNat)) 0 < 256

/-- The number of 16-bit groups in a part of a numerical address, which is groups with colons
between them; four numbers with points may stand in place of the last two. -/
def groupCount? (isLast : Bool) (cs : List Char) : Option Nat :=
  if cs.isEmpty then some 0
  else
    let groups := Text.splitChars ':' cs
    let last := groups.getLastD []
    if groups.all isHexGroup then some groups.length
    else if isLast && groups.dropLast.all isHexGroup && isDottedQuad last then
      some (groups.length + 1)
    else none

/-- Cuts a text at the first two colons in a row. -/
def cutDoubleColon : List Char → Option (List Char × List Char)
  | [] => none
  | ':' :: ':' :: rest => some ([], rest)
  | c :: rest => (cutDoubleColon rest).map fun (before, after) => (c :: before, after)

/-- Whether a text is a numerical address of eight groups, of which two colons leave some out; a
zone may follow a percent sign. -/
def isNumericalHost (cs : List Char) : Bool :=
  let (groups, zone) := match Text.cutChars '%' cs with
    | some (groups, zone) => (groups, some zone)
    | none => (cs, none)
  zone.all (!·.isEmpty) &&
    match cutDoubleColon groups with
    | none => groupCount? true groups = some 8
    | some (before, after) =>
      match groupCount? false before, groupCount? true after with
      | some m, some n => m + n < 8
      | _, _ => false

/-- The host that a text names, with its escapes read. A name in brackets has to be a numerical
address, and only a service number can follow it; any other name ends before its last colon. -/
def host? (cs : List Char) : Option String :=
  if !isHost cs then none
  else if cs.contains '[' then
    match cs with
    | '[' :: rest =>
      if !rest.contains ']' then none
      else
        let inner := ((rest.reverse.dropWhile (· ≠ ']')).drop 1).reverse
        let service := (rest.reverse.takeWhile (· ≠ ']')).reverse
        (Text.percentDecode? (String.ofList inner)).bind fun name =>
          if isServiceNumber service && !inner.contains '[' && isNumericalHost name.toList then
            some ("[" ++ name ++ "]" ++ String.ofList service)
          else none
    | _ => none
  else
    let service := if cs.contains ':' then ':' :: (cs.reverse.takeWhile (· ≠ ':')).reverse else []
    if isServiceNumber service then Text.percentDecode? (String.ofList cs) else none

/-- Whether a text can be the name and the password in front of a host. -/
def isUser (cs : List Char) : Bool :=
  cs.all fun c =>
    Text.isUpperLetter c || Text.isLowerLetter c || Text.isDigit c ||
      ['-', '.', '_', ':', '~', '!', '$', '&', '\'', '(', ')', '*', '+', ',', ';', '=', '%',
        '@'].contains c

/-- The name and the password in front of a host, with their escapes read. -/
def user? (cs : List Char) : Option (String × Option String) :=
  if !isUser cs then none
  else
    match Text.cutChars ':' cs with
    | none => (Text.percentDecode? (String.ofList cs)).map (·, none)
    | some (name, password) => do
      let name ← Text.percentDecode? (String.ofList name)
      let password ← Text.percentDecode? (String.ofList password)
      return (name, some password)

/-- Reads an authority into an address. -/
def withAuthority? (a : Address) (cs : List Char) : Option Address := do
  let host ← host? (cs.reverse.takeWhile (· ≠ '@')).reverse
  if cs.contains '@' then
    let user ← user? ((cs.reverse.dropWhile (· ≠ '@')).drop 1).reverse
    return { a with user := some user, host }
  else return { a with host }

/-- Reads a path into an address. -/
def withPath? (a : Address) (cs : List Char) : Option Address :=
  (Text.percentDecode? (String.ofList cs)).map fun path =>
    { a with path, writtenPath := String.ofList cs }

/-- Reads an address. Nothing comes out for texts that no address can be; a text without a scheme
is an address with an empty one. -/
def address? (s : String) : Option Address :=
  let cs := s.toList.takeWhile (· ≠ '#')
  let fragment := String.ofList ((s.toList.dropWhile (· ≠ '#')).drop 1)
  if cs.any (fun c => c.toNat < 32 || c.toNat = 127) then none
  else if (Text.percentDecode? fragment).isNone then none
  else
    let (scheme, rest) : Option String × List Char :=
      match schemeOf cs with
      | .absent => (some "", cs)
      | .present name rest => (some name, rest)
      | .malformed => (none, cs)
    match scheme with
    | none => none
    | some scheme =>
      let (rest, query) :=
        match Text.cutChars '?' rest with
        | some (before, after) => (before, some (String.ofList after))
        | none => (rest, none)
      let a : Address := { scheme, query, fragment }
      match rest with
      | '/' :: '/' :: more =>
        if scheme = "" && more.head? = some '/' then withPath? a rest
        else
          (withAuthority? a (more.takeWhile (· ≠ '/'))).bind fun a =>
            withPath? a (more.dropWhile (· ≠ '/'))
      | '/' :: _ => withPath? { a with isHostless := true } rest
      | _ =>
        if scheme ≠ "" then some { a with opaquePart := String.ofList rest }
        else if (rest.takeWhile (· ≠ '/')).contains ':' then none
        else withPath? a rest

/-- Characters that stand for themselves in the path of an address. -/
def isPathChar (c : Char) : Bool :=
  Text.isUpperLetter c || Text.isLowerLetter c || Text.isDigit c ||
    ['-', '_', '.', '~', '$', '&', '+', ',', '/', ':', ';', '=', '@'].contains c

/-- Characters that stand for themselves in a name or a password in front of a host. -/
def isUserChar (c : Char) : Bool :=
  Text.isUpperLetter c || Text.isLowerLetter c || Text.isDigit c ||
    ['-', '_', '.', '~', '$', '&', '+', ',', ';', '='].contains c

/-- A byte as a percent escape. -/
def percentEscape (byte : Nat) : List Char :=
  let digit (n : Nat) : Char := if n < 10 then Char.ofNat (n + 48) else Char.ofNat (n + 55)
  ['%', digit (byte / 16), digit (byte % 16)]

/-- A text with escapes for all characters that cannot stand for themselves. -/
def encode (plain : Char → Bool) (s : String) : String :=
  String.ofList (s.toList.flatMap fun c =>
    if plain c then [c] else (Text.bytesOf c).flatMap percentEscape)

/-- Characters that can stand for themselves in a path or fragment that was given with them. -/
def isToleratedChar (c : Char) : Bool := ['!', '\'', '(', ')', '*', '[', ']', '%'].contains c

/-- A path in its written form, which is the one it had if that can stand and means this path. -/
def Address.encodedPath (a : Address) : String :=
  if a.writtenPath.toList.all (fun c => isPathChar c || isToleratedChar c) &&
      Text.percentDecode? a.writtenPath = some a.path then a.writtenPath
  else if a.path = "*" then "*"
  else encode isPathChar a.path

/-- Characters that stand for themselves in a fragment. -/
def isFragmentChar (c : Char) : Bool :=
  isPathChar c || ['?', '!', '(', ')', '*'].contains c

/-- A fragment in its written form, which is the one it had if that can stand. -/
def encodeFragment (fragment : String) : String :=
  if fragment.toList.all fun c => isFragmentChar c || isToleratedChar c then fragment
  else encode isFragmentChar ((Text.percentDecode? fragment).getD fragment)

/-- The name and the password in front of a host, with the sign that ends them. -/
def Address.encodedUser (a : Address) : String :=
  match a.user with
  | none => ""
  | some (name, none) => encode isUserChar name ++ "@"
  | some (name, some password) =>
    encode isUserChar name ++ ":" ++ encode isUserChar password ++ "@"

/-- The text of an address with a scheme. -/
def Address.render (a : Address) : String :=
  let path := a.encodedPath
  let isBare := a.host = "" && a.user.isNone
  let slashes := if isBare && (a.isHostless || a.path = "") then "" else "//"
  let slash := if path ≠ "" && !Text.startsWith "/" path && a.host ≠ "" then "/" else ""
  a.scheme ++ ":" ++
    (if a.opaquePart ≠ "" then a.opaquePart
    else slashes ++ a.encodedUser ++ encode isHostChar a.host ++ slash ++ path) ++
    (match a.query with
    | some query => "?" ++ query
    | none => "") ++
    (if a.fragment = "" then "" else "#" ++ encodeFragment a.fragment)

def isWebScheme (scheme : String) : Bool := scheme = "http" || scheme = "https"

/-- The address on the web that a location is. -/
def webAddress? (location : String) : Option Address :=
  (address? location).filter fun a => isWebScheme a.scheme

/-- Whether a location is an address on the web. -/
def isWebAddress (location : String) : Bool := (webAddress? location).isSome

/-- Whether a location names a scheme or starts at the root of the file system. -/
def isAbsolute (location : String) : Bool :=
  (address? location).any (·.scheme ≠ "") || isAbsolutePath location

/-- A location relative to the directory of another one, which may be an address on the web. -/
def relativeTo (base location : String) : String :=
  match webAddress? base with
  | some a => { a with path := joinPaths [directory a.path, location] : Address }.render
  | none => joinPaths [directory base, location]

/-- Where a description is, whatever the working directory: addresses on the web and absolute paths
stay as they are. -/
def settled (workingDirectory location : String) : String :=
  if location = "" || isWebAddress location || isAbsolutePath location then location
  else absolute workingDirectory location

end ApiTypes.Location
