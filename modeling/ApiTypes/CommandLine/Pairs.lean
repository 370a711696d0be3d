import ApiTypes.Text.Basic

/-!
Lists of `key=value` pairs in one argument. Several pairs are separated by commas; a field in quotes
may hold commas, line breaks, and quotes that are written twice.
-/

namespace ApiTypes.CommandLine

/-- Why a list of fields cannot be read. -/
inductive FieldFault where
  | bareQuote
  | strayQuote
  deriving DecidableEq, Repr

/-- A place in a text, counted in lines and bytes from one. -/
structure Place where
  line : Nat
  column : Nat

/-- The place after a character. -/
def Place.after (p : Place) (c : Char) : Place :=
  if c = '\n' then ⟨p.line + 1, 1⟩ else { p with column := p.column + c.utf8Size }

/-- Why an argument is no list of pairs. -/
inductive PairsError where
  | noPair (text : String)
  | field (start : Nat) (place : Place) (fault : FieldFault)

def FieldFault.message : FieldFault → String
  | .bareQuote => "bare \" in non-quoted-field"
  | .strayQuote => "extraneous or missing \" in quoted-field"

def PairsError.message : PairsError → String
  | .noPair text => text ++ " must be formatted as key=value"
  | .field start place fault =>
    let record := if start = place.line then "" else "record on line " ++ toString start ++ "; "
    record ++ "parse error on line " ++ toString place.line ++ ", column " ++
      toString place.column ++ ": " ++ fault.message

/-- Where the reading of a record stands. -/
inductive FieldState where
  /-- In front of a field. -/
  | start
  /-- In a field without quotes; its characters so far, last first. -/
  | plain (read : List Char)
  /-- Between quotes. -/
  | quoted (read : List Char)
  /-- After a quote that may be the closing one. -/
  | closing (read : List Char)

/-- Reads the fields of the first record; `done` are the fields so far, last first. -/
def recordFields (first : Nat) : Place → FieldState → (done : List String) → List Char →
    Except PairsError (List String)
  | _, .start, done, [] => .ok ("" :: done).reverse
  | _, .plain read, done, [] | _, .closing read, done, [] =>
    .ok (String.ofList read.reverse :: done).reverse
  | place, .quoted _, _, [] => .error (.field first place .strayQuote)
  | place, .start, done, c :: rest =>
    if c = '"' then recordFields first (place.after c) (.quoted []) done rest
    else if c = ',' then recordFields first (place.after c) .start ("" :: done) rest
    else if c = '\n' then .ok ("" :: done).reverse
    else recordFields first (place.after c) (.plain [c]) done rest
  | place, .plain read, done, c :: rest =>
    if c = '"' then .error (.field first place .bareQuote)
    else if c = ',' then
      recordFields first (place.after c) .start (String.ofList read.reverse :: done) rest
    else if c = '\n' then .ok (String.ofList read.reverse :: done).reverse
    else recordFields first (place.after c) (.plain (c :: read)) done rest
  | place, .quoted read, done, c :: rest =>
    if c = '"' then recordFields first (place.after c) (.closing read) done rest
    else recordFields first (place.after c) (.quoted (c :: read)) done rest
  | place, .closing read, done, c :: rest =>
    if c = '"' then recordFields first (place.after c) (.quoted ('"' :: read)) done rest
    else if c = ',' then
      recordFields first (place.after c) .start (String.ofList read.reverse :: done) rest
    else if c = '\n' then .ok (String.ofList read.reverse :: done).reverse
    else .error (.field first { place with column := place.column - 1 } .strayQuote)

/-- Line breaks in their short form; one that is cut short at the end of the text is left out. -/
def shortBreaks : List Char → List Char
  | [] => []
  | ['\r'] => []
  | '\r' :: '\n' :: rest => '\n' :: shortBreaks rest
  | c :: rest => c :: shortBreaks rest

/-- The fields of the first line that is not empty. -/
def firstRecord (s : String) : Except PairsError (List String) :=
  let cs := shortBreaks s.toList
  let line := 1 + (cs.takeWhile (· = '\n')).length
  recordFields line ⟨line, 1⟩ .start [] (cs.dropWhile (· = '\n'))

/-- A pair from a text with an equals sign. -/
def pair (text : String) : Except PairsError (String × String) :=
  match Text.cutChars '=' text.toList with
  | some (key, value) => .ok (String.ofList key, String.ofList value)
  | none => .error (.noPair text)

/-- The pairs in an argument. One pair on its own is taken as it is, without quotes around it. -/
def readPairs (s : String) : Except PairsError (List (String × String)) :=
  match s.toList.count '=' with
  | 0 => .error (.noPair s)
  | 1 =>
    let quote (c : Char) : Bool := c = '"'
    ([String.ofList (Text.dropEndWhile quote (s.toList.dropWhile quote))].mapM pair)
  | _ => do (← firstRecord s).mapM pair

end ApiTypes.CommandLine
