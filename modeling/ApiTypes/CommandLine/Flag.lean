import ApiTypes.CommandLine.Pairs
import ApiTypes.Text.Bytes
import ApiTypes.Text.Literal

/-!
Flags of a command and their uses among the arguments. A long flag is written with two dashes and
its whole name, with its value after an equals sign or in the next argument. Short flags are single
letters; several of them can share a dash, and the rest of such a cluster can be the value of its
last flag. Switches take no value from the next argument. Two dashes on their own end the flags.
-/

namespace ApiTypes.CommandLine

/-- What a flag takes. -/
inductive FlagKind where
  /-- A truth value; the flag on its own is true. -/
  | switch
  | text
  /-- A text for each use. -/
  | texts
  /-- Pairs of texts; uses add up. -/
  | pairs
  deriving DecidableEq, Repr

structure Flag where
  name : String
  short : Option Char := none
  kind : FlagKind
  /-- What help says of the flag. -/
  usage : String
  /-- The value without any use, as help shows it; nothing if it is not worth showing. -/
  preset : String := ""

/-- Why the value of a flag was refused. -/
inductive ValueError where
  | truthValue (cause : Text.LiteralError)
  | pairs (cause : PairsError)

def ValueError.message : ValueError → String
  | .truthValue cause => cause.message
  | .pairs cause => cause.message

/-- Why arguments could not be understood. -/
inductive FlagError where
  | malformed (argument : String)
  | unknown (name : String)
  | unknownShort (letter : Char) (cluster : String)
  | needsValue (argument : String)
  | shortNeedsValue (letter : Char) (cluster : String)
  | refused (flag : Flag) (value : String) (cause : ValueError)

/-- A letter in quotes; of a letter with several bytes only the first is looked at. -/
def quoteLetter (c : Char) : String :=
  let c := Char.ofNat ((Text.bytesOf c).headD 0)
  let inner := ((Text.quoteDiagnostic (String.singleton c)).toList.drop 1).dropLast
  "'" ++ (if c = '\'' then "\\'" else if c = '"' then "\"" else String.ofList inner) ++ "'"

/-- A flag by its names, as messages show it. -/
def Flag.title (f : Flag) : String :=
  match f.short with
  | some c => "-" ++ String.singleton c ++ ", --" ++ f.name
  | none => "--" ++ f.name

def FlagError.message : FlagError → String
  | .malformed argument => "bad flag syntax: " ++ argument
  | .unknown name => "unknown flag: --" ++ name
  | .unknownShort letter cluster =>
    "unknown shorthand flag: " ++ quoteLetter letter ++ " in -" ++ cluster
  | .needsValue argument => "flag needs an argument: " ++ argument
  | .shortNeedsValue letter cluster =>
    "flag needs an argument: " ++ quoteLetter letter ++ " in -" ++ cluster
  | .refused flag value cause =>
    "invalid argument " ++ Text.quoteDiagnostic value ++ " for " ++
      Text.quoteDiagnostic flag.title ++ " flag: " ++ cause.message

/-- What arguments say: the uses of flags by name, and the arguments that are none. -/
structure Arguments where
  uses : List (String × String) := []
  operands : List String := []

namespace Flag

/-- Refuses values that do not fit the flag. -/
def check (f : Flag) (value : String) : Except FlagError Unit :=
  match f.kind with
  | .switch => (discard (Text.readTruthValue value)).mapError (.refused f value <| .truthValue ·)
  | .pairs => (discard (readPairs value)).mapError (.refused f value <| .pairs ·)
  | .text | .texts => .ok ()

/-- A use of a flag with a value that fits. -/
def use (f : Flag) (value : String) : Except FlagError (String × String) := do
  f.check value
  return (f.name, value)

def isSwitch (f : Flag) : Bool := f.kind = .switch

/-- A cluster of short flags: the uses in it, and the flag that takes the next argument, with its
letter, if the last one does. -/
def cluster (flags : List Flag) :
    List Char → Except FlagError (List (String × String) × Option (Flag × Char))
  | [] => .ok ([], none)
  | c :: rest =>
    if (Text.dropStart? "test.".toList (c :: rest)).isSome then .ok ([], none)
    else
      match flags.find? (·.short = some c) with
      | none => .error (.unknownShort c (String.ofList (c :: rest)))
      | some f =>
        match rest with
        | '=' :: d :: value => do
          return ([← f.use (String.ofList (d :: value))], none)
        | [] => if f.isSwitch then do return ([← f.use "true"], none) else .ok ([], some (f, c))
        | d :: value =>
          if f.isSwitch then do
            let here ← f.use "true"
            let (uses, waiting) ← cluster flags (d :: value)
            return (here :: uses, waiting)
          else do return ([← f.use (String.ofList (d :: value))], none)

/-- A long flag: its use, or the flag that takes the next argument. -/
def long (flags : List Flag) (argument : String) (name : List Char) :
    Except FlagError ((String × String) ⊕ Flag) :=
  if name.head? = some '-' || name.head? = some '=' then .error (.malformed argument)
  else
    let (name, value) := match Text.cutChars '=' name with
      | some (name, value) => (String.ofList name, some (String.ofList value))
      | none => (String.ofList name, none)
    match flags.find? (·.name = name), value with
    | none, _ => .error (.unknown name)
    | some f, some value => .inl <$> f.use value
    | some f, none => if f.isSwitch then .inl <$> f.use "true" else .ok (.inr f)

end Flag

namespace Arguments

def addUse (a : Arguments) (use : String × String) : Arguments := { a with uses := use :: a.uses }

/-- Reads arguments, given the flags that there are. -/
def read (flags : List Flag) : List String → Except FlagError Arguments
  | [] => .ok {}
  | argument :: rest =>
    match argument.toList with
    | ['-', '-'] => .ok { operands := rest }
    | '-' :: '-' :: name => do
      match ← Flag.long flags argument name with
      | .inl use => return (← read flags rest).addUse use
      | .inr f =>
        match rest with
        | [] => throw (.needsValue argument)
        | value :: rest =>
          let use ← f.use value
          return (← read flags rest).addUse use
    | '-' :: c :: letters => do
      let (uses, waiting) ← Flag.cluster flags (c :: letters)
      match waiting with
      | none =>
        let others ← read flags rest
        return { others with uses := uses ++ others.uses }
      | some (f, letter) =>
        match rest with
        | [] => throw (.shortNeedsValue letter (String.singleton letter))
        | value :: rest =>
          let use ← f.use value
          let others ← read flags rest
          return { others with uses := uses ++ use :: others.uses }
    | _ => do
      let others ← read flags rest
      return { others with operands := argument :: others.operands }

/-- Whether a flag was used. -/
def has (a : Arguments) (name : String) : Bool := a.uses.any (·.1 == name)

/-- The values that a flag was used with. -/
def texts (a : Arguments) (name : String) : List String :=
  (a.uses.filter (·.1 == name)).map (·.2)

/-- The value of the last use of a flag, or else `preset`. -/
def text (a : Arguments) (name preset : String) : String := (a.texts name).getLast?.getD preset

/-- Whether the last use of a switch turned it on, or else `preset`. -/
def switch (a : Arguments) (name : String) (preset : Bool) : Bool :=
  ((a.texts name).getLast?.bind Text.truthValue?).getD preset

/-- The pairs of all uses of a flag; of several pairs with one key the last counts. -/
def pairs (a : Arguments) (name : String) : List (String × String) :=
  let all := (a.texts name).flatMap fun value => (readPairs value).toOption.getD []
  all.reverse.eraseDupsBy fun p q => p.1 == q.1

end Arguments

end ApiTypes.CommandLine
