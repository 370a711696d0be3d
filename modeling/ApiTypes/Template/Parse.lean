import ApiTypes.Template.Basic
import ApiTypes.Text.Bytes

/-!
Reading templates from their tokens. The structure of choices is read by recursion on the number of
tokens left.
-/

namespace ApiTypes.Template

/-- The state of reading: the tokens left, and the line on which the current action started. -/
abbrev Reading := Except ParseFault

def lastToken : Token := ⟨.finish, "", 0, 0⟩

/-- A token that fits nothing. A fault inside an action that started on another line tells so. -/
def unexpected {α : Type} (name : String) (actionLine : Nat) (t : Token) (context : String) :
    Reading α :=
  if t.kind = .fault then
    let started := " started at " ++ name ++ ":" ++ toString actionLine
    let extra :=
      if actionLine = 0 || actionLine = t.line then ""
      else if (t.value.toList.reverse.take 7).reverse = " action".toList then started
      else " in action" ++ started
    throw ⟨t.line, t.value ++ extra⟩
  else throw ⟨t.line, "unexpected " ++ t.describe ++ " in " ++ context⟩

/-- The tokens after blanks. -/
def skipSpace : List Token → List Token
  | t :: rest => if t.kind = .space then skipSpace rest else t :: rest
  | [] => []

/-- Reads the escapes of a quoted text. -/
def unquoteChars : List Char → Option (List Char)
  | [] => some []
  | '\\' :: c :: rest =>
    let plain := [('a', 7), ('b', 8), ('f', 12), ('n', 10), ('r', 13), ('t', 9), ('v', 11),
      ('\\', 92), ('"', 34)]
    match plain.lookup c with
    | some n => (unquoteChars rest).map (Char.ofNat n :: ·)
    | none => none
  | c :: rest => (unquoteChars rest).map (c :: ·)

/-- The text without its first and last character. -/
def inner (s : String) : List Char := (s.toList.drop 1).dropLast

/-- Reads keys directly after a term. -/
def fieldChain : List Token → List String × List Token
  | t :: rest =>
    if t.kind = .field then
      let (names, rest) := fieldChain rest
      (String.ofList (t.value.toList.drop 1) :: names, rest)
    else ([], t :: rest)
  | [] => ([], [])

/-- Reads a term, if one comes next. A path of several keys stands where its second key does. -/
def operand? (tokens : List Token) : Reading (Option (Operand × List Token)) := do
  match tokens with
  | [] => return none
  | t :: rest =>
    let (more, after) := fieldChain rest
    let place := if more.isEmpty then t.offset else (rest.head?.elim t.offset (·.offset))
    match t.kind with
    | .dot => return some (⟨.dot, t.offset⟩, rest)
    | .field =>
      return some (⟨.field (String.ofList (t.value.toList.drop 1) :: more), place⟩, after)
    | .variable =>
      if t.value ≠ "$" then
        throw ⟨t.line, "undefined variable " ++ Text.quoteDiagnostic t.value⟩
      return some (⟨.root more, place⟩, after)
    | .identifier =>
      if !functions.contains t.value then
        throw ⟨t.line, "function " ++ Text.quoteDiagnostic t.value ++ " not defined"⟩
      return some (⟨.function t.value, t.offset⟩, rest)
    | .quoted =>
      match unquoteChars (inner t.value) with
      | some cs => return some (⟨.text (String.ofList cs) t.value, t.offset⟩, rest)
      | none => throw ⟨t.line, "invalid syntax"⟩
    | .rawQuoted =>
      return some (⟨.text (String.ofList ((inner t.value).filter (· ≠ '\r'))) t.value, t.offset⟩,
        rest)
    | _ => return none

/-- Reads the terms of a command, up to a pipe or the end of the action. -/
def command (name : String) (line : Nat) : (steps : Nat) → List Token →
    Reading (List Operand × List Token)
  | 0, tokens => pure ([], tokens)
  | steps + 1, tokens => do
    let (operands, rest) ← match ← operand? (skipSpace tokens) with
      | some (operand, rest) => pure ([operand], rest)
      | none => pure ([], skipSpace tokens)
    match rest with
    | [] => return (operands, [])
    | t :: after =>
      match t.kind with
      | .space =>
        let (more, rest) ← command name line steps after
        return (operands ++ more, rest)
      | .rightDelim => return (operands, rest)
      | .pipe => return (operands, after)
      | _ => unexpected name line t "operand"

/-- Whether a term can come first only in the first command. -/
def isValueTerm : Term → Bool
  | .dot | .text _ _ => true
  | _ => false

/-- Refuses pipelines without commands, and commands that take no value after the first. -/
def checkPipeline (line : Nat) (context : String) (pipeline : Pipeline) : Reading Unit := do
  if pipeline.isEmpty then throw ⟨line, "missing value for " ++ context⟩
  match (pipeline.zipIdx.drop 1).find? fun (c, _) => c.head?.any (isValueTerm ·.term) with
  | some (_, i) =>
    throw ⟨line, "non executable command in pipeline stage " ++ toString (i + 1)⟩
  | none => return

/-- Reads the commands of an action up to its end. -/
def pipeline (name context : String) (line : Nat) : (steps : Nat) → Pipeline → List Token →
    Reading (Pipeline × List Token)
  | 0, read, tokens => pure (read, tokens)
  | steps + 1, read, tokens => do
    match skipSpace tokens with
    | [] => return (read, [])
    | t :: rest =>
      match t.kind with
      | .rightDelim =>
        checkPipeline t.line context read
        return (read, rest)
      | .dot | .field | .variable | .identifier | .quoted | .rawQuoted => do
        let (operands, rest) ← command name line (tokens.length + 1) (t :: rest)
        pipeline name context line steps (read ++ [operands]) rest
      | _ => unexpected name line t context

/-- What ended a list of nodes. -/
inductive Ending where
  | finished
  | closed
  /-- At an `else` whose action is not finished; what follows is the keyword given, if any. -/
  | otherwise (keyword : String) (line : Nat)

/-- The ending and its notation. -/
def Ending.describe : Ending → String
  | .finished => "EOF"
  | .closed => "\x7b\x7bend\x7d\x7d"
  | .otherwise _ _ => "\x7b\x7belse\x7d\x7d"

/-- Expects the end of an action. -/
def expectClose (name context : String) (line : Nat) (tokens : List Token) :
    Reading (List Token) :=
  match skipSpace tokens with
  | [] => pure []
  | t :: rest => if t.kind = .rightDelim then pure rest else unexpected name line t context

mutual

/-- Reads nodes up to an `end`, an `else` or the end of the text. -/
def nodes (name : String) : (steps : Nat) → List Token →
    Reading (List Node × Ending × List Token)
  | 0, tokens => pure ([], .finished, tokens)
  | steps + 1, tokens => do
    match skipSpace tokens with
    | [] => return ([], .finished, [])
    | t :: rest =>
      match t.kind with
      | .finish => return ([], .finished, [t])
      | .text =>
        let (more, ending, rest) ← nodes name steps rest
        return (.text t.value :: more, ending, rest)
      | .leftDelim =>
        match skipSpace rest with
        | [] => return ([], .finished, [])
        | k :: after =>
          match k.kind, k.value with
          | .keyword, "end" =>
            return ([], .closed, ← expectClose name "end" t.line after)
          | .keyword, "else" =>
            match skipSpace after with
            | next :: further =>
              if next.kind = .keyword && (next.value = "if" || next.value = "with") then
                return ([], .otherwise next.value t.line, further)
              else return ([], .otherwise "" t.line, ← expectClose name "else" t.line after)
            | [] => return ([], .otherwise "" t.line, [])
          | .keyword, "if" =>
            let (node, rest) ← choice name false t.line steps after
            let (more, ending, rest) ← nodes name steps rest
            return (node :: more, ending, rest)
          | .keyword, "with" =>
            let (node, rest) ← choice name true t.line steps after
            let (more, ending, rest) ← nodes name steps rest
            return (node :: more, ending, rest)
          | _, _ =>
            let (read, rest) ← pipeline name "command" t.line (tokens.length + 1) [] rest
            let (more, ending, rest) ← nodes name steps rest
            return (.action read :: more, ending, rest)
      | _ => unexpected name 0 t "input"

/-- Reads a choice after its keyword, up to and with its `end`. -/
def choice (name : String) (rebinds : Bool) (line : Nat) : (steps : Nat) → List Token →
    Reading (Node × List Token)
  | 0, tokens => pure (.text "", tokens)
  | steps + 1, tokens => do
    let context := if rebinds then "with" else "if"
    let (tested, rest) ← pipeline name context line (tokens.length + 1) [] tokens
    let (yes, ending, rest) ← nodes name steps rest
    match ending with
    | .closed => return (.choice rebinds tested yes [], rest)
    | .finished => throw ⟨(rest.head?.getD lastToken).line, "unexpected EOF"⟩
    | .otherwise keyword line =>
      if keyword = context then
        let (node, rest) ← choice name rebinds line steps rest
        return (.choice rebinds tested yes [node], rest)
      else
        match rest with
        | t :: _ =>
          if keyword ≠ "" then throw ⟨t.line, "unexpected <" ++ keyword ++ "> in input"⟩
        | [] => pure ()
        let (no, ending, rest) ← nodes name steps rest
        match ending with
        | .closed => return (.choice rebinds tested yes no, rest)
        | .finished => throw ⟨(rest.head?.getD lastToken).line, "unexpected EOF"⟩
        | other =>
          throw ⟨(rest.head?.getD lastToken).line, "expected end; found " ++ other.describe⟩

end

/-- Reads a template. -/
def parse (name source : String) : Reading (List Node) := do
  let listed := tokens source
  let (read, ending, rest) ← nodes name (listed.length + 1) listed
  match ending with
  | .finished => return read
  | other => throw ⟨(rest.head?.getD lastToken).line, "unexpected " ++ other.describe⟩

end ApiTypes.Template
