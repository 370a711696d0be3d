import ApiTypes.Text.Quoted
import ApiTypes.Yaml.Value

/-!
JSON texts: one entry of an array or object on each line, two blanks deeper than its brackets.
Texts are written so that they can stand inside a page: angle brackets and ampersands are escaped.
-/

namespace ApiTypes

/-- A JSON value. Numbers are kept as they are written. -/
inductive JsonValue where
  | null
  | bool (b : Bool)
  | number (digits : String)
  | text (s : String)
  | array (items : List JsonValue)
  | object (entries : List (String × JsonValue))
  deriving Inhabited

namespace JsonValue

/-- A character inside a string. -/
def quoteChar (c : Char) : List Char :=
  if c = '"' then ['\\', '"']
  else if c = '\\' then ['\\', '\\']
  else if c = '\n' then ['\\', 'n']
  else if c = '\r' then ['\\', 'r']
  else if c = '\t' then ['\\', 't']
  else if c.toNat = 8 then ['\\', 'b']
  else if c.toNat = 12 then ['\\', 'f']
  else if c.toNat < 32 || c = '<' || c = '>' || c = '&' || c.toNat = 0x2028 ||
      c.toNat = 0x2029 then
    Text.unicodeEscape c
  else [c]

def quote (s : String) : String :=
  String.ofList ('"' :: s.toList.flatMap quoteChar ++ ['"'])

/-- Brackets around lines, each indented two blanks deeper than `indent`. -/
def block (opening closing indent : String) (lines : List String) : String :=
  if lines.isEmpty then opening ++ closing
  else
    let inner := "\n" ++ indent ++ "  "
    opening ++ inner ++ Text.join ("," ++ inner) lines ++ "\n" ++ indent ++ closing

mutual

/-- The text of a value whose first line is indented by `indent`. -/
def renderAt (indent : String) : JsonValue → String
  | .null => "null"
  | .bool b => if b then "true" else "false"
  | .number digits => digits
  | .text s => quote s
  | .array items => block "[" "]" indent (renderItems (indent ++ "  ") items)
  | .object entries => block "\x7b" "\x7d" indent (renderEntries (indent ++ "  ") entries)

def renderItems (indent : String) : List JsonValue → List String
  | [] => []
  | item :: rest => item.renderAt indent :: renderItems indent rest

def renderEntries (indent : String) : List (String × JsonValue) → List String
  | [] => []
  | (key, value) :: rest =>
    (quote key ++ ": " ++ value.renderAt indent) :: renderEntries indent rest

end

def render (j : JsonValue) : String := j.renderAt ""

/-- Numbers are positional from `10 ^ -6` up to `10 ^ 21`. -/
def numberLayout : Binary64.Layout := ⟨some (-6), 21⟩

/-- A number with its exponent written without a leading zero. -/
def shortenExponent : List Char → List Char
  | [] => []
  | ['e', '-', '0', d] => ['e', '-', d]
  | c :: rest => c :: shortenExponent rest

/-- The text of a finite number. -/
def ofNumber? : Binary64 → Option JsonValue
  | x@(.finite ..) =>
    some (.number (String.ofList (shortenExponent (x.render numberLayout).toList)))
  | _ => none

/-- A point in time in its own zone. Zones a day or more away have no notation. -/
def ofTime? (t : Yaml.Timestamp) : Option JsonValue :=
  let minutes := t.offset.natAbs / 60
  if 1440 ≤ minutes then none
  else
    let zone :=
      if t.offset = 0 then "Z"
      else (if t.offset < 0 then "-" else "+") ++ Yaml.Timestamp.padded 2 (minutes / 60) ++ ":" ++
        Yaml.Timestamp.padded 2 (minutes % 60)
    some (.text (t.date ++ "T" ++ t.clock ++ zone))

mutual

/-- A free value as JSON, the entries of maps ordered by key. Undefined and infinite numbers and
maps with keys other than texts have no notation. -/
def ofValue? : Yaml.Value → Option JsonValue
  | .null => some .null
  | .bool b => some (.bool b)
  | .int n => some (.number (toString n))
  | .float x => ofNumber? x
  | .text s => some (.text s)
  | .time t => ofTime? t
  | .list items => (ofValues? items).map .array
  | .dict entries =>
    (ofEntries? entries).map fun es => .object (es.mergeSort fun a b => a.1 ≤ b.1)
  | .table _ => none

def ofValues? : List Yaml.Value → Option (List JsonValue)
  | [] => some []
  | value :: rest => do return (← ofValue? value) :: (← ofValues? rest)

def ofEntries? : List (String × Yaml.Value) → Option (List (String × JsonValue))
  | [] => some []
  | (key, value) :: rest => do return (key, ← ofValue? value) :: (← ofEntries? rest)

end

end JsonValue

end ApiTypes
