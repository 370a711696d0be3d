import ApiTypes.Yaml.Token
import ApiTypes.Yaml.Resolve

/-!
Documents as trees. A node knows its line and its tag; an alias carries the node it stands for.
An alias inside the collection that it stands for cannot, and names the collection by its number;
the tree of the document has a table of these. Only the first document of a text is read.
-/

namespace ApiTypes.Yaml

/-- A node of a document. Aliases are numbered. A `cycle` is an alias for a collection that contains
it: it has the tag of the collection and its number. -/
inductive Node where
  | scalar (line : Nat) (tag value : String)
  | sequence (line : Nat) (tag : String) (items : List Node)
  | mapping (line : Nat) (tag : String) (entries : List (Node × Node))
  | alias (line : Nat) (name : String) (id : Nat) (target : Node)
  | cycle (line : Nat) (name : String) (id : Nat) (tag : String) (collection : Nat)
  deriving Inhabited

namespace Node

def line : Node → Nat
  | .scalar line .. | .sequence line .. | .mapping line .. | .alias line .. | .cycle line .. => line

/-- The tag of a node; an alias has the tag of what it stands for. -/
def tag : Node → String
  | .scalar _ tag _ | .sequence _ tag _ | .mapping _ tag _ | .cycle _ _ _ tag _ => tag
  | .alias _ _ _ target => target.tag

/-- The text of a node as a key: the value of a scalar, the name of an alias. -/
def keyText : Node → String
  | .scalar _ _ value => value
  | .alias _ name .. | .cycle _ name .. => name
  | _ => ""

def isNull (node : Node) : Bool := node.tag == "!!null"

end Node

/-- The collections of a document that have anchors, by their numbers. -/
abbrev Collections := List (Nat × Node)

/-- What a node stands for, if it is an alias. -/
def Collections.aliased? (collections : Collections) : Node → Option Node
  | .alias _ _ _ target => some target
  | .cycle _ _ _ _ collection => collections.lookup collection
  | _ => none

/-- The node with an alias followed. No alias stands for an alias. -/
def Collections.unalias (collections : Collections) (node : Node) : Node :=
  (collections.aliased? node).getD node

/-- A document: its root and its collections with anchors. `reach` bounds the number of nodes on
any way down from the root on which no alias occurs twice. -/
structure Tree where
  root : Node
  collections : Collections
  reach : Nat

/-- What an anchor names: the number of the node, its tag, and the node itself when it has been read
to its end. -/
structure Anchored where
  number : Nat
  tag : String
  node? : Option Node := none

/-- What is fixed before a document and what is known while reading it. `marks` counts the anchors
and aliases met so far. -/
structure Reading where
  lexer : Lexer
  handles : List (String × String) := []
  anchors : List (String × Anchored) := []
  marks : Nat := 0

/-- Reading a document; nothing comes out when the text is ill-formed. -/
abbrev Reader := StateT Reading Option

namespace Reader

/-- The next token. -/
def peek : Reader Token := do
  let r ← get
  let (token, lexer) ← r.lexer.peek
  set { r with lexer }
  return token

def lexeme : Reader Lexeme := return (← peek).lexeme

/-- Goes past the next token. -/
def skip : Reader Unit := modify fun r => { r with lexer := r.lexer.next }

/-- A new number for an anchor or an alias. -/
def mark : Reader Nat := do
  let r ← get
  set { r with marks := r.marks + 1 }
  return r.marks

/-- Reads a node with an optional anchor. Aliases inside the node find it unfinished. -/
def anchored (name : Option String) (tag : String) (read : Reader Node) : Reader Node := do
  match name with
  | none => read
  | some name =>
    let number ← mark
    modify fun r => { r with anchors := (name, { number, tag }) :: r.anchors }
    let node ← read
    modify fun r => { r with
      anchors := r.anchors.map fun (n, a) =>
        (n, if a.number = number then { a with node? := some node } else a) }
    return node

/-- The alias with the given name. -/
def aliasOf (line : Nat) (name : String) : Reader Node := do
  let id ← mark
  let found ← (← get).anchors.lookup name
  return match found.node? with
    | some target => .alias line name id target
    | none => .cycle line name id found.tag found.number

/-- The full form of a tag with a handle. -/
def fullTag (handle suffix : String) : Reader String := do
  if handle.isEmpty then return suffix
  else return (← (← get).handles.lookup handle) ++ suffix

end Reader

/-- The namespace of the core tags. -/
def coreTags : String := "tag:yaml.org,2002:"

/-- A core tag in its short form. -/
def shortTag (tag : String) : String :=
  match Text.dropStart? coreTags.toList tag.toList with
  | some rest => "!!" ++ String.ofList rest
  | none => tag

/-- The tag of a scalar: an explicit one first, then the tag of texts for quoted scalars, and what
the text says for plain ones. -/
def scalarTag (explicit : String) (plain : Bool) (text : String) : String :=
  if explicit ≠ "" && explicit ≠ "!" then shortTag explicit
  else if !plain then "!!str"
  else if text = "<<" then "!!merge"
  else (atomOf true text).tag

def collectionTag (explicit usual : String) : String :=
  if explicit ≠ "" && explicit ≠ "!" then shortTag explicit else usual

/-- A value that was left out. -/
def emptyNode (line : Nat) : Node := .scalar line "!!null" ""

/-- The anchor and the tag in front of a node, in either order, and the line of the first. -/
structure Properties where
  line? : Option Nat := none
  anchor : Option String := none
  tag : String := ""

/-- Reads the anchor and the tag in front of a node. -/
def readProperties : Reader Properties := do
  let first ← Reader.peek
  match first.lexeme with
  | .anchor name =>
    Reader.skip
    match ← Reader.lexeme with
    | .tag handle suffix =>
      let tag ← Reader.fullTag handle suffix
      Reader.skip
      return { line? := first.line, anchor := name, tag }
    | _ => return { line? := first.line, anchor := name }
  | .tag handle suffix =>
    let tag ← Reader.fullTag handle suffix
    Reader.skip
    match ← Reader.lexeme with
    | .anchor name =>
      Reader.skip
      return { line? := first.line, anchor := name, tag }
    | _ => return { line? := first.line, tag }
  | _ => return {}

/-- Lexemes that end the place where a block value could stand. -/
def endsBlockValue : Lexeme → Bool
  | .key | .value | .blockEnd => true
  | _ => false

/-- Where a node stands decides what it may be. -/
inductive Place where
  | block
  | blockValue
  | flow
  deriving DecidableEq

mutual

/-- Reads a node. In a block it may be a block collection, and as the value of a block mapping
also a sequence that is not indented. -/
def readNode : Nat → Place → Reader Node
  | 0, _ => failure
  | steps + 1, place => do
    let first ← Reader.peek
    match first.lexeme with
    | .alias name =>
      let node ← Reader.aliasOf first.line name
      Reader.skip
      return node
    | _ =>
      let props ← readProperties
      let token ← Reader.peek
      let line := props.line?.getD token.line
      let inBlock := place ≠ .flow
      let sequence (items : Reader (List Node)) : Reader Node :=
        let tag := collectionTag props.tag "!!seq"
        Reader.anchored props.anchor tag (return .sequence line tag (← items))
      let mapping (entries : Reader (List (Node × Node))) : Reader Node :=
        let tag := collectionTag props.tag "!!map"
        Reader.anchored props.anchor tag (return .mapping line tag (← entries))
      let leaf (text : String) (plain : Bool) : Reader Node :=
        let tag := scalarTag props.tag plain text
        Reader.anchored props.anchor tag (return .scalar line tag text)
      let absent : Reader Node := if props.line?.isSome then leaf "" true else failure
      match token.lexeme with
      | .blockEntry => if place = .blockValue then sequence (readLooseItems steps) else absent
      | .scalar text plain => Reader.skip; leaf text plain
      | .flowSequenceStart => Reader.skip; sequence (readFlowItems steps true)
      | .flowMappingStart => Reader.skip; mapping (readFlowEntries steps true)
      | .blockSequenceStart =>
        if inBlock then Reader.skip; sequence (readItems steps) else absent
      | .blockMappingStart =>
        if inBlock then Reader.skip; mapping (readEntries steps) else absent
      | _ => absent

/-- Reads a node, or the empty node for what was left out before a lexeme that ends its place. -/
def readOrEmpty : Nat → Place → (ends : Lexeme → Bool) → (line : Nat) → Reader Node
  | 0, _, _, _ => failure
  | steps + 1, place, ends, line => do
    if ends (← Reader.lexeme) then return emptyNode line else readNode steps place

/-- Reads the entries of an indented block sequence. -/
def readItems : Nat → Reader (List Node)
  | 0 => failure
  | steps + 1 => do
    let token ← Reader.peek
    Reader.skip
    match token.lexeme with
    | .blockEntry =>
      let ends (l : Lexeme) := l = .blockEntry || l = .blockEnd
      let item ← readOrEmpty steps .block ends token.line
      return item :: (← readItems steps)
    | .blockEnd => return []
    | _ => failure

/-- Reads the entries of a block sequence that is not indented; it ends before anything else. -/
def readLooseItems : Nat → Reader (List Node)
  | 0 => failure
  | steps + 1 => do
    let token ← Reader.peek
    match token.lexeme with
    | .blockEntry =>
      Reader.skip
      let ends (l : Lexeme) := l = .blockEntry || endsBlockValue l
      let item ← readOrEmpty steps .block ends token.line
      return item :: (← readLooseItems steps)
    | _ => return []

/-- Reads the entries of a block mapping. -/
def readEntries : Nat → Reader (List (Node × Node))
  | 0 => failure
  | steps + 1 => do
    let token ← Reader.peek
    Reader.skip
    match token.lexeme with
    | .key =>
      let key ← readOrEmpty steps .blockValue endsBlockValue token.line
      let token ← Reader.peek
      let value ←
        match token.lexeme with
        | .value => do
          Reader.skip
          readOrEmpty steps .blockValue endsBlockValue token.line
        | _ => pure (emptyNode token.line)
      return (key, value) :: (← readEntries steps)
    | .blockEnd => return []
    | _ => failure

/-- Reads the value of a key in a flow collection that ends with `close`. -/
def readFlowValue : Nat → (close : Lexeme) → Reader Node
  | 0, _ => failure
  | steps + 1, close => do
    if (← Reader.lexeme) = .value then
      Reader.skip
      let ends (l : Lexeme) := l = .flowEntry || l = close
      readOrEmpty steps .flow ends (← Reader.peek).line
    else return emptyNode (← Reader.peek).line

/-- Reads the entries of a flow sequence. A key makes an entry a mapping of its own; where the key
itself is left out, the token after its mark is passed over. -/
def readFlowItems : Nat → (first : Bool) → Reader (List Node)
  | 0, _ => failure
  | steps + 1, first => do
    let next ← Reader.lexeme
    if next ≠ .flowSequenceEnd && !first then
      if next = .flowEntry then Reader.skip else failure
    let token ← Reader.peek
    match token.lexeme with
    | .flowSequenceEnd => Reader.skip; return []
    | .key =>
      Reader.skip
      let ahead ← Reader.peek
      let key ←
        match ahead.lexeme with
        | .value | .flowEntry | .flowSequenceEnd => do
          Reader.skip
          pure (emptyNode ahead.line)
        | _ => readNode steps .flow
      let value ← readFlowValue steps .flowSequenceEnd
      return .mapping token.line "!!map" [(key, value)] :: (← readFlowItems steps false)
    | _ =>
      let item ← readNode steps .flow
      return item :: (← readFlowItems steps false)

/-- Reads the entries of a flow mapping. An entry without a key mark has no value. -/
def readFlowEntries : Nat → (first : Bool) → Reader (List (Node × Node))
  | 0, _ => failure
  | steps + 1, first => do
    let next ← Reader.lexeme
    if next ≠ .flowMappingEnd && !first then
      if next = .flowEntry then Reader.skip else failure
    match ← Reader.lexeme with
    | .flowMappingEnd => Reader.skip; return []
    | .key =>
      Reader.skip
      let ends (l : Lexeme) := l = .value || l = .flowEntry || l = .flowMappingEnd
      let key ← readOrEmpty steps .flow ends (← Reader.peek).line
      let value ← readFlowValue steps .flowMappingEnd
      return (key, value) :: (← readFlowEntries steps false)
    | _ =>
      let key ← readNode steps .flow
      let line := (← Reader.peek).line
      return (key, emptyNode line) :: (← readFlowEntries steps false)

end

/-- Reads the directives before a document: at most one version, which has to be 1.1, and tag
handles, each at most once. -/
def readDirectives : Nat → (version : Bool) → Reader Unit
  | 0, _ => failure
  | steps + 1, version => do
    match ← Reader.lexeme with
    | .versionDirective major minor =>
      if version || major ≠ 1 || minor ≠ 1 then failure
      Reader.skip
      readDirectives steps true
    | .tagDirective handle start =>
      if ((← get).handles.lookup handle).isSome then failure
      modify fun r => { r with handles := r.handles ++ [(handle, start)] }
      Reader.skip
      readDirectives steps version
    | _ => return

/-- The handles that every document has. -/
def standardHandles : List (String × String) := [("!", "!"), ("!!", coreTags)]

/-- Reads the content of a document, and looks at what follows it. -/
def readContent (steps : Nat) : Reader Node := do
  modify fun r => { r with handles := r.handles ++ standardHandles }
  let root ← readNode steps .block
  let _ ← Reader.peek
  return root

/-- Reads the first document, if there is one. -/
def readDocument (steps : Nat) : Reader (Option Node) := do
  let _ ← Reader.peek
  Reader.skip
  match ← Reader.lexeme with
  | .streamEnd => return none
  | .versionDirective .. | .tagDirective .. | .documentStart =>
    readDirectives steps false
    if (← Reader.lexeme) ≠ .documentStart then failure
    Reader.skip
    let token ← Reader.peek
    match token.lexeme with
    | .versionDirective .. | .tagDirective .. | .documentStart | .documentEnd | .streamEnd =>
      return some (emptyNode token.line)
    | _ => return some (← readContent steps)
  | _ => return some (← readContent steps)

/-- What comes of a YAML text: no document at all, or the first one. -/
inductive Stream where
  | empty
  | document (tree : Tree)

/-- Reads the first document of a text. Nothing comes out when it is ill-formed. A character makes
at most four tokens, and a token needs at most three steps. -/
def readStream? (text : String) : Option Stream := do
  let lexer := Lexer.ofText text
  let size := lexer.cursor.size
  let (root, r) ← (readDocument (12 * (size + 4))).run { lexer }
  match root with
  | none => return .empty
  | some root =>
    let collections := r.anchors.filterMap fun (_, a) => a.node?.map (a.number, ·)
    return .document { root, collections, reach := (size + 2) * (size + 2) }

end ApiTypes.Yaml
