import ApiTypes.Document.Basic
import ApiTypes.Pattern.Parse
import ApiTypes.Text.Diagnostic

/-!
Choosing operations by their tags.
-/

namespace ApiTypes

/-- Conditions on tags: one of `including` must hold for some tag, unless there are none, and none
of `excluding` may hold for any. -/
structure TagFilter where
  including : List (String → Bool)
  excluding : List (String → Bool)

/-- A pattern of a filter that cannot be read, and the list in which it stands. -/
structure TagFilterError where
  list : String
  pattern : String
  cause : PatternError

def TagFilterError.message (e : TagFilterError) : String :=
  "invalid " ++ e.list ++ " pattern " ++ Text.quoteDiagnostic e.pattern ++ ": " ++ e.cause.message

namespace TagFilter

/-- Reads the patterns of a list. -/
def conditions (list : String) (patterns : List String) :
    Except TagFilterError (List (String → Bool)) :=
  patterns.mapM fun pattern =>
    match Pattern.parse pattern with
    | .ok p => .ok p.occursIn
    | .error cause => .error ⟨list, pattern, cause⟩

/-- The filter for two lists of patterns. -/
def ofPatterns (including excluding : List String) : Except TagFilterError TagFilter := do
  return ⟨← conditions "includeTags" including, ← conditions "excludeTags" excluding⟩

/-- Whether an operation with the given tags is kept. -/
def keeps (f : TagFilter) (tags : List String) : Bool :=
  (f.including.isEmpty || tags.any fun tag => f.including.any (· tag)) &&
    !tags.any fun tag => f.excluding.any (· tag)

def keepsOperation (f : TagFilter) (o : Operation) : Bool := f.keeps (o.tags.getD [])

/-- A path item with only the operations that are kept. -/
def trim (f : TagFilter) (item : PathItem) : PathItem :=
  { item with operation? := fun method => (item.operation? method).filter f.keepsOperation }

/-- A path item with only the operations that are kept, if there are any. Path items that are null
or references stay as they are. -/
def applyToItem (f : TagFilter) : Option PathItem → Option (Option PathItem)
  | none => some none
  | some item =>
    if item.ref ≠ "" then some (some item)
    else if (f.trim item).inOrder.isEmpty then none
    else some (some (f.trim item))

def applyToItems (f : TagFilter) (items : PathItems) : PathItems :=
  items.filterMap fun _ item => f.applyToItem item

/-- A document with only the operations that are kept; path items that lose all of theirs go too.
Without conditions nothing is changed. -/
def apply (f : TagFilter) (doc : Document) : Document :=
  if f.including.isEmpty && f.excluding.isEmpty then doc
  else
    { doc with
      paths := doc.paths.map f.applyToItems
      webhooks := doc.webhooks.map f.applyToItems }

end TagFilter

end ApiTypes
