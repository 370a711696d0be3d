import ApiTypes.Resolver

/-!
The roles of schemas in polymorphic hierarchies. A root declares a discriminator; its variants carry
a literal tag in the discriminator property. Members of a root's `oneOf` and `anyOf` are variants,
and so is every schema that extends a root or a variant through `allOf`.

Variants of the second kind are found in rounds over all schemas until a round finds none. Every
round but the last finds a schema that was no variant before, so there are no more rounds than
schemas.
-/

namespace ApiTypes

/-- How a variant is tagged. -/
structure Variant where
  propertyName : String
  /-- The tags; more than one only if several names are mapped to the variant. -/
  values : List String
  /-- The pointer of the schema that declares the discriminator. -/
  root : String
  /-- Whether the tags come from the mapping of the root. -/
  mapped : Bool
  deriving DecidableEq, Repr

/-- Roots and variants by their pointers. -/
structure Discriminators where
  roots : List (String × Discriminator) := []
  variants : List (String × Variant) := []

namespace Discriminators

open Resolver (Resolving)

/-- The discriminator declared by the schema at a place. -/
def root? (d : Discriminators) (place : String) : Option Discriminator :=
  d.roots.lookup (Reference.canonical place)

/-- The tags of the schema at a place. -/
def variant? (d : Discriminators) (place : String) : Option Variant :=
  d.variants.lookup (Reference.canonical place)

/-- The discriminator property that the schema at a place contributes to one that extends it, or the
empty text. -/
def propertyAt (d : Discriminators) (place : String) : String :=
  match d.root? place with
  | some root => root.propertyName
  | none => (d.variant? place).elim "" (·.propertyName)

/-- A mapping may name a schema by its bare name. -/
def mappingRef (ref : String) : String :=
  if ref.toList.contains '#' || ref.toList.contains '/' then ref
  else Reference.join "#" ["components", "schemas", ref]

/-- The names that a mapping gives to the schema at `target`. -/
def mappedNames (target : String) : List (String × String) → Resolving (List String)
  | [] => pure []
  | (name, ref) :: rest => do
    let place ← Resolver.target (mappingRef ref)
    let names ← mappedNames target rest
    return if place = target then name :: names else names

/-- The tags of a variant: the names mapped to it, or else the last token of its pointer. -/
def tag (root : String) (d : Discriminator) (target : String) : Resolving Variant := do
  let names ← mappedNames target (entriesOf d.mapping)
  if names.isEmpty then return ⟨d.propertyName, [Reference.lastToken target], root, false⟩
  return ⟨d.propertyName, names, root, true⟩

/-- The discriminator of a schema, if it has a property name. -/
def declared? (s : Schema) : Option Discriminator := s.discriminator.filter (·.propertyName ≠ "")

/-- Tags a referenced alternative of a root, unless it has been tagged before. -/
def addAlternative (root : String) (d : Discriminator) (found : Discriminators)
    (member : Option Schema) : Resolving Discriminators :=
  match member with
  | some s =>
    if s.isRef then do
      let target ← Resolver.target s.ref
      if (found.variants.lookup target).isSome then return found
      return { found with variants := (target, ← tag root d target) :: found.variants }
    else pure found
  | none => pure found

/-- Records a schema as a root, if it is one, and tags its alternatives. -/
def addRoot (found : Discriminators) (entry : String × Schema) : Resolving Discriminators := do
  let (place, s) := entry
  if s.isRef then return found
  match declared? s with
  | none => return found
  | some d =>
    (s.oneOf.getD [] ++ s.anyOf.getD []).foldlM (addAlternative place d)
      { found with roots := (place, d) :: found.roots }

/-- The root that a schema extends, and its discriminator. The first member of `allOf` that leads to
one counts; an inline member with a discriminator has no pointer of its own. -/
def extendedRoot? (found : Discriminators) :
    List (Option Schema) → Resolving (Option (String × Discriminator))
  | [] => pure none
  | none :: rest => extendedRoot? found rest
  | some member :: rest => do
    if member.isRef then
      let target ← Resolver.target member.ref
      match found.roots.lookup target with
      | some d => return some (target, d)
      | none =>
        match found.variants.lookup target with
        | some v =>
          match found.roots.lookup v.root with
          | some d => return some (v.root, d)
          | none => extendedRoot? found rest
        | none => extendedRoot? found rest
    else
      match declared? member with
      | some d => return some ("", d)
      | none => extendedRoot? found rest

/-- Tags a schema that extends a root or a variant. -/
def addExtension (found : Discriminators) (entry : String × Schema) :
    Resolving Discriminators := do
  let (place, s) := entry
  if (found.variants.lookup place).isSome || s.isRef then return found
  match ← extendedRoot? found (s.allOf.getD []) with
  | none => return found
  | some (root, d) =>
    return { found with variants := (place, ← tag root d place) :: found.variants }

/-- Rounds over all schemas until one finds no further variant. -/
def extend (schemas : List (String × Schema)) : Nat → Discriminators → Resolving Discriminators
  | 0, found => pure found
  | rounds + 1, found => do
    let more ← schemas.foldlM addExtension found
    if more.variants.length = found.variants.length then return more
    extend schemas rounds more

/-- Finds all roots and variants of the document at hand. -/
def scan : Resolving Discriminators := do
  let schemas := (← get).schemas
  let roots ← schemas.foldlM addRoot {}
  extend schemas (schemas.length + 1) roots

end Discriminators

end ApiTypes
