import ApiTypes.OrderedMap
import ApiTypes.Yaml.Value

/-!
Schemas of an API description. A schema is a reference, one of the two boolean schemas, or an
object of keywords. Wherever a document may hold null in place of a schema, the model holds `none`.
-/

namespace ApiTypes

open Yaml (Value)

/-- What `items` says: one schema for all elements, or one for each position. -/
inductive Items (α : Type) where
  | single (schema : α)
  | tuple (schemas : List (Option α))

/-- The property that tells the variants of a schema apart, and names for the variants. -/
structure Discriminator where
  propertyName : String := ""
  mapping : Option (OrderedMap String) := none

/-- A node of the schema tree. Lists and maps that are absent differ from empty ones. -/
structure Schema where
  ref : String := ""
  /-- Set for the boolean schemas. -/
  bool : Option Bool := none
  types : Option (List String) := none
  format : String := ""
  title : String := ""
  summary : String := ""
  description : String := ""
  deprecated : Bool := false
  readOnly : Bool := false
  writeOnly : Bool := false
  nullable : Bool := false
  /-- Null also when the keyword is absent; the flag beside each value tells. -/
  default : Value := .null
  hasDefault : Bool := false
  sample : Value := .null
  hasSample : Bool := false
  const : Value := .null
  hasConst : Bool := false
  enum : Option (List Value) := none
  properties : Option (OrderedMap (Option Schema)) := none
  required : Option (List String) := none
  additionalProperties : Option Schema := none
  defs : Option (OrderedMap (Option Schema)) := none
  items : Option (Items Schema) := none
  prefixItems : Option (List (Option Schema)) := none
  minItems : Option Int := none
  maxItems : Option Int := none
  allOf : Option (List (Option Schema)) := none
  oneOf : Option (List (Option Schema)) := none
  anyOf : Option (List (Option Schema)) := none
  discriminator : Option Discriminator := none
  /-- The keys that start with `x-`, without repetition. -/
  extensions : List (String × Value) := []

instance : Inhabited Schema := ⟨{}⟩

/-- The entries of a map that may be absent. -/
def entriesOf {α : Type} (m : Option (OrderedMap α)) : List (String × α) :=
  m.elim [] OrderedMap.toList

theorem nodup_entriesOf {α : Type} (m : Option (OrderedMap α)) :
    ((entriesOf m).map (·.1)).Nodup := by
  cases m with
  | none => exact .nil
  | some m => exact m.nodup_toList

namespace Schema

def isRef (s : Schema) : Bool := s.ref ≠ ""

def isBool (s : Schema) : Bool := s.bool.isSome

def isRequired (s : Schema) (name : String) : Bool := (s.required.getD []).contains name

def hasType (s : Schema) (name : String) : Bool := (s.types.getD []).contains name

/-- The type name, when exactly one is declared. -/
def singleType? (s : Schema) : Option String :=
  match s.types with
  | some [name] => some name
  | _ => none

def extension? (s : Schema) (key : String) : Option Value := s.extensions.lookup key

/-- The schemas of a list, each with its keyword and position. -/
def numbered (keyword : String) (schemas : Option (List (Option Schema))) :
    List (List String × Option Schema) :=
  (schemas.getD []).zipIdx.map fun (s, i) => ([keyword, toString i], s)

/-- The schemas of a map, each with its keyword and name. -/
def keyed (keyword : String) (schemas : Option (OrderedMap (Option Schema))) :
    List (List String × Option Schema) :=
  (entriesOf schemas).map fun (name, s) => ([keyword, name], s)

/-- The schemas below `items`. -/
def itemChildren (items : Option (Items Schema)) : List (List String × Option Schema) :=
  match items with
  | none => []
  | some (.single s) => [(["items"], some s)]
  | some (.tuple schemas) => numbered "items" (some schemas)

/-- The schemas directly below a schema, each with the way to it. -/
def children (s : Schema) : List (List String × Option Schema) :=
  if s.isBool then []
  else
    keyed "properties" s.properties ++
      s.additionalProperties.toList.map (fun t => (["additionalProperties"], some t)) ++
      keyed "$defs" s.defs ++ itemChildren s.items ++ numbered "prefixItems" s.prefixItems ++
      numbered "allOf" s.allOf ++ numbered "oneOf" s.oneOf ++ numbered "anyOf" s.anyOf

theorem sizeOf_lt_of_mem_numbered {keyword : String} {schemas : Option (List (Option Schema))}
    {path : List String} {child : Schema}
    (h : (path, some child) ∈ numbered keyword schemas) : sizeOf child < sizeOf schemas := by
  cases schemas with
  | none => cases h
  | some list =>
    simp only [numbered, Option.getD_some, List.mem_map] at h
    obtain ⟨⟨entry, index⟩, member, equal⟩ := h
    have smaller := List.sizeOf_lt_of_mem (List.fst_mem_of_mem_zipIdx member)
    simp only [Prod.mk.injEq] at equal
    obtain ⟨_, rfl⟩ := equal
    simp only [Option.some.sizeOf_spec] at smaller ⊢
    omega

theorem sizeOf_lt_of_mem_keyed {keyword : String} {schemas : Option (OrderedMap (Option Schema))}
    {path : List String} {child : Schema}
    (h : (path, some child) ∈ keyed keyword schemas) : sizeOf child < sizeOf schemas := by
  cases schemas with
  | none => cases h
  | some m =>
    simp only [keyed, entriesOf, Option.elim_some, OrderedMap.toList, List.mem_map] at h
    obtain ⟨⟨name, entry⟩, member, equal⟩ := h
    have smaller := Entries.sizeOf_lt_of_mem member
    simp only [Prod.mk.injEq] at equal
    obtain ⟨_, rfl⟩ := equal
    cases m
    simp only [Option.some.sizeOf_spec, OrderedMap.mk.sizeOf_spec] at smaller ⊢
    omega

theorem sizeOf_lt_of_mem_itemChildren {items : Option (Items Schema)} {path : List String}
    {child : Schema} (h : (path, some child) ∈ itemChildren items) :
    sizeOf child < sizeOf items := by
  match items, h with
  | some (.single s), h =>
    simp only [itemChildren, List.mem_singleton, Prod.mk.injEq, Option.some.injEq] at h
    obtain ⟨_, rfl⟩ := h
    simp only [Option.some.sizeOf_spec, Items.single.sizeOf_spec]
    omega
  | some (.tuple schemas), h =>
    have smaller := sizeOf_lt_of_mem_numbered h
    simp only [Option.some.sizeOf_spec, Items.tuple.sizeOf_spec] at smaller ⊢
    omega

/-- A schema is larger than the parts that hold the schemas below it. -/
theorem sizeOf_parts (s : Schema) :
    sizeOf s.properties < sizeOf s ∧ sizeOf s.additionalProperties < sizeOf s ∧
      sizeOf s.defs < sizeOf s ∧ sizeOf s.items < sizeOf s ∧ sizeOf s.prefixItems < sizeOf s ∧
      sizeOf s.allOf < sizeOf s ∧ sizeOf s.oneOf < sizeOf s ∧ sizeOf s.anyOf < sizeOf s := by
  cases s
  simp only [Schema.mk.sizeOf_spec]
  omega

/-- A schema is larger than each schema directly below it, so walks down the tree end. -/
theorem sizeOf_lt_of_mem_children {s child : Schema} {path : List String}
    (h : (path, some child) ∈ s.children) : sizeOf child < sizeOf s := by
  have parts := sizeOf_parts s
  unfold children at h
  split at h
  · cases h
  · simp only [List.mem_append] at h
    rcases h with ((((((h | h) | h) | h) | h) | h) | h) | h
    case inl.inl.inl.inl.inl.inl.inr =>
      simp only [List.mem_map, Option.mem_toList, Prod.mk.injEq, Option.some.injEq] at h
      obtain ⟨t, equal, _, rfl⟩ := h
      rw [equal] at parts
      simp only [Option.some.sizeOf_spec] at parts
      omega
    all_goals first
      | exact Nat.lt_of_lt_of_le (sizeOf_lt_of_mem_keyed h) (by omega)
      | exact Nat.lt_of_lt_of_le (sizeOf_lt_of_mem_itemChildren h) (by omega)
      | exact Nat.lt_of_lt_of_le (sizeOf_lt_of_mem_numbered h) (by omega)

/-- The schema and all schemas below it, each before those nested in it. References are visited
and not followed. -/
def walk (s : Schema) : List Schema :=
  s :: s.children.attach.flatMap fun ⟨(_, child), member⟩ =>
    match child, member with
    | none, _ => []
    | some child, _ => child.walk
termination_by sizeOf s
decreasing_by exact sizeOf_lt_of_mem_children (by assumption)

end Schema

end ApiTypes
