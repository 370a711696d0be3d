import ApiTypes.Proofs.Composition
import ApiTypes.Proofs.Typing.Regime

/-!
Arrays of one schema. An array is written as an array of the type of its items, unless that type is
a tuple: then the tuple stands for the array itself. A type is a tuple only if the schema of the
items, or one below it, lists items by position, lists values that are lists, or refers to another
document.
-/

namespace ApiTypes

namespace TypeExpr

def isTuple : TypeExpr → Bool
  | .tuple _ => true
  | _ => false

/-- An array of some items, read-only on demand. -/
def arrayOf (item : TypeExpr) (immutable : Bool) : TypeExpr :=
  if immutable then .readonly (.array item) else .array item

/-- A tuple loses the array around it, and no other type does. -/
theorem plainArray_eq_arrayOf_iff (item : TypeExpr) (immutable : Bool) :
    plainArray item immutable = arrayOf item immutable ↔ item.isTuple = false := by
  cases item <;> cases immutable <;> simp [plainArray, arrayOf, isTuple]

/-- No tuple, and not joined from one. -/
def Tupleless (t : TypeExpr) : Prop := ∀ elems, ¬ Inside (.tuple elems) t

theorem Tupleless.isTuple {t : TypeExpr} (h : t.Tupleless) : t.isTuple = false := by
  cases t with
  | tuple elems => exact absurd .refl (h elems)
  | _ => rfl

theorem tupleless_joinUnion {flat : List TypeExpr} (h : ∀ t ∈ flat, t.Tupleless) :
    (joinUnion flat).Tupleless := by
  have hkept : ∀ t ∈ dedupe [] flat, t.Tupleless := fun t ht => h t ((dedupe_sublist _ _).subset ht)
  unfold joinUnion
  split
  · nofun
  · rename_i t hsingle
    exact hkept t (hsingle ▸ List.mem_singleton_self t)
  · rintro elems (_ | ⟨hmem, hinside⟩)
    exact hkept _ hmem elems hinside

theorem tupleless_joinIntersection {flat : List TypeExpr} (h : ∀ t ∈ flat, t.Tupleless) :
    (joinIntersection flat).Tupleless := by
  have hkept : ∀ t ∈ dedupe [] flat, t.Tupleless := fun t ht => h t ((dedupe_sublist _ _).subset ht)
  unfold joinIntersection
  split
  · nofun
  · rename_i t hsingle
    exact hkept t (hsingle ▸ List.mem_singleton_self t)
  · rintro elems (_ | _ | ⟨hmem, hinside⟩)
    exact hkept _ hmem elems hinside

theorem tupleless_joinable : Joinable Tupleless where
  keyword _ := nofun
  emptyRecord := nofun
  unionOf types h := by
    apply tupleless_joinUnion
    intro part hpart elems hinside
    obtain ⟨t, ht, hmem⟩ := List.mem_flatMap.mp hpart
    cases t with
    | union parts => exact h _ ht elems (.union hmem hinside)
    | _ => exact h _ ht elems (List.mem_singleton.mp hmem ▸ hinside)
  intersectionOf types h := by
    apply tupleless_joinIntersection
    intro part hpart elems hinside
    obtain ⟨t, ht, hmem⟩ := List.mem_flatMap.mp hpart
    cases t with
    | intersection parts => exact h _ ht elems (.intersection hmem hinside)
    | _ => exact h _ ht elems (List.mem_singleton.mp hmem ▸ hinside)
  without _ _ _ := nofun

theorem tupleless_plainArray {item : TypeExpr} (h : item.Tupleless) (immutable : Bool) :
    (plainArray item immutable).Tupleless := by
  rw [(plainArray_eq_arrayOf_iff item immutable).mpr h.isTuple]
  cases immutable <;> nofun

theorem tupleless_named (name : String) : (named name).Tupleless := nofun

theorem tupleless_toType (ref : String) : (Reference.toType ref).Tupleless :=
  Reference.toType_induction (tupleless_joinable.keyword _) tupleless_named (fun _ _ _ => nofun) ref

theorem tupleless_ofValue {v : Yaml.Value} (h : ∀ values, v ≠ .list values) :
    (TypeExpr.ofValue v).Tupleless := by
  cases v with
  | list values => exact absurd rfl (h values)
  | dict entries =>
    rw [ofValue]
    nofun
  | _ => nofun

end TypeExpr

namespace Schema

/-- Nothing in the schema itself calls for a tuple: no items by position, no list among its values,
and no reference into another document, whose target may. -/
structure Positionless (s : Schema) : Prop where
  prefixItems : s.prefixItems = none
  items : ∀ schemas, s.items ≠ some (.tuple schemas)
  const : ∀ values, s.const ≠ .list values
  enum : ∀ values, .list values ∉ s.enum.getD []
  ref : Reference.isExternal s.ref = false

/-- Nor does anything in the schemas below it. -/
def Tupleless (s : Schema) : Prop := ∀ t ∈ s.walk, t.Positionless

theorem Tupleless.self {s : Schema} (h : s.Tupleless) : s.Positionless := AllBelow.self h

end Schema

namespace Typing

open TypeExpr (tupleless_joinable)

variable {σ : Setting} {body : SchemaBody}

/-- The types that `body` gives to schemas without tuples are none. -/
def Straight (σ : Setting) (body : SchemaBody) : Prop :=
  ∀ s place, (∀ x ∈ s, x.Tupleless) → Gives σ (body s place) TypeExpr.Tupleless

theorem Straight.typeWith (hσ : HookFree σ) (hbody : Straight σ body) (s : Option Schema)
    (place : String) (hs : ∀ x ∈ s, x.Tupleless) :
    Gives σ (typeWith body s place) TypeExpr.Tupleless :=
  .congr (exec_typeWith hσ body s place) (hbody s place hs)

/-- Objects are no tuples, whatever is in them. -/
theorem regime_tupleless (hlength : σ.options.arrayLength = false) :
    Regime σ Schema.Tupleless TypeExpr.Tupleless fun _ => True where
  toFamily := family_allBelow
    (fun _ h _ => ⟨h.prefixItems, h.items, h.const, h.enum, h.ref⟩)
    (fun _ h _ => ⟨h.prefixItems, h.items, h.const, h.enum, h.ref⟩) fun _ h => h.ref
  joinable := tupleless_joinable
  named := TypeExpr.tupleless_named
  toType := TypeExpr.tupleless_toType
  requiring _ _ := nofun
  value hs hv := by
    apply TypeExpr.tupleless_ofValue
    rintro values rfl
    exact hs.self.enum values hv
  constant hs _ := TypeExpr.tupleless_ofValue hs.self.const
  array := by
    intro s item t _ hitem ht
    unfold arrayType at ht
    rw [hlength] at ht
    cases ht
    exact TypeExpr.tupleless_plainArray hitem _
  positional hs hlisted := by
    rcases hlisted with hlisted | hlisted
    · rw [hs.self.prefixItems] at hlisted
      cases hlisted
    · exact absurd hlisted (hs.self.items _)
  object _ := nofun
  tag _ := trivial
  property _ := trivial
  definitions _ _ _ := trivial
  index _ := trivial

/-- The type of a schema without tuples is none. -/
theorem schemaBody_tupleless (hσ : HookFree σ) (hlength : σ.options.arrayLength = false)
    (steps : Nat) : Straight σ (schemaBody steps) :=
  Regime.schemaBody hσ (regime_tupleless hlength) steps

/-- How an array of one schema is written that has items of the type `t`. -/
structure WrittenAround (item : Schema) (t : TypeExpr) (immutable : Bool) (core : TypeExpr) :
    Prop where
  /-- It is an array of that type, exactly if the type is no tuple. -/
  array : core = .arrayOf t immutable ↔ t.isTuple = false
  /-- A tuple is the array itself. -/
  tuple : t.isTuple = true → core = if immutable then .readonly t else t
  /-- Without tuples in the schema of the items there is none. -/
  tupleless : item.Tupleless → core = .arrayOf t immutable

/-- An array of one schema, without bounds on its length, is made from the type of its items in
place, and fails with it. -/
theorem exec_coreType?_array (hlength : σ.options.arrayLength = false) {s item : Schema}
    (htypes : s.types = some ["array"]) (hpositional : s.prefixItems = none)
    (hitems : s.items = some (.single item)) (body : SchemaBody) (place : String) (p : Progress) :
    exec (coreType? body s place) σ p =
      exec ((fun t => some (plainArray t σ.options.immutable)) <$>
        typeWith body (some item) (Reference.join place ["items"])) σ p := by
  unfold coreType? itemType
  rw [htypes, hpositional, hitems]
  simp only [Option.getD_some]
  rw [exec_bind, exec_map]
  cases exec (typeWith body (some item) (Reference.join place ["items"])) σ p with
  | mk result q =>
    cases result with
    | error e => rfl
    | ok t =>
      change exec (some <$> ofExcept (arrayType s t σ.options)) σ q = _
      unfold arrayType
      rw [hlength]
      rfl

/-- Whatever the items are, the array around them is written unless their type is a tuple. -/
theorem coreType?_writtenAround (hσ : HookFree σ) (hlength : σ.options.arrayLength = false)
    {s item : Schema} (htypes : s.types = some ["array"]) (hpositional : s.prefixItems = none)
    (hitems : s.items = some (.single item)) (steps : Nat) (place : String) {p q : Progress}
    {t : TypeExpr}
    (hitem : exec (typeWith (schemaBody steps) (some item) (Reference.join place ["items"])) σ p =
      (.ok t, q)) :
    ∃ core, exec (coreType? (schemaBody steps) s place) σ p = (.ok (some core), q) ∧
      WrittenAround item t σ.options.immutable core := by
  refine ⟨plainArray t σ.options.immutable, ?_, ?_⟩
  · rw [exec_coreType?_array hlength htypes hpositional hitems, exec_map, hitem]
  · have harray := TypeExpr.plainArray_eq_arrayOf_iff t σ.options.immutable
    refine ⟨harray, fun htuple => ?_, fun htupleless => harray.mpr ?_⟩
    · cases t with
      | tuple elems => rfl
      | _ => cases htuple
    · have hgives := (schemaBody_tupleless hσ hlength steps).typeWith hσ (some item)
        (Reference.join place ["items"]) (by rintro x ⟨⟩; exact htupleless)
      exact (hgives.result p t q hitem).isTuple

/-- Arrays of a schema. -/
def listOf (item : Schema) : Schema := { types := some ["array"], items := some (.single item) }

/-- A text and a number, by position. -/
def pairSchema : Schema where
  types := some ["array"]
  prefixItems := some [some { types := some ["string"] }, some { types := some ["number"] }]

/-- Lists of lists of texts, none of which may be changed. -/
theorem coreType?_writtenAround_texts :
    exec (typeWith (schemaBody 3) (some (listOf { types := some ["string"] })) "#/items")
      { options := { immutable := true } } {} = (.ok (.readonly (.array .string)), {}) ∧
    ∃ core, exec (coreType? (schemaBody 3) (listOf (listOf { types := some ["string"] })) "#")
        { options := { immutable := true } } {} = (.ok (some core), {}) ∧
      WrittenAround (listOf { types := some ["string"] }) (.readonly (.array .string)) true core :=
  ⟨rfl, coreType?_writtenAround ⟨rfl, rfl⟩ rfl rfl rfl rfl 3 "#" rfl⟩

/-- A list of pairs is written as a single pair. -/
theorem listOf_pair_is_pair :
    exec (typeWith (schemaBody 2) (some pairSchema) "#/items") {} {} =
      (.ok (.tuple [.string, .number]), {}) ∧
    exec (coreType? (schemaBody 2) (listOf pairSchema) "#") {} {} =
      (.ok (some (.tuple [.string, .number])), {}) ∧
    TypeExpr.tuple [.string, .number] ≠ .arrayOf (.tuple [.string, .number]) false :=
  ⟨rfl, rfl, nofun⟩

end Typing

end ApiTypes
