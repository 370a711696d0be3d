import ApiTypes.Proofs.TupleLengths
import ApiTypes.Proofs.Typing.Regime

/-!
Types that are read-only throughout. With the option for it, whatever is made of a schema is, but
for three things: the member that holds the definitions of a schema, the types of values that are
lists or maps, and a tuple of items by position that is repeated because bounds on their number are
expanded.
-/

namespace ApiTypes

/-- What may stay writable. -/
structure Writable where
  /-- The member that holds the definitions of a schema. -/
  definitions : Prop
  /-- What the types of values are put together from. -/
  values : Prop
  /-- A tuple that is repeated as an element of another one. -/
  elements : Prop

/-- Nothing may. -/
def Writable.nothing : Writable := ⟨False, False, False⟩

mutual

/-- Every member of an object in the type is read-only, and so are all arrays and tuples in it, but
for the open ends of tuples and for what may stay writable. -/
inductive TypeExpr.Frozen (W : Writable) : TypeExpr → Prop where
  | unstated : TypeExpr.Frozen W .unstated
  | keyword (name : String) : TypeExpr.Frozen W (.keyword name)
  | literal (value : Literal) : TypeExpr.Frozen W (.literal value)
  | ref {name : String} {args : List TypeExpr} : (∀ t ∈ args, t.Frozen W) →
    TypeExpr.Frozen W (.ref name args)
  | access {object index : TypeExpr} : object.Frozen W → index.Frozen W →
    TypeExpr.Frozen W (.access object index)
  | union {types : List TypeExpr} : (∀ t ∈ types, t.Frozen W) → TypeExpr.Frozen W (.union types)
  | intersection {types : List TypeExpr} : (∀ t ∈ types, t.Frozen W) →
    TypeExpr.Frozen W (.intersection types)
  | array {elem : TypeExpr} : elem.Frozen W → TypeExpr.Frozen W (.readonly (.array elem))
  | tuple {elems : List TypeExpr} : (∀ t ∈ elems, t.FrozenElement W) →
    TypeExpr.Frozen W (.readonly (.tuple elems))
  | object {members : List Member} : (∀ m ∈ members, m.Frozen W) →
    TypeExpr.Frozen W (.object members)
  | template {head : String} {spans : List TemplateSpan} :
    (∀ t tail, .mk t tail ∈ spans → t.Frozen W) → TypeExpr.Frozen W (.template head spans)
  | value {t : TypeExpr} : W.values → (∃ v, t = .ofValue v) → TypeExpr.Frozen W t

/-- The same of an element of a tuple, which may be an open end. -/
inductive TypeExpr.FrozenElement (W : Writable) : TypeExpr → Prop where
  | single {t : TypeExpr} : t.Frozen W → TypeExpr.FrozenElement W t
  | rest {t : TypeExpr} : t.FrozenElement W → TypeExpr.FrozenElement W (.spread (.array t))
  | tuple {elems : List TypeExpr} : W.elements → (∀ t ∈ elems, t.Frozen W) →
    TypeExpr.FrozenElement W (.tuple elems)

/-- The same of a member. -/
inductive Member.Frozen (W : Writable) : Member → Prop where
  | property {name : String} {isOptional : Bool} {t : TypeExpr} {doc : List String} :
    t.Frozen W → Member.Frozen W (.property name isOptional true t doc)
  | indexSignature {param : String} {key t : TypeExpr} {doc : List String} :
    key.Frozen W → t.Frozen W → Member.Frozen W (.indexSignature param key t true doc)
  | definitions {t : TypeExpr} : W.definitions → t.Frozen W → Member.Frozen W (.plain "$defs" t)

end

namespace TypeExpr

variable {W : Writable} {t part item : TypeExpr}

/-- The type of a value is no union and no intersection. -/
theorem ofValue_ne (v : Yaml.Value) (types : List TypeExpr) :
    ofValue v ≠ .union types ∧ ofValue v ≠ .intersection types := by
  cases v <;> simp [ofValue]

theorem Frozen.mem_unionMembers (h : t.Frozen W) (hpart : part ∈ t.unionMembers) :
    part.Frozen W := by
  cases t with
  | union types =>
    cases h with
    | union hparts => exact hparts part hpart
    | value _ hvalue =>
      obtain ⟨v, hv⟩ := hvalue
      exact absurd hv.symm (ofValue_ne v types).1
  | _ => exact List.mem_singleton.mp hpart ▸ h

theorem Frozen.mem_intersectionMembers (h : t.Frozen W) (hpart : part ∈ t.intersectionMembers) :
    part.Frozen W := by
  cases t with
  | intersection types =>
    cases h with
    | intersection hparts => exact hparts part hpart
    | value _ hvalue =>
      obtain ⟨v, hv⟩ := hvalue
      exact absurd hv.symm (ofValue_ne v types).2
  | _ => exact List.mem_singleton.mp hpart ▸ h

theorem frozen_joinUnion {flat : List TypeExpr} (h : ∀ t ∈ flat, t.Frozen W) :
    (joinUnion flat).Frozen W := by
  have hkept (t) (ht : t ∈ dedupe [] flat) := h t ((dedupe_sublist [] flat).subset ht)
  unfold joinUnion
  split
  · exact .keyword _
  · rename_i single hsingle
    exact hkept single (by simp [hsingle])
  · exact .union hkept

theorem frozen_joinIntersection {flat : List TypeExpr} (h : ∀ t ∈ flat, t.Frozen W) :
    (joinIntersection flat).Frozen W := by
  have hkept (t) (ht : t ∈ dedupe [] flat) := h t ((dedupe_sublist [] flat).subset ht)
  unfold joinIntersection
  split
  · exact .keyword _
  · rename_i single hsingle
    exact hkept single (by simp [hsingle])
  · exact .intersection hkept

theorem frozen_unionOf (types : List TypeExpr) (h : ∀ t ∈ types, t.Frozen W) :
    (unionOf types).Frozen W := by
  refine frozen_joinUnion fun part hpart => ?_
  obtain ⟨t, ht, hmem⟩ := List.mem_flatMap.mp hpart
  exact (h t ht).mem_unionMembers hmem

theorem frozen_ofTexts (texts : List String) : (unionOf (texts.map ofText)).Frozen W := by
  refine frozen_unionOf _ fun t ht => ?_
  obtain ⟨text, -, rfl⟩ := List.mem_map.mp ht
  exact .literal _

theorem frozen_joinable (W : Writable) : Joinable (Frozen W) where
  keyword := .keyword
  emptyRecord := .ref (by simp [string, never, Frozen.keyword])
  unionOf := frozen_unionOf
  intersectionOf types h := by
    refine frozen_joinIntersection fun part hpart => ?_
    obtain ⟨t, ht, hmem⟩ := List.mem_flatMap.mp hpart
    exact (h t ht).mem_intersectionMembers hmem
  without t keys h := .ref (by simp [h, frozen_ofTexts])

theorem frozen_toType (ref : String) : (Reference.toType ref).Frozen W :=
  Reference.toType_induction (.keyword _) (fun _ => .ref (List.forall_mem_nil _))
    (fun _ _ h => .access h (.literal _)) ref

/-- A tuple on its own is the type of a list of values. -/
theorem Frozen.elements {elems : List TypeExpr} (h : (TypeExpr.tuple elems).Frozen W) :
    ∀ t ∈ elems, t.Frozen W := by
  cases h with
  | value hvalues hvalue =>
    obtain ⟨v, hv⟩ := hvalue
    have hmem (values : List Yaml.Value) : ∀ t ∈ ofValues values, t.Frozen W := by
      induction values with
      | nil => exact List.forall_mem_nil _
      | cons first rest ih =>
        rw [ofValues]
        exact List.forall_mem_cons.mpr ⟨.value hvalues ⟨first, rfl⟩, ih⟩
    cases v with
    | list items =>
      rw [ofValue, tuple.injEq] at hv
      exact hv ▸ hmem items
    | _ =>
      rw [ofValue] at hv
      all_goals cases hv

/-- Bounds on the number of items are expanded into tuples of items that are read-only. -/
theorem frozen_expanded {s : Schema} {item t : TypeExpr} {options : Options}
    (himmutable : options.immutable = true) (hitem : item.FrozenElement W)
    (hplain : (plainArray item true).Frozen W) (h : arrayType s item options = .ok t) :
    t.Frozen W := by
  have hrepeated (n : Nat) : ∀ elem ∈ List.replicate n item, elem.FrozenElement W := by
    intro elem helem
    rw [List.eq_of_mem_replicate helem]
    exact hitem
  have hform := arrayType_form h
  rw [himmutable] at hform
  cases hform with
  | plain => exact hplain
  | tuple n => exact .tuple (hrepeated n)
  | openTuple n =>
    refine .tuple fun elem helem => ?_
    rcases List.mem_append.mp helem with hmem | hend
    · exact hrepeated n elem hmem
    · rw [List.mem_singleton.mp hend]
      exact .rest hitem
  | union lengths =>
    refine frozen_unionOf _ fun u hu => ?_
    obtain ⟨n, -, rfl⟩ := List.mem_map.mp hu
    exact .tuple (hrepeated _)

theorem frozen_arrayType {s : Schema} {item t : TypeExpr} {options : Options}
    (himmutable : options.immutable = true) (hitem : item.Frozen W)
    (h : arrayType s item options = .ok t) : t.Frozen W := by
  refine frozen_expanded himmutable (.single hitem) ?_ h
  cases item with
  | tuple elems => exact .tuple fun elem helem => .single (hitem.elements elem helem)
  | _ => exact .array hitem

/-- Items by position make one tuple, which is repeated if bounds are expanded. -/
theorem frozen_positional {s : Schema} {types : List TypeExpr} {t : TypeExpr} {options : Options}
    (himmutable : options.immutable = true) (htypes : ∀ u ∈ types, u.Frozen W)
    (hrepeated : options.arrayLength = true → s.IsExpanded → W.elements)
    (h : arrayType s (.tuple types) options = .ok t) : t.Frozen W := by
  have hplain : (plainArray (.tuple types) true).Frozen W :=
    .tuple fun elem helem => .single (htypes elem helem)
  by_cases hexpanded : options.arrayLength = true ∧ s.IsExpanded
  · have helements := hrepeated hexpanded.1 hexpanded.2
    exact frozen_expanded himmutable (.tuple helements htypes) hplain h
  · have hwritten : t = plainArray (.tuple types) true := by
      unfold arrayType at h
      rw [himmutable] at h
      cases hlength : options.arrayLength with
      | false =>
        rw [hlength] at h
        cases h
        rfl
      | true =>
        rw [hlength, fixedLength_of_not_expanded fun hbounds => hexpanded ⟨hlength, hbounds⟩] at h
        cases h
        rfl
    exact hwritten ▸ hplain

end TypeExpr

/-- A value whose type has no parts of its own. -/
def Yaml.Value.isFlat : Yaml.Value → Bool
  | .list _ | .dict (_ :: _) => false
  | _ => true

theorem TypeExpr.frozen_ofValue {W : Writable} {v : Yaml.Value} (h : v.isFlat = false → W.values) :
    (ofValue v).Frozen W := by
  cases hflat : v.isFlat with
  | false => exact .value (h hflat) ⟨v, rfl⟩
  | true =>
    cases v with
    | list items => cases hflat
    | dict entries =>
      cases entries with
      | nil =>
        rw [ofValue, ofEntries, List.mergeSort_nil]
        exact .object (List.forall_mem_nil _)
      | cons first rest => cases hflat
    | _ => exact .literal _

namespace Typing

variable {σ : Setting} {W : Writable} {In : Schema → Prop}

/-- What a schema leaves writable may stay so. -/
structure Leaves (σ : Setting) (W : Writable) (s : Schema) : Prop where
  definitions : entriesOf s.defs ≠ [] → W.definitions
  value : ∀ v ∈ s.enum.getD [], v.isFlat = false → W.values
  constant : s.hasConst = true → s.const.isFlat = false → W.values
  elements : (∃ schemas, s.prefixItems = some schemas ∨ s.items = some (.tuple schemas)) →
    σ.options.arrayLength = true → s.IsExpanded → W.elements

theorem regime_frozen (himmutable : σ.options.immutable = true) (hfamily : Family σ In)
    (hleaves : ∀ s, In s → Leaves σ W s) :
    Regime σ In (TypeExpr.Frozen W) (Member.Frozen W) where
  toFamily := hfamily
  joinable := TypeExpr.frozen_joinable W
  named _ := .ref (List.forall_mem_nil _)
  toType := TypeExpr.frozen_toType
  requiring keys ht := .ref (by simp [ht, TypeExpr.frozen_ofTexts])
  value hs hv := TypeExpr.frozen_ofValue ((hleaves _ hs).value _ hv)
  constant hs hconst := TypeExpr.frozen_ofValue ((hleaves _ hs).constant hconst)
  array _ hitem ht := TypeExpr.frozen_arrayType himmutable hitem ht
  positional hs hlisted htypes ht :=
    TypeExpr.frozen_positional himmutable htypes ((hleaves _ hs).elements ⟨_, hlisted⟩) ht
  object := .object
  tag v := by
    rw [tagMember, himmutable]
    exact .property (TypeExpr.frozen_ofTexts _)
  property ht := by
    rw [himmutable, Bool.true_or]
    exact .property ht
  definitions hs hdefs hmembers :=
    .definitions ((hleaves _ hs).definitions hdefs) (.object hmembers)
  index ht := by
    rw [himmutable]
    exact .indexSignature (.keyword _) ht

/-- Without hooks and with the option for it, the type of a schema is read-only throughout, but for
what the schema or those that are met on the way leave writable: definitions, values that are lists
or maps, and tuples that are repeated. -/
theorem schemaType_frozen (hσ : HookFree σ) (himmutable : σ.options.immutable = true)
    (hfamily : Family σ In) (hleaves : ∀ s, In s → Leaves σ W s) {s : Option Schema}
    (hs : ∀ x ∈ s, In x) {place : String} {p q : Progress} {t : TypeExpr}
    (hrun : exec (schemaType s place) σ p = (.ok t, q)) : t.Frozen W :=
  (Regime.schemaType hσ (regime_frozen himmutable hfamily hleaves) hs place).result p t q hrun

/-- A title and any number of marks. -/
def markedSchema : Schema where
  types := some ["object"]
  required := some ["title"]
  properties := some (.ofList [("title", some { types := some ["string"] })])
  additionalProperties := some { types := some ["number"] }

/-- Neither the title nor the marks may be changed. -/
theorem schemaType_frozen_marked :
    let σ : Setting := { options := { immutable := true } }
    let In := Schema.AllBelow fun s => Reference.isExternal s.ref = false ∧ Leaves σ .nothing s
    HookFree σ ∧ σ.options.immutable = true ∧ Family σ In ∧
    (∀ s, In s → Leaves σ .nothing s) ∧ (∀ x ∈ some markedSchema, In x) ∧
    ∃ t q, exec (schemaType (some markedSchema) "#") σ {} = (.ok t, q) ∧ t.Frozen .nothing := by
  intro σ In
  have hσ : HookFree σ := ⟨rfl, rfl⟩
  have hfamily : Family σ In := family_allBelow (fun _ h _ => ⟨h.1, { h.2 with }⟩)
    (fun _ h _ => ⟨h.1, { h.2 with }⟩) fun _ h => h.1
  have hleaves (s) (hs : In s) : Leaves σ .nothing s := hs.self.2
  have hmarked : ∀ x ∈ some markedSchema, In x := by
    rintro _ ⟨⟩
    have hbelow {s : Schema} (hs : s = { types := some ["string"] } ∨
        s = { types := some ["number"] }) : In s := by
      rcases hs with rfl | rfl <;> exact .intro ⟨rfl, nofun, nofun, nofun, nofun⟩ nofun
    refine .intro ⟨rfl, nofun, nofun, nofun, nofun⟩ fun path child hchild => hbelow ?_
    have hchildren : markedSchema.children = [(["properties", "title"],
      some { types := some ["string"] }), (["additionalProperties"],
      some { types := some ["number"] })] := rfl
    rw [hchildren] at hchild
    simp only [List.mem_cons, List.not_mem_nil, or_false, Prod.mk.injEq, Option.some.injEq]
      at hchild
    exact hchild.imp And.right And.right
  obtain ⟨steps, hsteps⟩ := exists_exec_schemaType markedSchema "#" σ {}
  have hrun : exec (schemaType (some markedSchema) "#") σ {} = (.ok (.intersection [
      .object [.property "title" false true .string []],
      .object [.indexSignature "key" .string .number true []]]), {}) := hsteps.trans rfl
  exact ⟨hσ, rfl, hfamily, hleaves, hmarked, _, _, hrun,
    schemaType_frozen hσ rfl hfamily hleaves hmarked hrun⟩

/-- The members of a map that is given as a value may be changed. -/
theorem constant_not_frozen :
    let s : Schema := { const := .dict [("a", .int 1)], hasConst := true }
    let t := TypeExpr.object [.plain "a" (.literal (.int 1))]
    exec (schemaType (some s) "#") { options := { immutable := true } } {} = (.ok t, {}) ∧
      ¬ t.Frozen .nothing := by
  intro s t
  obtain ⟨steps, hsteps⟩ := exists_exec_schemaType s "#"
    { options := { immutable := true } } {}
  have hvalue : TypeExpr.ofValue s.const = t := by
    rw [TypeExpr.ofValue, TypeExpr.ofEntries, TypeExpr.ofEntries, List.mergeSort_singleton]
    rfl
  refine ⟨hsteps.trans (hvalue ▸ rfl), fun h => ?_⟩
  dsimp only [t] at h
  cases h with
  | object hmembers =>
    have hmember := hmembers _ List.mem_cons_self
    generalize hplain : Member.plain "a" _ = m at hmember
    cases hmember with
    | property _ => cases hplain
    | indexSignature _ _ => cases hplain
    | definitions hdefinitions _ => exact hdefinitions
  | value hvalues _ => exact hvalues

end Typing

end ApiTypes
