import ApiTypes.Proofs.Composition
import ApiTypes.Proofs.Typing.Abreast

/-!
Further required keys. A schema shares the keys that it requires with the parts that stand in it,
and these share them with the parts that stand in them. So a further key makes properties of the
parts required, and no required one optional, as long as a part had required keys before. One that
had none is taken to require all of its properties under the option for that, and loses this with
the first key that is shared with it.

The types of a part with and without the further key are put together in the same way, from objects
with the same members.
-/

namespace ApiTypes

/-- The second member is the first one and, on a condition, required if that is. -/
inductive Member.Tightened (kept : Prop) : Member → Member → Prop where
  | refl (m : Member) : Tightened kept m m
  | property {name : String} {isOptional isOptional' isReadonly : Bool} {t : TypeExpr}
    {doc : List String} : (kept → isOptional = false → isOptional' = false) →
      Tightened kept (.property name isOptional isReadonly t doc)
        (.property name isOptional' isReadonly t doc)

theorem Member.tightened_refl (kept : Prop) (members : List Member) :
    List.Forall₂ (Member.Tightened kept) members members :=
  List.forall₂_same.mpr fun m _ => .refl m

namespace TypeExpr

/-- The type with some keys made required, if there are any. -/
def requiring (t : TypeExpr) (keys : List String) : TypeExpr :=
  if keys.isEmpty then t else .ref "WithRequired" [t, .unionOf (keys.map .ofText)]

/-- Both types are put together in the same way, with the members of objects tightened and further
keys made required. -/
inductive Tightened (kept : Prop) : TypeExpr → TypeExpr → Prop where
  | refl (t : TypeExpr) : Tightened kept t t
  | object {members members' : List Member} :
    List.Forall₂ (Member.Tightened kept) members members' →
      Tightened kept (.object members) (.object members')
  | unionOf {pairs : List (TypeExpr × TypeExpr)} : (∀ x ∈ pairs, Tightened kept x.1 x.2) →
    Tightened kept (.unionOf (pairs.map (·.1))) (.unionOf (pairs.map (·.2)))
  | intersectionOf {pairs : List (TypeExpr × TypeExpr)} :
    (∀ x ∈ pairs, Tightened kept x.1 x.2) →
      Tightened kept (.intersectionOf (pairs.map (·.1))) (.intersectionOf (pairs.map (·.2)))
  | without {t t' : TypeExpr} (keys : List String) : Tightened kept t t' →
    Tightened kept (t.without keys) (t'.without keys)
  | requiring (t : TypeExpr) {keys keys' : List String} : keys ⊆ keys' →
    Tightened kept (t.requiring keys) (t.requiring keys')

theorem Tightened.unionOf_forall₂ {kept : Prop} {types types' : List TypeExpr}
    (h : List.Forall₂ (Tightened kept) types types') :
    Tightened kept (.unionOf types) (.unionOf types') := by
  obtain ⟨hlength, hpairs⟩ := List.forall₂_iff_zip.mp h
  have hunion := @Tightened.unionOf kept (types.zip types') fun x hx => hpairs hx
  rwa [List.map_fst_zip (Nat.le_of_eq hlength),
    List.map_snd_zip (Nat.le_of_eq hlength.symm)] at hunion

theorem Tightened.intersectionOf_forall₂ {kept : Prop} {types types' : List TypeExpr}
    (h : List.Forall₂ (Tightened kept) types types') :
    Tightened kept (.intersectionOf types) (.intersectionOf types') := by
  obtain ⟨hlength, hpairs⟩ := List.forall₂_iff_zip.mp h
  have hall := @Tightened.intersectionOf kept (types.zip types') fun x hx => hpairs hx
  rwa [List.map_fst_zip (Nat.le_of_eq hlength),
    List.map_snd_zip (Nat.le_of_eq hlength.symm)] at hall

/-- One type stands in another: it is that type, or stands in a member of a union or an
intersection or in an argument of a named type. -/
inductive StandsIn (o : TypeExpr) : TypeExpr → Prop where
  | refl : StandsIn o o
  | union {t : TypeExpr} {types : List TypeExpr} : t ∈ types → StandsIn o t →
    StandsIn o (.union types)
  | intersection {t : TypeExpr} {types : List TypeExpr} : t ∈ types → StandsIn o t →
    StandsIn o (.intersection types)
  | argument {t : TypeExpr} {name : String} {args : List TypeExpr} : t ∈ args → StandsIn o t →
    StandsIn o (.ref name args)

/-- One type is shown by another: it stands in it, up to simple types that read the same. Of such
types in a union or an intersection only the first is written. -/
inductive ShownIn (o : TypeExpr) : TypeExpr → Prop where
  | refl : ShownIn o o
  | union {t : TypeExpr} {types : List TypeExpr} : t ∈ types → ShownIn o t →
    ShownIn o (.union types)
  | intersection {t : TypeExpr} {types : List TypeExpr} : t ∈ types → ShownIn o t →
    ShownIn o (.intersection types)
  | argument {t : TypeExpr} {name : String} {args : List TypeExpr} : t ∈ args → ShownIn o t →
    ShownIn o (.ref name args)
  | reads {t u : TypeExpr} : t.isSimple = true → t.render = u.render → ShownIn o u → ShownIn o t

variable {kept : Prop} {members : List Member} {t t' : TypeExpr} {types types' : List TypeExpr}

theorem StandsIn.shownIn {o : TypeExpr} (h : StandsIn o t) : ShownIn o t := by
  induction h with
  | refl => exact .refl
  | union ht _ ih => exact .union ht ih
  | intersection ht _ ih => exact .intersection ht ih
  | argument ht _ ih => exact .argument ht ih

/-- An object that is shown by one of some types is shown by one of those that are kept. -/
theorem ShownIn.dedupe (h : ShownIn (.object members) t) (ht : t ∈ types) :
    ∃ u ∈ dedupe [] types, ShownIn (.object members) u := by
  cases hsimple : t.isSimple with
  | false => exact ⟨t, mem_dedupe_of_not_simple hsimple [] ht, h⟩
  | true =>
    obtain ⟨u, hu, husimple, hreads⟩ := (exists_mem_dedupe hsimple [] ht).resolve_left nofun
    exact ⟨u, hu, .reads husimple hreads h⟩

theorem ShownIn.unionOf (h : ShownIn (.object members) t) (ht : t ∈ types) :
    ShownIn (.object members) (unionOf types) := by
  obtain ⟨part, hpart, hshown⟩ : ∃ part ∈ t.unionMembers, ShownIn (.object members) part := by
    cases h with
    | union hmem hinner => exact ⟨_, hmem, hinner⟩
    | refl => exact ⟨_, List.mem_singleton_self _, .refl⟩
    | intersection hmem hinner => exact ⟨_, List.mem_singleton_self _, .intersection hmem hinner⟩
    | argument hmem hinner => exact ⟨_, List.mem_singleton_self _, .argument hmem hinner⟩
    | reads hsimple hreads hinner =>
      refine ⟨t, ?_, .reads hsimple hreads hinner⟩
      cases t with
      | union => cases hsimple
      | _ => exact List.mem_singleton_self _
  obtain ⟨u, hu, hshown⟩ := hshown.dedupe (List.mem_flatMap.mpr ⟨t, ht, hpart⟩)
  unfold TypeExpr.unionOf joinUnion
  split
  · rename_i hnil
    rw [hnil] at hu
    cases hu
  · rename_i single hsingle
    rw [hsingle, List.mem_singleton] at hu
    exact hu ▸ hshown
  · exact .union hu hshown

theorem ShownIn.intersectionOf (h : ShownIn (.object members) t) (ht : t ∈ types) :
    ShownIn (.object members) (intersectionOf types) := by
  obtain ⟨part, hpart, hshown⟩ :
      ∃ part ∈ t.intersectionMembers, ShownIn (.object members) part := by
    cases h with
    | intersection hmem hinner => exact ⟨_, hmem, hinner⟩
    | refl => exact ⟨_, List.mem_singleton_self _, .refl⟩
    | union hmem hinner => exact ⟨_, List.mem_singleton_self _, .union hmem hinner⟩
    | argument hmem hinner => exact ⟨_, List.mem_singleton_self _, .argument hmem hinner⟩
    | reads hsimple hreads hinner =>
      refine ⟨t, ?_, .reads hsimple hreads hinner⟩
      cases t with
      | intersection => cases hsimple
      | _ => exact List.mem_singleton_self _
  obtain ⟨u, hu, hshown⟩ := hshown.dedupe (List.mem_flatMap.mpr ⟨t, ht, hpart⟩)
  unfold TypeExpr.intersectionOf joinIntersection
  split
  · rename_i hnil
    rw [hnil] at hu
    cases hu
  · rename_i single hsingle
    rw [hsingle, List.mem_singleton] at hu
    exact hu ▸ hshown
  · exact .intersection hu hshown

/-- An object in a union stands in one of the types that the union is of. -/
theorem StandsIn.of_unionOf (h : StandsIn (.object members) (unionOf types)) :
    ∃ t ∈ types, StandsIn (.object members) t := by
  have hkept {part : TypeExpr} (hpart : part ∈ dedupe [] (types.flatMap unionMembers))
      (hstands : StandsIn (.object members) part) :
      ∃ t ∈ types, StandsIn (.object members) t := by
    obtain ⟨t, ht, hmem⟩ := List.mem_flatMap.mp ((dedupe_sublist _ _).subset hpart)
    refine ⟨t, ht, ?_⟩
    cases t with
    | union parts => exact .union hmem hstands
    | _ => exact List.mem_singleton.mp hmem ▸ hstands
  unfold unionOf joinUnion at h
  split at h
  · cases h
  · rename_i single hsingle
    exact hkept (hsingle ▸ List.mem_singleton_self single) h
  · cases h with
    | union hpart hstands => exact hkept hpart hstands

theorem StandsIn.of_intersectionOf (h : StandsIn (.object members) (intersectionOf types)) :
    ∃ t ∈ types, StandsIn (.object members) t := by
  have hkept {part : TypeExpr} (hpart : part ∈ dedupe [] (types.flatMap intersectionMembers))
      (hstands : StandsIn (.object members) part) :
      ∃ t ∈ types, StandsIn (.object members) t := by
    obtain ⟨t, ht, hmem⟩ := List.mem_flatMap.mp ((dedupe_sublist _ _).subset hpart)
    refine ⟨t, ht, ?_⟩
    cases t with
    | intersection parts => exact .intersection hmem hstands
    | _ => exact List.mem_singleton.mp hmem ▸ hstands
  unfold intersectionOf joinIntersection at h
  split at h
  · cases h
  · rename_i single hsingle
    exact hkept (hsingle ▸ List.mem_singleton_self single) h
  · cases h with
    | intersection hpart hstands => exact hkept hpart hstands

/-- An object in a type without some keys stands in the type itself. -/
theorem StandsIn.of_keyed {name : String} {keys : List String}
    (h : StandsIn (.object members) (.ref name [t, TypeExpr.unionOf (keys.map ofText)])) :
    StandsIn (.object members) t := by
  cases h with
  | argument hmem hstands =>
    rcases List.mem_pair.mp hmem with rfl | rfl
    · exact hstands
    · obtain ⟨text, htext, hin⟩ := hstands.of_unionOf
      obtain ⟨key, -, rfl⟩ := List.mem_map.mp htext
      cases hin

/-- Of each object in the first type the second one shows the same with its members tightened. -/
theorem Tightened.shownIn (h : Tightened kept t t') (hstands : StandsIn (.object members) t) :
    ∃ members', ShownIn (.object members') t' ∧
      List.Forall₂ (Member.Tightened kept) members members' := by
  induction h with
  | refl t => exact ⟨members, hstands.shownIn, Member.tightened_refl kept members⟩
  | object hmembers =>
    cases hstands
    exact ⟨_, .refl, hmembers⟩
  | unionOf _ ih =>
    obtain ⟨t, ht, hin⟩ := hstands.of_unionOf
    obtain ⟨x, hx, rfl⟩ := List.mem_map.mp ht
    obtain ⟨members', hshown, hmembers⟩ := ih x hx hin
    exact ⟨members', hshown.unionOf (List.mem_map_of_mem hx), hmembers⟩
  | intersectionOf _ ih =>
    obtain ⟨t, ht, hin⟩ := hstands.of_intersectionOf
    obtain ⟨x, hx, rfl⟩ := List.mem_map.mp ht
    obtain ⟨members', hshown, hmembers⟩ := ih x hx hin
    exact ⟨members', hshown.intersectionOf (List.mem_map_of_mem hx), hmembers⟩
  | without keys _ ih =>
    obtain ⟨members', hshown, hmembers⟩ := ih hstands.of_keyed
    exact ⟨members', .argument List.mem_cons_self hshown, hmembers⟩
  | @requiring t keys keys' hkeys =>
    have hin : StandsIn (.object members) t := by
      unfold TypeExpr.requiring at hstands
      split at hstands
      · exact hstands
      · exact hstands.of_keyed
    refine ⟨members, ?_, Member.tightened_refl kept members⟩
    unfold TypeExpr.requiring
    split
    · exact hin.shownIn
    · exact .argument List.mem_cons_self hin.shownIn

end TypeExpr

namespace Schema

/-- The schema with one more required key. -/
def requiring (s : Schema) (key : String) : Schema :=
  { s with required := some (s.required.getD [] ++ [key]) }

/-- A part that stands in a schema, with the required keys that the schema shares with it. -/
def sharing (s part : Schema) : Schema :=
  let keys := Typing.mergeRequired (part.required.getD []) (s.required.getD [])
  { part with required := if keys.isEmpty then none else some keys }

/-- The part that is reached through positions in lists of parts, if each on the way stands in its
schema, with the required keys that are shared with it. -/
def part? (s : Schema) : List Nat → Option Schema
  | [] => some s
  | i :: path =>
    match (s.allOf.getD [])[i]? with
    | some (some part) => if part.isRef then none else (s.sharing part).part? path
    | _ => none

end Schema

namespace Typing

open TypeExpr (Tightened)

variable {σ : Setting} {kept : Prop} {body : SchemaBody} {s : Schema}
  {required : Option (List String)} {place : String}

/-- The required keys are kept. On a condition, a schema that has none under the option by which it
requires all properties gets none. -/
structure Demands (σ : Setting) (kept : Prop) (required required' : Option (List String)) : Prop
    where
  keys : required.getD [] ⊆ required'.getD []
  absent : kept → σ.options.propertiesRequiredByDefault = true → required.getD [] = [] →
    required' = required

theorem mem_mergeRequired_iff {key : String} {own whole : List String} :
    key ∈ mergeRequired own whole ↔ key ∈ own ∨ key ∈ whole := by
  unfold mergeRequired
  induction whole generalizing own with
  | nil => simp
  | cons next rest ih =>
    rw [List.foldl_cons, ih, List.mem_cons]
    split
    · rename_i hcontains
      have hnext := List.contains_iff_mem.mp hcontains
      grind
    · grind

theorem inlinePart_eq (body : SchemaBody) (s part : Schema) (place : String) :
    inlinePart body s part place = typeWith body (some (s.sharing part)) place := rfl

/-- The keys that are shared with a part are its own and those of the whole. -/
theorem getD_required_sharing (s part : Schema) :
    (s.sharing part).required.getD [] =
      mergeRequired (part.required.getD []) (s.required.getD []) := by
  unfold Schema.sharing
  dsimp only
  split
  · rename_i hempty
    rw [Option.getD_none, List.isEmpty_iff.mp hempty]
  · rfl

/-- Why a property is written as one that has to be there. -/
theorem isOptionalProperty_eq_false_iff (options : Options) (s : Schema) (place name : String)
    (property : Schema) : isOptionalProperty options s place name property = false ↔
      name ∈ s.required.getD [] ∨
      s.required = none ∧ options.propertiesRequiredByDefault = true ∨
      property.hasDefault = true ∧ options.defaultNonNullable = true ∧ isInput place = false := by
  simp only [isOptionalProperty, Schema.isRequired, Bool.not_eq_false', Bool.or_eq_true,
    Bool.and_eq_true, Bool.not_eq_true', Option.isNone_iff_eq_none, List.contains_iff_mem, or_assoc,
    and_assoc]

namespace Demands

/-- What has to be there still has to. -/
theorem isOptionalProperty (h : Demands σ kept s.required required) (hkept : kept) {name : String}
    {property : Schema}
    (hneeded : isOptionalProperty σ.options s place name property = false) :
    Typing.isOptionalProperty σ.options { s with required } place name property = false := by
  rw [isOptionalProperty_eq_false_iff] at hneeded ⊢
  rcases hneeded with hlisted | ⟨hnone, hdefault⟩ | hvalue
  · exact .inl (h.keys hlisted)
  · have hempty : s.required.getD [] = [] := by rw [hnone, Option.getD_none]
    exact .inr (.inl ⟨(h.absent hkept hdefault hempty).trans hnone, hdefault⟩)
  · exact .inr (.inr hvalue)

theorem sharing (h : Demands σ kept s.required required) (part : Schema) :
    Demands σ kept (s.sharing part).required
      (Schema.sharing { s with required } part).required := by
  constructor
  · intro key hkey
    rw [getD_required_sharing] at hkey ⊢
    exact mem_mergeRequired_iff.mpr ((mem_mergeRequired_iff.mp hkey).imp_right (h.keys ·))
  · intro hkept hdefault hnone
    rw [getD_required_sharing] at hnone
    have hempty : s.required.getD [] = [] := by
      refine List.eq_nil_iff_forall_not_mem.mpr fun key hkey => ?_
      have hmerged := mem_mergeRequired_iff.mpr (.inr hkey : key ∈ part.required.getD [] ∨ _)
      rw [hnone] at hmerged
      cases hmerged
    rw [h.absent hkept hdefault hempty]
    rfl

end Demands

/-- An action that does not look at whether the helper is used runs abreast of itself. -/
theorem abreast_self {α : Type} {act : Typing α} {post : α → Prop}
    (h : unheeding.Holds act post) : Abreast σ Eq act act :=
  (h σ).mono fun _ _ h => h.1

/-- What is left of a schema, with further required keys. -/
def BodyTightens (σ : Setting) (kept : Prop) (body : SchemaBody) : Prop :=
  ∀ s required place, Demands σ kept s.required required →
    Abreast σ (Tightened kept) (body (some s) place) (body (some { s with required }) place)

/-- Parts of one tag, of which the second is tightened. -/
structure Part.Tightened (kept : Prop) (part part' : Part) : Prop where
  type : part.type.Tightened kept part'.type
  tag : part'.tag = part.tag

theorem Part.Tightened.written {part part' : Part} (h : Part.Tightened kept part part') :
    part.written.Tightened kept part'.written := by
  unfold Part.written
  rw [h.tag]
  split
  · exact h.type
  · exact .without _ h.type

theorem tightened_whole {core core' : Option TypeExpr} {parts parts' : List Part}
    (hcore : Option.Rel (Tightened kept) core core')
    (hparts : List.Forall₂ (Part.Tightened kept) parts parts') :
    Option.Rel (Tightened kept) (Composition.whole ⟨core, parts⟩)
      (Composition.whole ⟨core', parts'⟩) := by
  have htypes : List.Forall₂ (Tightened kept) (Composition.types ⟨core, parts⟩)
      (Composition.types ⟨core', parts'⟩) := by
    have hwritten : List.Forall₂ (Tightened kept) (parts.map Part.written)
        (parts'.map Part.written) := by
      rw [List.forall₂_map_left_iff, List.forall₂_map_right_iff]
      exact hparts.imp fun _ _ h => h.written
    cases hcore with
    | none => exact hwritten
    | some ht => exact .cons ht hwritten
  unfold Composition.whole
  generalize Composition.types ⟨core, parts⟩ = types,
    Composition.types ⟨core', parts'⟩ = types' at htypes
  cases htypes with
  | nil => exact .none
  | cons hfirst hrest => exact .some (.intersectionOf_forall₂ (.cons hfirst hrest))

/-- Alternatives are added to both in the same way. -/
theorem tightened_compose {base base' : Option TypeExpr}
    (h : Option.Rel (Tightened kept) base base') (alternatives : List TypeExpr) :
    Option.Rel (Tightened kept) (compose base alternatives) (compose base' alternatives) := by
  have hself (types : List TypeExpr) : List.Forall₂ (Tightened kept) types types :=
    List.forall₂_same.mpr fun t _ => .refl t
  cases alternatives with
  | nil => 
    cases h with
    | none => exact .none
    | some ht => exact .some ht
  | cons first rest =>
    cases h with
    | none => exact .some (.refl _)
    | some ht =>
      unfold compose
      dsimp only
      split
      · exact .some (.unionOf_forall₂ (.cons ht (hself _)))
      · exact .some (.intersectionOf_forall₂ (.cons ht (.cons (.refl _) .nil)))

section Rules

variable (hσ : HookFree σ) (hsame : ∀ s place, unheeding.Holds (body s place) fun _ => True)
  (h : Demands σ kept s.required required)

include hsame h in
theorem propertyMembers_tightens (tag : String) (list : List (String × Option Schema)) :
    Abreast σ (List.Forall₂ (Member.Tightened kept)) (propertyMembers body s place tag list)
      (propertyMembers body { s with required } place tag list) := by
  induction list with
  | nil => exact .pure .nil
  | cons entry rest ih =>
    obtain ⟨name, property⟩ := entry
    cases property with
    | none => exact ih
    | some property =>
      rw [propertyMembers, propertyMembers]
      refine (abreast_self (isDropped_holds tag name property)).bind_eq fun dropped => ?_
      split
      · exact ih
      · refine .options_bind ?_
        have hmade := abreast_self (σ := σ) (hookedType_holds hsame (some property)
          (Reference.join place ["properties", name]))
        refine hmade.bind_eq fun made => ih.bind fun members members' hmembers => .pure ?_
        refine .cons (.property fun hkept hneeded => ?_) hmembers
        rw [Bool.or_eq_false_iff] at hneeded ⊢
        exact hneeded.imp_left (h.isOptionalProperty hkept)

theorem tightened_objectWith? {members members' : List Member} (index : Option TypeExpr)
    (hmembers : List.Forall₂ (Member.Tightened kept) members members') :
    Option.Rel (Tightened kept) (objectWith? members index) (objectWith? members' index) := by
  cases hmembers with
  | nil =>
    cases index with
    | none => exact .none
    | some index => exact .some (.refl index)
  | cons hfirst hrest =>
    have hobject := Tightened.object (.cons hfirst hrest)
    cases index with
    | none => exact .some hobject
    | some index =>
      exact .some (.intersectionOf_forall₂ (.cons hobject (.cons (.refl index) .nil)))

include hsame h in
theorem objectType?_tightens :
    Abreast σ (Option.Rel (Tightened kept)) (objectType? body s place)
      (objectType? body { s with required } place) := by
  refine .options_bind (.read_bind ?_)
  refine (abreast_self (Judgement.entries s.properties)).bind_eq fun listed => ?_
  refine (propertyMembers_tightens hsame h _ listed).bind
    fun properties properties' hproperties => ?_
  refine (abreast_self (Judgement.entries s.defs)).bind_eq fun defined => ?_
  refine (abreast_self (definitionMembers_holds hsame place defined)).bind_eq fun definitions => ?_
  refine (abreast_self (indexType?_holds hsame s place)).bind_eq fun index => .pure ?_
  exact tightened_objectWith? _ (List.rel_append
    (List.rel_append (Member.tightened_refl kept _) hproperties) (Member.tightened_refl kept _))

theorem exec_requiring (t : TypeExpr) (keys : List String) (p : Progress) :
    exec (if keys.isEmpty then pure t else withRequired t keys) σ p =
      (.ok (t.requiring keys),
        { p with usesWithRequired := !keys.isEmpty || p.usesWithRequired }) := by
  unfold TypeExpr.requiring
  cases keys <;> rfl

include hsame h in
/-- What is made required in the type of a part that is referred to grows with what the whole
requires. -/
theorem referencedPart_tightens (part : Schema) :
    Abreast σ (Tightened kept) (referencedPart body s part place)
      (referencedPart body { s with required } part place) := by
  unfold referencedPart
  refine (abreast_self (typeWith_holds hsame (some part) place)).bind_eq fun t => ?_
  refine (abreast_self (Judgement.find? part.ref)).bind_eq fun target => ?_
  extract_lets missing missing'
  have hmissing : missing ⊆ missing' := by
    cases target with
    | none => exact List.Subset.refl []
    | some target => exact List.filter_subset _ h.keys
  constructor
  rintro p _ ⟨uses, rfl⟩
  rw [exec_requiring, exec_requiring]
  exact .ok (.requiring t hmissing) ⟨_, rfl⟩

section Below

variable (hbody : BodyTightens σ kept body)

include hσ hbody

theorem typeWith_tightens {required : Option (List String)} {s : Schema} (place : String)
    (h : Demands σ kept s.required required) :
    Abreast σ (Tightened kept) (typeWith body (some s) place)
      (typeWith body (some { s with required }) place) :=
  .congr (exec_typeWith hσ body _ place) (exec_typeWith hσ body _ place) (hbody s required place h)

include h

theorem typeListMembers_tightens (names : List String) :
    Abreast σ (List.Forall₂ (Tightened kept)) (typeListMembers body s place names)
      (typeListMembers body { s with required } place names) := by
  induction names with
  | nil => exact .pure .nil
  | cons name rest ih =>
    have hleft : Abreast σ Eq (isLeftToAlternatives s name) (isLeftToAlternatives s name) := by
      unfold isLeftToAlternatives
      split
      · exact abreast_self (isAlternative_holds name _)
      · exact .pure rfl
    have hsingled : Abreast σ (Tightened kept) (singledType body s place name)
        (singledType body { s with required } place name) := by
      unfold singledType
      split
      · exact .pure (.refl _)
      · exact .congr (exec_unfinishedWith hσ body _ place) (exec_unfinishedWith hσ body _ place)
          (hbody (singled s name) required place h)
    rw [typeListMembers, typeListMembers]
    refine hleft.bind_eq fun left => ?_
    split
    · exact ih
    · exact hsingled.bind fun t t' ht => ih.bind fun types types' htypes => .pure (.cons ht htypes)

include hsame

theorem coreType?_tightens :
    Abreast σ (Option.Rel (Tightened kept)) (coreType? body s place)
      (coreType? body { s with required } place) := by
  have hkeyword (name : String) : Option.Rel (Tightened kept) (some (.keyword name))
      (some (.keyword name)) := .some (.refl _)
  unfold coreType?
  dsimp only
  split
  · exact objectType?_tightens hsame h
  · exact objectType?_tightens hsame h
  · exact .pure (hkeyword _)
  · exact .pure (hkeyword _)
  · exact .pure (hkeyword _)
  · exact .pure (hkeyword _)
  · exact .pure (hkeyword _)
  · refine (abreast_self (itemType_holds hsame s place)).bind_eq fun item => .options_bind ?_
    have hfound : unheeding.Holds (ofExcept (arrayType s item σ.options)) fun _ => True :=
      Judgement.ofExcept fun _ _ => trivial
    exact (abreast_self hfound).map fun t _ ht => ht ▸ .some (.refl t)
  · refine (abreast_self (unheeding.warn (by decide) _ _)).bind_eq fun _ => ?_
    exact .pure (hkeyword _)
  · refine (typeListMembers_tightens hσ h hbody _).bind fun types types' htypes => .pure ?_
    exact .some (.unionOf_forall₂ htypes)

theorem partType_tightens (part : Schema) :
    Abreast σ (Tightened kept) (partType body s part place)
      (partType body { s with required } part place) := by
  unfold partType
  split
  · exact referencedPart_tightens hsame h part
  · rw [inlinePart_eq, inlinePart_eq]
    exact typeWith_tightens hσ hbody place (h.sharing part)

theorem partTypes_tightens (list : List (Option Schema × Nat)) :
    Abreast σ (List.Forall₂ (Part.Tightened kept)) (partTypes body s place list)
      (partTypes body { s with required } place list) := by
  induction list with
  | nil => exact .pure .nil
  | cons entry rest ih =>
    obtain ⟨part, i⟩ := entry
    cases part with
    | none => exact ih
    | some part =>
      rw [partTypes, partTypes]
      refine (partType_tightens hσ hsame h hbody part).bind fun t t' ht => ?_
      refine (abreast_self (partTag_holds part)).bind_eq fun tag => ?_
      exact ih.bind fun parts parts' hparts => .pure (.cons ⟨ht, rfl⟩ hparts)

theorem composedType_tightens :
    Abreast σ (Tightened kept) (composedType body s place)
      (composedType body { s with required } place) := by
  have hcomposition : Abreast σ (fun c c' => Option.Rel (Tightened kept) c.whole c'.whole)
      (composition body s place) (composition body { s with required } place) := by
    refine (coreType?_tightens hσ hsame h hbody).bind fun core core' hcore => ?_
    refine (partTypes_tightens hσ hsame h hbody _).bind fun parts parts' hparts => .pure ?_
    exact tightened_whole hcore hparts
  refine hcomposition.bind fun c c' hwhole => ?_
  refine (abreast_self (typesAt_holds hsame _ _)).bind_eq fun anyOf => ?_
  refine (abreast_self (typesAt_holds hsame _ _)).bind_eq fun oneOf => .options_bind (.pure ?_)
  have hall : Tightened kept ((compose (compose c.whole anyOf) oneOf).getD (bareType σ.options s))
      ((compose (compose c'.whole anyOf) oneOf).getD (bareType σ.options s)) := by
    have hcomposed := tightened_compose (tightened_compose hwhole anyOf) oneOf
    generalize compose (compose c.whole anyOf) oneOf = t,
      compose (compose c'.whole anyOf) oneOf = t' at hcomposed
    cases hcomposed with
    | none => exact .refl _
    | some ht => exact ht
  change Tightened kept (if _ then _ else _) (if (s.nullable && !(s.hasDefault && _)) then _ else _)
  split
  · exact .unionOf_forall₂ (.cons hall (.cons (.refl _) .nil))
  · exact hall

end Below

end Rules

theorem bodyStep_tightens (hσ : HookFree σ)
    (hsame : ∀ s place, unheeding.Holds (body s place) fun _ => True)
    (hbody : BodyTightens σ kept body) : BodyTightens σ kept (bodyStep body) := by
  intro s required place h
  have hself {act : Typing TypeExpr} (hact : unheeding.Holds act fun _ => True) :
      Abreast σ (Tightened kept) act act :=
    (abreast_self hact).mono fun t _ ht => ht ▸ .refl t
  dsimp only [bodyStep]
  split
  · exact .pure (.refl _)
  · have href : Schema.isRef { s with required } = s.isRef := rfl
    have henum : isEnumSchema { s with required } = isEnumSchema s := rfl
    rw [href, henum]
    split
    · exact hself (refType_holds (fun target => typeWith_holds hsame (some target)) s.ref place)
    · split
      · exact hself (enumType_holds s place)
      · split
        · exact .pure (.refl _)
        · exact composedType_tightens hσ hsame h hbody

theorem schemaBody_tightens (hσ : HookFree σ) (kept : Prop) (steps : Nat) :
    BodyTightens σ kept (schemaBody steps) := by
  induction steps with
  | zero => exact fun _ _ _ _ => .throw _
  | succ steps ih => exact bodyStep_tightens hσ (schemaBody_holds steps) ih

/-- The second list of required keys has one more key than the first. -/
def Adds (key : String) (required required' : Option (List String)) : Prop :=
  ∀ k, k ∈ required'.getD [] ↔ k ∈ required.getD [] ∨ k = key

/-- A further key is shared with the parts that stand in a schema, and with those in them. -/
theorem exists_part? {m : Schema} {key : String} {path : List Nat}
    (hadds : Adds key s.required required) (hm : s.part? path = some m) :
    ∃ required', Schema.part? { s with required } path = some { m with required := required' } ∧
      Adds key m.required required' := by
  induction path generalizing s required with
  | nil =>
    cases hm
    exact ⟨required, rfl, hadds⟩
  | cons i path ih =>
    rw [Schema.part?] at hm ⊢
    split at hm
    · rename_i part hpart
      rw [hpart]
      dsimp only
      split at hm
      · cases hm
      · rename_i hinline
        rw [if_neg hinline]
        refine @ih (s.sharing part) (Schema.sharing { s with required } part).required
          (fun k => ?_) hm
        rw [getD_required_sharing, getD_required_sharing, mem_mergeRequired_iff,
          mem_mergeRequired_iff, hadds k, or_assoc]
    · cases hm

/-- A part that stands in a schema has no list of required keys, or one with keys in it. -/
theorem part?_required_ne_nil {m : Schema} {i : Nat} {path : List Nat}
    (hm : s.part? (i :: path) = some m) : m.required ≠ some [] := by
  induction path generalizing s i with
  | nil =>
    rw [Schema.part?] at hm
    split at hm
    · split at hm
      · cases hm
      · cases hm
        unfold Schema.sharing
        dsimp only
        split
        · exact nofun
        · rename_i hsome
          exact fun h => hsome (by rw [Option.some.inj h]; rfl)
    · cases hm
  | cons j path ih =>
    rw [Schema.part?] at hm
    split at hm
    · split at hm
      · cases hm
      · exact ih hm
    · cases hm

/-- Under a further key, just those properties become optional that were required because there was
no list of required keys. -/
theorem optional_of_adds_iff {m : Schema} {key : String} (hadds : Adds key m.required required)
    (options : Options) (place name : String) (property : Schema) :
    isOptionalProperty options m place name property = false ∧
      isOptionalProperty options { m with required } place name property = true ↔
    options.propertiesRequiredByDefault = true ∧ m.required = none ∧ name ≠ key ∧
      ¬(property.hasDefault = true ∧ options.defaultNonNullable = true ∧
        isInput place = false) := by
  have hsome : required ≠ none := by
    rintro rfl
    cases (hadds key).mpr (.inr rfl)
  rw [← Bool.not_eq_false, isOptionalProperty_eq_false_iff, isOptionalProperty_eq_false_iff]
  dsimp only
  rw [hadds name]
  constructor
  · rintro ⟨hneeded, hnot⟩
    obtain ⟨hlisted, hnot⟩ := not_or.mp hnot
    obtain ⟨hlisted, hkey⟩ := not_or.mp hlisted
    have hdefault := (not_or.mp hnot).2
    obtain ⟨hnone, hall⟩ := (hneeded.resolve_left hlisted).resolve_right hdefault
    exact ⟨hall, hnone, hkey, hdefault⟩
  · rintro ⟨hall, hnone, hkey, hdefault⟩
    refine ⟨.inr (.inl ⟨hnone, hall⟩), ?_⟩
    rw [hnone, Option.getD_none]
    rintro ((hlisted | rfl) | ⟨hmissing, -⟩ | hvalue)
    · cases hlisted
    · exact hkey rfl
    · exact hsome hmissing
    · exact hdefault hvalue

/-- A schema shares a further required key with the parts that stand in it, however deep. In the
types of such a part all objects keep their required properties, if the part had required keys or
properties are not required by default. Otherwise just those of its properties become optional that
were required by default, other than the one that is named by the key. -/
theorem part_requiring (hσ : HookFree σ) {m : Schema} {i : Nat} {path : List Nat}
    (hm : s.part? (i :: path) = some m) (key : String) :
    ∃ required, (s.requiring key).part? (i :: path) = some { m with required } ∧
      (∀ place name property,
        isOptionalProperty σ.options m place name property = false ∧
          isOptionalProperty σ.options { m with required } place name property = true ↔
        σ.options.propertiesRequiredByDefault = true ∧ m.required = none ∧ name ≠ key ∧
          ¬(property.hasDefault = true ∧ σ.options.defaultNonNullable = true ∧
            isInput place = false)) ∧
      ∀ steps place, Abreast σ (fun t t' => ∀ members, TypeExpr.StandsIn (.object members) t →
          ∃ members', TypeExpr.ShownIn (.object members') t' ∧ List.Forall₂ (Member.Tightened
            (σ.options.propertiesRequiredByDefault = true → m.required ≠ none)) members members')
        (typeWith (schemaBody steps) (some m) place)
        (typeWith (schemaBody steps) (some { m with required }) place) := by
  have hadds : Adds key s.required (s.requiring key).required := fun k => by
    simp [Schema.requiring]
  obtain ⟨required, hpart, hadds⟩ := exists_part? hadds hm
  refine ⟨required, hpart, fun place => optional_of_adds_iff hadds σ.options place, ?_⟩
  intro steps place
  have hdemands : Demands σ (σ.options.propertiesRequiredByDefault = true → m.required ≠ none)
      m.required required := by
    refine ⟨fun k hk => (hadds k).mpr (.inl hk), fun hkept hdefault hempty => ?_⟩
    cases hrequired : m.required with
    | none => exact absurd hrequired (hkept hdefault)
    | some keys =>
      rw [hrequired, Option.getD_some] at hempty
      exact absurd (hempty ▸ hrequired) (part?_required_ne_nil hm)
  have htightened := typeWith_tightens hσ (schemaBody_tightens hσ _ steps) place hdemands
  exact htightened.mono fun t t' ht members hstands => ht.shownIn hstands

/-- An order with a note in a part of a part, which requires the id. -/
def orderSchema : Schema where
  allOf := some [some {
    properties := some (.ofList [("id", some { types := some ["string"] })])
    required := some ["id"]
    allOf := some [
      some { properties := some (.ofList [("note", some { types := some ["string"] })]) }] }]

/-- The note, which need not be there, may be required, and nothing is lost by that. -/
theorem part_requiring_note :
    let σ : Setting := { options := { propertiesRequiredByDefault := true } }
    let m : Schema := {
      properties := some (.ofList [("note", some { types := some ["string"] })])
      required := some ["id"] }
    HookFree σ ∧ orderSchema.part? [0, 0] = some m ∧
    ∃ required, (orderSchema.requiring "note").part? [0, 0] = some { m with required } ∧
      ∀ place name property, isOptionalProperty σ.options m place name property = false →
        isOptionalProperty σ.options { m with required } place name property = false := by
  intro σ m
  have hσ : HookFree σ := ⟨rfl, rfl⟩
  have hm : orderSchema.part? [0, 0] = some m := rfl
  obtain ⟨required, hpart, hlost, -⟩ := part_requiring hσ hm "note"
  refine ⟨hσ, hm, required, hpart, fun place name property hneeded => ?_⟩
  by_contra hoptional
  obtain ⟨-, hnone, -⟩ := (hlost place name property).mp ⟨hneeded, by simpa using hoptional⟩
  cases hnone

/-- A label in a part that requires nothing. -/
def labelledSchema : Schema where
  allOf := some [some {
    types := some ["object"]
    properties := some (.ofList [("label", some { types := some ["string"] })]) }]

/-- With a key that is required besides, the label need not be there any more. -/
theorem label_becomes_optional :
    let σ : Setting := { options := { propertiesRequiredByDefault := true } }
    exec (schemaType (some labelledSchema) "#") σ {} =
      (.ok (.object [.property "label" false false .string []]), {}) ∧
    exec (schemaType (some (labelledSchema.requiring "id")) "#") σ {} =
      (.ok (.object [.property "label" true false .string []]), {}) := by
  intro σ
  obtain ⟨steps, hsteps⟩ := exists_exec_schemaType labelledSchema "#" σ {}
  obtain ⟨steps', hsteps'⟩ := exists_exec_schemaType (labelledSchema.requiring "id") "#" σ {}
  exact ⟨hsteps.trans rfl, hsteps'.trans rfl⟩

end Typing

end ApiTypes
