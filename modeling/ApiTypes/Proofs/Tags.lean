import ApiTypes.Proofs.ArrayLength
import ApiTypes.Proofs.Composition
import ApiTypes.Proofs.Typing.Run

/-!
The tags of variants. Where a schema extends one with a discriminator, the discriminator property is
left out of the extended type, and the tag of the variant is to stand in its place. It does if the
schema is an object without a discriminator of its own and the scan has tagged its place with this
property. For a schema that only extends others by reference, this is the only case in which it
does: a second root with another property, a place that has not been tagged or a discriminator of
its own leaves the property out without a tag.
-/

namespace ApiTypes

namespace TypeExpr

def isText : TypeExpr → Bool
  | .literal (.text _) => true
  | _ => false

/-- A union of literal texts, at least one. -/
def isTextUnion (t : TypeExpr) : Bool := !t.unionMembers.isEmpty && t.unionMembers.all isText

end TypeExpr

/-- A required property of this name whose type is a union of literal texts. -/
def Member.tags (name : String) : Member → Bool
  | .property key isOptional _ t _ => key = name && !isOptional && t.isTextUnion
  | .indexSignature .. => false

namespace TypeExpr

/-- An object type with such a property. -/
def tags (name : String) : TypeExpr → Bool
  | .object members => members.any (Member.tags name)
  | _ => false

theorem not_simple_of_tags {name : String} {t : TypeExpr} (h : t.tags name = true) :
    t.isSimple = false := by
  cases t with
  | object members => rfl
  | _ => cases h

theorem tags_of_simple {name : String} {t o : TypeExpr} (ht : t.isSimple = true)
    (ho : o ∈ t.intersectionMembers) : o.tags name = false := by
  cases t with
  | keyword _ | literal _ | ref _ _ | access _ _ =>
    cases List.mem_singleton.mp ho
    rfl
  | _ => cases ht

/-- The union of some literal texts is one of literal texts. -/
theorem isTextUnion_ofTexts {texts : List String} (h : texts ≠ []) :
    (unionOf (texts.map ofText)).isTextUnion = true := by
  have hflat : (texts.map ofText).flatMap unionMembers = texts.map ofText := by
    rw [List.flatMap_map]
    exact List.map_eq_flatMap.symm
  have hkept : ∀ t ∈ dedupe [] (texts.map ofText), t.isText = true := by
    intro t ht
    obtain ⟨text, -, rfl⟩ := List.mem_map.mp ((dedupe_sublist [] _).subset ht)
    rfl
  have hsome : dedupe [] (texts.map ofText) ≠ [] := by
    obtain ⟨text, rest, rfl⟩ := List.exists_cons_of_ne_nil h
    exact List.cons_ne_nil _ _
  unfold unionOf joinUnion
  rw [hflat]
  split
  · rename_i hnil
    exact absurd hnil hsome
  · rename_i t hsingle
    have ht : t.isText = true := hkept t (by simp [hsingle])
    cases t with
    | literal value => simp [isTextUnion, unionMembers, ht]
    | _ => cases ht
  · simp only [isTextUnion, unionMembers, Bool.and_eq_true, Bool.not_eq_true',
      List.isEmpty_eq_false_iff, List.all_eq_true]
    exact ⟨hsome, hkept⟩

end TypeExpr

namespace Typing

variable {σ : Setting} {body : SchemaBody} {s : Schema} {place name : String}

/-- The schema at a place is written with a tag in this property. -/
def Tagged (σ : Setting) (s : Schema) (place name : String) : Prop :=
  (s.types.getD [] = [] ∨ s.types.getD [] = ["object"]) ∧
    ∃ v, tagOf? σ.discriminators s place = some v ∧ v.propertyName = name

/-- The schema does not declare the property itself: it has no property of this name and no list of
types, and extends others only by references into the document. -/
structure PlainExtension (s : Schema) (name : String) : Prop where
  types : (s.types.getD []).length ≤ 1
  properties : name ∉ (entriesOf s.properties).map Prod.fst
  parts : ∀ part, some part ∈ s.allOf.getD [] →
    part.isRef = true ∧ Reference.isExternal part.ref = false

/-- Some type in the list requires the property, as a union of literal texts. -/
def Restores (types : List TypeExpr) (name : String) : Prop :=
  ∃ t ∈ types, ∃ o ∈ t.intersectionMembers, o.tags name = true

/-! The type that a schema has on its own. -/

theorem tags_of_tagMember (options : Options) {v : Variant} (hvalues : v.values ≠ [])
    {members : List Member} (h : tagMember options v ∈ members) :
    (TypeExpr.object members).tags v.propertyName = true := by
  apply List.any_eq_true.mpr
  refine ⟨_, h, ?_⟩
  simp [tagMember, Member.tags, TypeExpr.isTextUnion_ofTexts hvalues]

theorem objectWith?_of_mem {members : List Member} {m : Member} (hm : m ∈ members)
    {index : Option TypeExpr} (hindex : ∀ t, index = some t → ∃ inner, t = .object inner) :
    ∃ t, objectWith? members index = some t ∧ .object members ∈ t.intersectionMembers := by
  obtain ⟨first, rest, rfl⟩ := List.exists_cons_of_ne_nil (List.ne_nil_of_mem hm)
  cases index with
  | none => exact ⟨_, rfl, List.mem_singleton_self _⟩
  | some t =>
    obtain ⟨inner, rfl⟩ := hindex t rfl
    exact ⟨_, rfl, List.mem_cons_self⟩

/-- The type of an object consists of its members and of that for further properties. -/
theorem mem_objectWith? {members : List Member} {index : Option TypeExpr} {t o : TypeExpr}
    (hindex : ∀ t, index = some t → ∃ inner, t = .object inner)
    (h : objectWith? members index = some t) (ho : o ∈ t.intersectionMembers) :
    o = .object members ∨ index = some o := by
  unfold objectWith? at h
  split at h
  · obtain ⟨inner, rfl⟩ := hindex t h
    rw [List.mem_singleton.mp ho]
    exact .inr h
  · cases h
    exact .inl (List.mem_singleton.mp ho)
  · rename_i index _
    obtain ⟨inner, rfl⟩ := hindex index rfl
    cases h
    rcases List.mem_cons.mp ho with rfl | hrest
    · exact .inl rfl
    · rw [List.mem_singleton.mp hrest]
      exact .inr rfl

/-- The members that are written for properties have the names of these. -/
theorem propertyMembers_gives (tag : String) (list : List (String × Option Schema)) :
    Gives σ (propertyMembers body s place tag list) fun members =>
      ∀ m ∈ members, ∀ name, m.tags name = true → name ∈ list.map Prod.fst := by
  induction list with
  | nil => exact .pure nofun
  | cons entry rest ih =>
    obtain ⟨key, property⟩ := entry
    have hrest : Gives σ (propertyMembers body s place tag rest) fun members =>
        ∀ m ∈ members, ∀ name, m.tags name = true → name ∈ key :: rest.map Prod.fst :=
      ih.weaken fun members hmembers m hm name htags =>
        List.mem_cons_of_mem _ (hmembers m hm name htags)
    cases property with
    | none => exact hrest
    | some property =>
      rw [propertyMembers]
      apply (Gives.any _).bind
      intro dropped _
      split
      · exact hrest
      · apply Gives.options_bind
        apply (Gives.any _).bind
        intro t _
        apply hrest.bind
        intro members hmembers
        apply Gives.pure
        intro m hm name htags
        rcases List.mem_cons.mp hm with rfl | hmem
        · simp only [Member.tags, Bool.and_eq_true, decide_eq_true_eq] at htags
          rw [htags.1.1]
          exact List.mem_cons_self
        · exact hmembers m hmem name htags

/-- The type of an object has its tag. Any other property that it requires as a union of literal
texts is one that the schema declares. -/
theorem objectType?_gives :
    Gives σ (objectType? body s place) fun found =>
      (∀ v, tagOf? σ.discriminators s place = some v → v.values ≠ [] →
        Restores found.toList v.propertyName) ∧
      ∀ name, Restores found.toList name →
        name ∈ (entriesOf s.properties).map Prod.fst ∨
          ∃ v, tagOf? σ.discriminators s place = some v ∧ v.propertyName = name := by
  unfold objectType?
  apply Gives.options_bind
  apply Gives.read_bind
  apply (Gives.entries _).bind
  intro listed hlisted
  apply (propertyMembers_gives _ listed).bind
  intro properties hproperties
  apply (Gives.any _).bind
  intro defined _
  apply (Gives.any _).bind
  intro definitions _
  apply (Gives.any _).bind
  intro further _
  apply Gives.pure
  let index := further.map fun t =>
    TypeExpr.object [.indexSignature "key" .string t σ.options.immutable []]
  have hindex : ∀ t, index = some t → ∃ inner, t = .object inner ∧ ∀ name, t.tags name = false := by
    intro t ht
    obtain ⟨inner, -, rfl⟩ := Option.map_eq_some_iff.mp ht
    exact ⟨_, rfl, fun _ => rfl⟩
  have hobject : ∀ t, index = some t → ∃ inner, t = .object inner := fun t ht =>
    (hindex t ht).imp fun inner h => h.1
  constructor
  · intro v hv hvalues
    let members := [tagMember σ.options v] ++ properties ++
      if definitions.isEmpty then [] else [.plain "$defs" (.object definitions)]
    have hmem : tagMember σ.options v ∈ members := List.mem_cons_self
    obtain ⟨t, ht, ho⟩ := objectWith?_of_mem hmem hobject
    refine ⟨t, ?_, _, ho, tags_of_tagMember σ.options hvalues hmem⟩
    rw [hv]
    exact Option.mem_toList.mpr ht
  · rintro name ⟨t, ht, o, ho, htags⟩
    rcases mem_objectWith? hobject (Option.mem_toList.mp ht) ho with rfl | hsome
    · obtain ⟨m, hm, hmtags⟩ := List.any_eq_true.mp htags
      rcases List.mem_append.mp hm with hfirst | hdefs
      · rcases List.mem_append.mp hfirst with htag | hproperty
        · obtain ⟨v, hv, rfl⟩ := List.mem_map.mp htag
          simp only [tagMember, Member.tags, Bool.and_eq_true, decide_eq_true_eq] at hmtags
          exact .inr ⟨v, Option.mem_toList.mp hv, hmtags.1.1⟩
        · exact .inl ((hlisted.map Prod.fst).subset (hproperties m hproperty name hmtags))
      · split at hdefs
        · cases hdefs
        · rw [List.mem_singleton.mp hdefs] at hmtags
          simp [Member.plain, Member.tags, TypeExpr.isTextUnion, TypeExpr.unionMembers,
            TypeExpr.isText] at hmtags
    · obtain ⟨-, -, hnone⟩ := hindex o hsome
      rw [hnone] at htags
      cases htags

/-- Neither an object nor an intersection. -/
def isUncomposed : TypeExpr → Bool
  | .object _ | .intersection _ => false
  | _ => true

theorem tags_of_uncomposed {t o : TypeExpr} (ht : isUncomposed t = true)
    (ho : o ∈ t.intersectionMembers) : o.tags name = false := by
  cases t with
  | object _ | intersection _ => cases ht
  | _ =>
    cases List.mem_singleton.mp ho
    rfl

theorem isUncomposed_unionOf {types : List TypeExpr}
    (h : ∀ t ∈ types, ∀ u ∈ t.unionMembers, isUncomposed u = true) :
    isUncomposed (.unionOf types) = true := by
  unfold TypeExpr.unionOf TypeExpr.joinUnion
  split
  · rfl
  · rename_i u hsingle
    have hu : u ∈ types.flatMap TypeExpr.unionMembers :=
      (TypeExpr.dedupe_sublist [] _).subset (by simp [hsingle])
    obtain ⟨t, ht, hmem⟩ := List.mem_flatMap.mp hu
    exact h t ht u hmem
  · rfl

theorem isUncomposed_arrayType {item t : TypeExpr} {options : Options}
    (h : arrayType s item options = .ok t) : isUncomposed t = true := by
  have htuple (elems : List TypeExpr) : isUncomposed (tupleOf options.immutable elems) = true ∧
      (tupleOf options.immutable elems).unionMembers = [tupleOf options.immutable elems] := by
    unfold tupleOf
    split <;> exact ⟨rfl, rfl⟩
  cases arrayType_form h with
  | plain =>
    cases options.immutable with
    | false => cases item <;> rfl
    | true => rfl
  | tuple _ | openTuple _ => exact (htuple _).1
  | union lengths =>
    apply isUncomposed_unionOf
    intro tuple hmem u hu
    obtain ⟨n, -, rfl⟩ := List.mem_map.mp hmem
    rw [(htuple _).2] at hu
    rw [List.mem_singleton.mp hu]
    exact (htuple _).1

/-- The type that a schema has on its own has its tag. Unless the schema has a list of types, any
other property that this type requires as a union of literal texts is one that it declares. -/
structure OwnTag (σ : Setting) (s : Schema) (place name : String) (core : Option TypeExpr) : Prop
    where
  restored : Tagged σ s place name → Restores core.toList name
  declared : (s.types.getD []).length ≤ 1 → Restores core.toList name →
    name ∈ (entriesOf s.properties).map Prod.fst ∨ Tagged σ s place name

/-- A type other than that of an object has no tag. -/
theorem ownTag_of_uncomposed {t : TypeExpr} (hempty : s.types.getD [] ≠ [])
    (hobject : s.types.getD [] ≠ ["object"])
    (ht : (s.types.getD []).length ≤ 1 → isUncomposed t = true) :
    OwnTag σ s place name (some t) where
  restored h := (h.1.elim hempty hobject).elim
  declared := by
    rintro hsingle ⟨u, hu, o, ho, htags⟩
    rw [List.mem_singleton.mp hu] at ho
    rw [tags_of_uncomposed (ht hsingle) ho] at htags
    cases htags

theorem coreType?_gives (name : String)
    (hvalues : ∀ v, tagOf? σ.discriminators s place = some v → v.values ≠ []) :
    Gives σ (coreType? body s place) (OwnTag σ s place name) := by
  have hobject (htypes : s.types.getD [] = [] ∨ s.types.getD [] = ["object"]) :
      Gives σ (objectType? body s place) (OwnTag σ s place name) := by
    apply objectType?_gives.weaken
    rintro core ⟨htag, hdeclared⟩
    constructor
    · rintro ⟨-, v, hv, rfl⟩
      exact htag v hv (hvalues v hv)
    · intro _ hrestores
      exact (hdeclared name hrestores).imp id fun hv => ⟨htypes, hv⟩
  have hother {n : String} (htypes : s.types.getD [] = [n]) (hn : n ≠ "object") (t : TypeExpr)
      (ht : isUncomposed t = true) : OwnTag σ s place name (some t) :=
    ownTag_of_uncomposed (by simp [htypes]) (by simp [htypes, hn]) fun _ => ht
  unfold coreType?
  split
  · exact hobject (.inl ‹_›)
  · exact hobject (.inr ‹_›)
  · exact .pure (hother ‹_› (by decide) _ rfl)
  · exact .pure (hother ‹_› (by decide) _ rfl)
  · exact .pure (hother ‹_› (by decide) _ rfl)
  · exact .pure (hother ‹_› (by decide) _ rfl)
  · exact .pure (hother ‹_› (by decide) _ rfl)
  · rename_i htypes
    apply (Gives.any _).bind
    intro item _
    apply Gives.options_bind
    apply Gives.map (Gives.ofExcept fun t ht => isUncomposed_arrayType ht)
    intro t ht
    exact hother htypes (by decide) t ht
  · rename_i n hnil hobj _ _ _ _ _ _ htypes
    apply (Gives.any _).bind
    intro _ _
    exact .pure (hother htypes hobj _ rfl)
  · rename_i hnil hobj _ _ _ _ _ _ hone
    apply (Gives.any _).bind
    intro types _
    apply Gives.pure
    apply ownTag_of_uncomposed hnil hobj
    intro hsingle
    match hnames : s.types.getD [] with
    | [] => exact absurd hnames hnil
    | [n] => exact absurd hnames (hone n)
    | _ :: _ :: rest =>
      rw [hnames, List.length_cons, List.length_cons] at hsingle
      omega

/-! The parts of a schema. -/

theorem isSimple_toType (ref : String) : (Reference.toType ref).isSimple = true :=
  Reference.toType_induction (motive := fun t => t.isSimple = true) rfl (fun _ => rfl)
    (fun _ _ _ => rfl) ref

/-- The type of a reference into the document is told apart by its text. -/
theorem refType_gives {α : Type} [Referable α] {inline : α → String → Typing TypeExpr}
    {ref : String} (hlocal : Reference.isExternal ref = false) :
    Gives σ (refType inline ref place) fun t => t.isSimple = true := by
  refine (Gives.refType hlocal place).weaken fun t ht => ?_
  rcases ht with hnamed | hunknown
  · rw [hnamed]
    exact isSimple_toType ref
  · rw [hunknown]
    rfl

/-- So is the type of a schema that is such a reference. -/
theorem typeWith_gives (hσ : HookFree σ) (steps : Nat) {part : Schema} (hpart : part.isRef = true)
    (hlocal : Reference.isExternal part.ref = false) :
    Gives σ (typeWith (schemaBody steps) (some part) place) fun t => t.isSimple = true := by
  apply Gives.congr fun p => exec_typeWith hσ (schemaBody steps) (some part) place p
  cases steps with
  | zero => exact .throw
  | succ steps =>
    dsimp only [schemaBody, bodyStep]
    split
    · split
      · exact .pure rfl
      · exact .pure rfl
    · rw [if_pos hpart]
      exact refType_gives hlocal

theorem partTypes_gives (hσ : HookFree σ) (steps : Nat) (list : List (Option Schema × Nat))
    (hlist : ∀ part i, (some part, i) ∈ list →
      part.isRef = true ∧ Reference.isExternal part.ref = false) :
    Gives σ (partTypes (schemaBody steps) s place list) fun parts =>
      ∀ part ∈ parts, part.type.isSimple = true := by
  induction list with
  | nil => exact .pure nofun
  | cons entry rest ih =>
    have hrest := ih fun part i h => hlist part i (List.mem_cons_of_mem _ h)
    obtain ⟨part, i⟩ := entry
    cases part with
    | none => exact hrest
    | some part =>
      obtain ⟨hpart, hlocal⟩ := hlist part i List.mem_cons_self
      have htype (place : String) :
          Gives σ (partType (schemaBody steps) s part place) fun t => t.isSimple = true := by
        unfold partType
        rw [if_pos hpart]
        apply (typeWith_gives hσ steps hpart hlocal).bind
        intro t ht
        apply (Gives.any _).bind
        intro target _
        have hmissing (keys : List String) : Gives σ
            (if keys.isEmpty then pure t else withRequired t keys) fun t => t.isSimple = true := by
          split
          · exact .pure ht
          · exact (Gives.any _).bind fun _ _ => .pure rfl
        exact hmissing _
      rw [partTypes]
      apply (htype _).bind
      intro t ht
      apply (Gives.any _).bind
      intro tag _
      apply hrest.bind
      intro parts hparts
      apply Gives.pure
      intro written hwritten
      rcases List.mem_cons.mp hwritten with rfl | hmem
      · exact ht
      · exact hparts written hmem

/-! The whole type. -/

theorem isSimple_written {part : Part} (h : part.tag ≠ "") : part.written.isSimple = true := by
  unfold Part.written
  rw [if_neg h]
  rfl

/-- What stays together when alternatives are added. -/
theorem together_compose {o u t : TypeExpr} (h : TypeExpr.Together o u t)
    (hcomplex : o.isSimple = false) (alternatives : List TypeExpr) :
    ∃ t', compose (some t) alternatives = some t' ∧ TypeExpr.Together o u t' := by
  unfold compose
  split
  · exact ⟨t, rfl, h⟩
  · contradiction
  · rename_i heq _
    cases heq
    split
    · exact ⟨_, rfl, h.unionOf List.mem_cons_self⟩
    · exact ⟨_, rfl, h.intersectionOf hcomplex List.mem_cons_self⟩

theorem withAlternatives_gives {o u t : TypeExpr} (h : TypeExpr.Together o u t)
    (hcomplex : o.isSimple = false) :
    Gives σ (withAlternatives body s place (some t)) (TypeExpr.Together o u) := by
  apply (Gives.any _).bind
  intro anyOf _
  apply (Gives.any _).bind
  intro oneOf _
  apply Gives.options_bind
  apply Gives.pure
  obtain ⟨t₁, ht₁, htogether₁⟩ := together_compose h hcomplex anyOf
  obtain ⟨t₂, ht₂, htogether₂⟩ := together_compose htogether₁ hcomplex oneOf
  rw [ht₁, ht₂]
  dsimp only [Option.getD_some]
  split
  · exact htogether₂.unionOf List.mem_cons_self
  · exact htogether₂

/-- A tag and a part without its discriminator property are parts of one intersection. -/
theorem together_whole {c : Composition} {t o : TypeExpr} {part : Part} (ht : t ∈ c.types)
    (ho : o ∈ t.intersectionMembers) (hcomplex : o.isSimple = false) (hpart : part ∈ c.parts)
    (htag : part.tag ≠ "") : ∃ whole, c.whole = some whole ∧
      TypeExpr.Together o part.written whole := by
  have hwritten : part.written ∈ c.types :=
    List.mem_append_right _ (List.mem_map.mpr ⟨part, hpart, rfl⟩)
  have hmember : part.written ∈ part.written.intersectionMembers := by
    unfold Part.written
    rw [if_neg htag]
    exact List.mem_singleton_self _
  refine ⟨.intersectionOf c.types, ?_, ?_⟩
  · unfold Composition.whole
    split
    · rename_i hnil
      rw [hnil] at ht
      cases ht
    · rfl
  · exact TypeExpr.together_joinIntersection (List.mem_flatMap.mpr ⟨t, ht, ho⟩) hcomplex
      (List.mem_flatMap.mpr ⟨_, hwritten, hmember⟩) (isSimple_written htag)

theorem composition_restores {body : SchemaBody}
    (hvalues : ∀ v, tagOf? σ.discriminators s place = some v → v.values ≠ [])
    (htagged : Tagged σ s place name) :
    Gives σ (composition body s place) fun c => Restores c.types name := by
  apply (coreType?_gives name hvalues).bind
  intro core hcore
  apply (Gives.any _).bind
  intro parts _
  apply Gives.pure
  obtain ⟨t, ht, o, ho, htags⟩ := hcore.restored htagged
  exact ⟨t, List.mem_append_left _ ht, o, ho, htags⟩

/-- If a schema does not declare a property itself, the property comes back only as its tag. -/
theorem composition_tagged (hσ : HookFree σ) (steps : Nat)
    (hvalues : ∀ v, tagOf? σ.discriminators s place = some v → v.values ≠ [])
    (hplain : PlainExtension s name) :
    Gives σ (composition (schemaBody steps) s place) fun c =>
      Restores c.types name → Tagged σ s place name := by
  apply (coreType?_gives name hvalues).bind
  intro core hcore
  apply (partTypes_gives hσ steps _ fun part i h =>
    hplain.parts part (List.fst_mem_of_mem_zipIdx h)).bind
  intro parts hparts
  apply Gives.pure
  rintro ⟨t, ht, o, ho, htags⟩
  rcases List.mem_append.mp ht with hmem | hmem
  · rcases hcore.declared hplain.types ⟨t, hmem, o, ho, htags⟩ with hdeclared | htagged
    · exact absurd hdeclared hplain.properties
    · exact htagged
  · obtain ⟨part, hpart, rfl⟩ := List.mem_map.mp hmem
    have hsimple : part.written.isSimple = true := by
      by_cases htag : part.tag = ""
      · unfold Part.written
        rw [if_pos htag]
        exact hparts part hpart
      · exact isSimple_written htag
    rw [TypeExpr.tags_of_simple hsimple ho] at htags
    cases htags

/-- Every tag that the scan of a document finds has a value. -/
theorem values_settingOf (doc : Document) (request : Request) (s : Schema) (place : String) :
    ∀ v, tagOf? (settingOf doc request).discriminators s place = some v → v.values ≠ [] := by
  intro v hv
  have hsound := (Discriminators.scan_kept ⟨doc, request.external⟩ _
    (Source.knows_ofDocument ⟨doc, request.external⟩)).2
  unfold tagOf? at hv
  split at hv
  · exact hsound.values _ v (lookup_mem hv)
  · cases hv

/-- A property that is left out of a part of a schema stands beside that part as a tag, if the
schema is an object without a discriminator and its place is tagged with this property. This is the
only case if the schema does not declare the property itself. -/
theorem omitted_tag_restored {doc : Document} {options : Options}
    {external : Option ExternalResolver} {steps : Nat} {p q r : Progress} {c : Composition}
    {t : TypeExpr} {part : Part}
    (hparts : exec (composition (schemaBody steps) s place)
      (settingOf doc { options, external }) p = (.ok c, q))
    (hrun : exec (composedType (schemaBody steps) s place)
      (settingOf doc { options, external }) p = (.ok t, r))
    (hpart : part ∈ c.parts) (htag : part.tag ≠ "") :
    (Tagged (settingOf doc { options, external }) s place part.tag →
      ∃ o, o.tags part.tag = true ∧ TypeExpr.Together o part.written t) ∧
    (PlainExtension s part.tag → (Restores c.types part.tag ↔
      Tagged (settingOf doc { options, external }) s place part.tag)) := by
  have hvalues := values_settingOf doc { options, external } s place
  have hrestored (htagged : Tagged (settingOf doc { options, external }) s place part.tag) :
      Restores c.types part.tag := (composition_restores hvalues htagged).result p c q hparts
  constructor
  · intro htagged
    obtain ⟨u, hu, o, ho, htags⟩ := hrestored htagged
    have hcomplex := TypeExpr.not_simple_of_tags htags
    obtain ⟨whole, hwhole, htogether⟩ := together_whole hu ho hcomplex hpart htag
    rw [composedType, exec_bind, hparts] at hrun
    dsimp only at hrun
    rw [hwhole] at hrun
    exact ⟨o, htags, (withAlternatives_gives htogether hcomplex).result q t r hrun⟩
  · intro hplain
    exact ⟨(composition_tagged ⟨rfl, rfl⟩ steps hvalues hplain).result p c q hparts, hrestored⟩

theorem exists_result {α : Type} {act : Typing α} {doc : Document} {request : Request}
    {P : α → Prop} [DecidablePred P]
    (h : (runOn act doc request).1.toOption.any (fun x => decide (P x)) = true) :
    ∃ x q, runOn act doc request = (.ok x, q) ∧ P x := by
  obtain ⟨x, hx, hP⟩ := exists_of_any h
  exact ⟨x, _, Prod.ext hx rfl, of_decide_eq_true hP⟩

/-- An object that extends two roots. -/
def twoRoots : Schema where
  types := some ["object"]
  allOf := some [some { ref := "#/components/schemas/Animal" },
    some { ref := "#/components/schemas/Item" }]

/-- The two roots have different discriminator properties. -/
def twoRootsDocument : Document where
  openapi := "3.1.0"
  components := some {
    schemas := some (.ofList [
      ("Animal", some {
        types := some ["object"]
        discriminator := some { propertyName := "kind" }
        properties := some (.ofList [("kind", some { types := some ["string"] })]) }),
      ("Item", some {
        types := some ["object"]
        discriminator := some { propertyName := "sort" }
        properties := some (.ofList [("sort", some { types := some ["string"] })]) }),
      ("Pet", some twoRoots)]) }

/-- The property of the first root is restored. -/
theorem omitted_tag_restored_pet :
    ∃ t r, ∃ part : Part,
      runOn (composedType (schemaBody 2) twoRoots "#/components/schemas/Pet") twoRootsDocument {} =
        (.ok t, r) ∧
      part.tag = "kind" ∧ ∃ o, o.tags "kind" = true ∧ TypeExpr.Together o part.written t := by
  obtain ⟨c, q, hparts, hkind⟩ := @exists_result _
    (composition (schemaBody 2) twoRoots "#/components/schemas/Pet") twoRootsDocument {}
    (fun c => c.parts.any (·.tag = "kind") = true) _ (by decide +kernel)
  obtain ⟨t, r, hrun, -⟩ := @exists_result _
    (composedType (schemaBody 2) twoRoots "#/components/schemas/Pet") twoRootsDocument {}
    (fun _ => True) _ (by decide +kernel)
  obtain ⟨part, hpart, hname⟩ := List.any_eq_true.mp hkind
  have htag : part.tag = "kind" := of_decide_eq_true hname
  have htagged : Tagged (settingOf twoRootsDocument {}) twoRoots "#/components/schemas/Pet"
      part.tag := by
    rw [htag]
    refine ⟨.inr rfl, ?_⟩
    have hvariant : (tagOf? (settingOf twoRootsDocument {}).discriminators twoRoots
        "#/components/schemas/Pet").any (·.propertyName = "kind") = true := by decide +kernel
    cases hv : tagOf? (settingOf twoRootsDocument {}).discriminators twoRoots
        "#/components/schemas/Pet" with
    | none =>
      rw [hv] at hvariant
      cases hvariant
    | some v =>
      rw [hv] at hvariant
      exact ⟨v, rfl, of_decide_eq_true hvariant⟩
  refine ⟨t, r, part, hrun, htag, ?_⟩
  rw [← htag]
  exact (omitted_tag_restored hparts hrun hpart (by rw [htag]; decide)).1 htagged

/-- The property of the second root is left out, and nothing stands in its place. -/
theorem second_tag_lost :
    ∃ parts r,
      runOn (composedType (schemaBody 2) twoRoots "#/components/schemas/Pet") twoRootsDocument {} =
        (.ok (.intersection parts), r) ∧
      "Omit<components[\"schemas\"][\"Item\"], \"sort\">" ∈ parts.map TypeExpr.render ∧
      ∀ o ∈ parts, o.tags "sort" = false := by
  obtain ⟨t, r, hrun, hmany, hlost⟩ := @exists_result _
    (composedType (schemaBody 2) twoRoots "#/components/schemas/Pet") twoRootsDocument {}
    (fun t => t.intersectionMembers.length = 3 ∧
      "Omit<components[\"schemas\"][\"Item\"], \"sort\">" ∈
        t.intersectionMembers.map TypeExpr.render ∧
      ∀ o ∈ t.intersectionMembers, o.tags "sort" = false) _ (by decide +kernel)
  cases t with
  | intersection parts => exact ⟨parts, r, hrun, hlost⟩
  | _ => cases hmany

end Typing

end ApiTypes
