import ApiTypes.Proofs.Typing.Parallel

/-!
The types of schemas that are alike. Each rule gives the same type for both, as long as the schemas
below are given the same types; the knot is then tied by induction on the number of unfoldings.
-/

namespace ApiTypes

variable {sorted : Bool}

/-- Two maps with related values have the same keys. -/
theorem EntriesRel.any_key {α β : Type} {R : α → β → Prop} {l : List (String × α)}
    {l' : List (String × β)} (h : EntriesRel sorted R l l') (key : String) :
    l.any (·.1 = key) = l'.any (·.1 = key) := by
  have hany {γ : Type} (l : List (String × γ)) :
      l.any (·.1 = key) = !(valuesAt key l).isEmpty := by
    induction l with
    | nil => rfl
    | cons entry rest ih =>
      rw [List.any_cons, valuesAt_cons, ih]
      by_cases hkey : entry.1 = key <;> simp [hkey]
  rw [hany, hany]
  have hvalues := h.keyed key
  generalize valuesAt key l = values, valuesAt key l' = values' at hvalues
  cases hvalues <;> rfl

namespace Typing

variable {σ : Setting} {O : OperationRegistry → OperationRegistry → Prop}

theorem enumType_parallel {s t : Schema} (h : s.Alike σ.options.alphabetize t) (place : String) :
    Parallel σ O (enumType s place) (enumType t place) Eq := by
  rw [h.congr (enumType · place) fun _ => rfl]
  apply Parallel.options_bind
  dsimp only
  split
  · apply Parallel.get_bind
    intro p p' hp
    rw [hp.enums]
    refine Parallel.bind_eq (.modify fun q q' hq => ?_) fun _ => .pure rfl
    exact { hq with enums := rfl }
  · exact .pure rfl

theorem isAlternative_parallel (name : String) {l l' : List (Option Schema)}
    (h : List.Forall₂ (Option.Rel (Schema.Alike sorted)) l l') :
    Parallel σ O (isAlternative name l) (isAlternative name l') Eq := by
  induction h with
  | nil => exact .pure rfl
  | cons hst _ ih =>
    cases hst with
    | none => exact .throw _
    | some hst =>
      rw [isAlternative, isAlternative, hst.congr Schema.singleType? fun _ => rfl]
      split
      · exact .pure rfl
      · exact ih

theorem isLeftToAlternatives_parallel {s t : Schema} (h : s.Alike sorted t) (name : String) :
    Parallel σ O (isLeftToAlternatives s name) (isLeftToAlternatives t name) Eq := by
  unfold isLeftToAlternatives
  split
  · exact isAlternative_parallel name h.step.oneOf.members
  · exact .pure rfl

theorem isDeprecated_parallel {s t : Schema} (h : s.Alike σ.options.alphabetize t) :
    Parallel σ O (isDeprecated s) (isDeprecated t) Eq := by
  have hdeprecated {s t : Schema} (h : s.Alike σ.options.alphabetize t) :
      s.deprecated = t.deprecated := h.congr Schema.deprecated fun _ => rfl
  unfold isDeprecated
  rw [h.congr Schema.isRef fun _ => rfl, h.congr Schema.ref fun _ => rfl, hdeprecated h]
  split
  · apply (Parallel.find? t.ref).bind
    intro found found' hfound
    cases hfound with
    | none => exact .pure rfl
    | some h => exact .pure (hdeprecated h)
  · exact .pure rfl

theorem isDropped_parallel (tag name : String) {s t : Schema}
    (h : s.Alike σ.options.alphabetize t) :
    Parallel σ O (isDropped tag name s) (isDropped tag name t) Eq := by
  apply Parallel.options_bind
  split
  · exact isDeprecated_parallel h
  · exact .pure rfl

theorem partTag_parallel {s t : Schema} (h : s.Alike σ.options.alphabetize t) :
    Parallel σ O (partTag s) (partTag t) Eq := by
  rw [h.congr partTag fun _ => rfl]
  unfold partTag
  split
  · apply Parallel.bind_eq (.resolving (Resolver.target_agree t.ref))
    intro target
    exact .read_bind (.pure rfl)
  · exact .pure rfl

/-- Schemas that are alike, without their compositions and for one of their types. -/
theorem singled_alike {s t : Schema} (h : s.Alike sorted t) (name : String) :
    (singled s name).Alike sorted (singled t name) := by
  apply Schema.Alike.of_step
  have hbare : (singled s name).bare = (singled t name).bare := by
    change { s.bare with types := some [name], nullable := false : Schema } =
      { t.bare with types := some [name], nullable := false }
    rw [h.step.bare]
  exact { h.step with bare := hbare, allOf := .none, oneOf := .none, anyOf := .none }

/-- A part with other required keys. -/
theorem required_alike {s t : Schema} (h : s.Alike sorted t) (required : Option (List String)) :
    { s with required := required : Schema }.Alike sorted { t with required := required } := by
  apply Schema.Alike.of_step
  have hbare : { s with required := required : Schema }.bare =
      { t with required := required : Schema }.bare := by
    change { s.bare with required := required : Schema } = { t.bare with required := required }
    rw [h.step.bare]
  exact { h.step with bare := hbare }

section Schemas

variable (hσ : HookFree σ) {body : SchemaBody}
  (hbody : ∀ {s t : Option Schema} (place : String),
    Option.Rel (Schema.Alike σ.options.alphabetize) s t →
      Parallel σ O (body s place) (body t place) Eq)

include hσ hbody

theorem hookedType_parallel {s t : Option Schema} (place : String)
    (h : Option.Rel (Schema.Alike σ.options.alphabetize) s t) :
    Parallel σ O (hookedType body s place) (hookedType body t place) Eq :=
  .congr (exec_hookedType hσ body s place) (exec_hookedType hσ body t place)
    ((hbody place h).map_eq _)

theorem typeWith_parallel {s t : Option Schema} (place : String)
    (h : Option.Rel (Schema.Alike σ.options.alphabetize) s t) :
    Parallel σ O (typeWith body s place) (typeWith body t place) Eq :=
  .congr (exec_typeWith hσ body s place) (exec_typeWith hσ body t place) (hbody place h)

theorem unfinishedWith_parallel {s t : Option Schema} (place : String)
    (h : Option.Rel (Schema.Alike σ.options.alphabetize) s t) :
    Parallel σ O (unfinishedWith body s place) (unfinishedWith body t place) Eq :=
  .congr (exec_unfinishedWith hσ body s place) (exec_unfinishedWith hσ body t place)
    (hbody place h)

theorem typeListMembers_parallel {s t : Schema} (h : s.Alike σ.options.alphabetize t)
    (place : String) (names : List String) :
    Parallel σ O (typeListMembers body s place names) (typeListMembers body t place names) Eq := by
  induction names with
  | nil => exact .pure rfl
  | cons name rest ih =>
    have hsingled : Parallel σ O (singledType body s place name) (singledType body t place name)
        Eq := by
      unfold singledType
      split
      · exact .pure rfl
      · exact unfinishedWith_parallel hσ hbody place (.some (singled_alike h name))
    rw [typeListMembers, typeListMembers]
    apply (isLeftToAlternatives_parallel h name).bind_eq
    intro left
    split
    · exact ih
    · exact hsingled.bind_eq fun t => ih.bind_eq fun types => .pure rfl

theorem typesAt_parallel (place : String) {l l' : List (Option Schema × Nat)}
    (h : List.Forall₂ (fun a b => Option.Rel (Schema.Alike σ.options.alphabetize) a.1 b.1 ∧
      a.2 = b.2) l l') :
    Parallel σ O (typesAt body place l) (typesAt body place l') Eq := by
  induction h with
  | nil => exact .pure rfl
  | @cons a b _ _ hab _ ih =>
    obtain ⟨s, i⟩ := a
    obtain ⟨t, j⟩ := b
    obtain ⟨hst, rfl⟩ := hab
    exact (typeWith_parallel hσ hbody _ hst).bind_eq fun _ => ih.bind_eq fun _ => .pure rfl

theorem itemType_parallel {s t : Schema} (h : s.Alike σ.options.alphabetize t) (place : String) :
    Parallel σ O (itemType body s place) (itemType body t place) Eq := by
  have hprefix := h.step.prefixItems
  have hitems := h.step.items
  unfold itemType
  generalize s.prefixItems = prefixItems, t.prefixItems = prefixItems' at hprefix
  generalize s.items = items, t.items = items' at hitems
  cases hprefix with
  | some hprefix =>
    exact (typesAt_parallel hσ hbody _ (Index.forall₂_zipIdx hprefix 0)).map_eq _
  | none =>
    cases hitems with
    | none => exact (Parallel.warn _ _ _).bind_eq fun _ => .pure rfl
    | some hitems =>
      cases hitems with
      | single hst => exact typeWith_parallel hσ hbody _ (.some hst)
      | tuple hlist =>
        exact (typesAt_parallel hσ hbody _ (Index.forall₂_zipIdx hlist 0)).map_eq _

theorem propertyMembers_parallel {s t : Schema} (h : s.Alike σ.options.alphabetize t)
    (place tag : String) {l l' : List (String × Option Schema)}
    (hl : List.Forall₂ (EntryRel (Option.Rel (Schema.Alike σ.options.alphabetize))) l l') :
    Parallel σ O (propertyMembers body s place tag l) (propertyMembers body t place tag l') Eq := by
  induction hl with
  | nil => exact .pure rfl
  | @cons a b _ _ hab _ ih =>
    obtain ⟨name, property, property', rfl, rfl, hproperty⟩ := hab.split
    cases hproperty with
    | none => exact ih
    | @some c d hcd =>
      rw [propertyMembers, propertyMembers]
      apply (isDropped_parallel tag name hcd).bind_eq
      intro dropped
      split
      · exact ih
      · apply Parallel.options_bind
        apply (hookedType_parallel hσ hbody _ (.some hcd)).bind_eq
        intro typed
        have hoptional : isOptionalProperty σ.options s place name c =
            isOptionalProperty σ.options t place name d :=
          (h.congr (isOptionalProperty σ.options · place name c) fun _ => rfl).trans
            (hcd.congr (isOptionalProperty σ.options t place name) fun _ => rfl)
        rw [hoptional, hcd.congr Schema.readOnly fun _ => rfl, hcd.congr Schema.doc fun _ => rfl]
        exact ih.bind_eq fun members => .pure rfl

theorem definitionMembers_parallel (place : String) {l l' : List (String × Option Schema)}
    (hl : List.Forall₂ (EntryRel (Option.Rel (Schema.Alike σ.options.alphabetize))) l l') :
    Parallel σ O (definitionMembers body place l) (definitionMembers body place l') Eq := by
  induction hl with
  | nil => exact .pure rfl
  | @cons a b _ _ hab _ ih =>
    obtain ⟨name, c, d, rfl, rfl, hcd⟩ := hab.split
    apply (typeWith_parallel hσ hbody _ hcd).bind_eq
    intro typed
    apply Parallel.options_bind
    have hreadOnly : c.any (·.readOnly) = d.any (·.readOnly) := by
      cases hcd with
      | none => rfl
      | some hcd => exact hcd.congr Schema.readOnly fun _ => rfl
    have hdoc : c.elim [] Schema.doc = d.elim [] Schema.doc := by
      cases hcd with
      | none => rfl
      | some hcd => exact hcd.congr Schema.doc fun _ => rfl
    rw [hreadOnly, hdoc]
    exact ih.bind_eq fun members => .pure rfl

theorem indexType?_parallel {s t : Schema} (h : s.Alike σ.options.alphabetize t)
    (place : String) :
    Parallel σ O (indexType? body s place) (indexType? body t place) Eq := by
  have hfurther := h.step.additionalProperties
  have hempty := EntriesRel.isEmpty_eq h.step.properties
  have htype : s.hasType "object" = t.hasType "object" :=
    h.congr (Schema.hasType · "object") fun _ => rfl
  unfold indexType?
  rw [hempty, htype]
  generalize s.additionalProperties = further, t.additionalProperties = further' at hfurther
  cases hfurther with
  | none => exact .options_bind (.pure rfl)
  | some hcd =>
    dsimp only
    rw [hcd.congr Schema.bool fun _ => rfl]
    split
    · exact .pure rfl
    · exact (typeWith_parallel hσ hbody _ (.some hcd)).map_eq _

theorem objectType?_parallel {s t : Schema} (h : s.Alike σ.options.alphabetize t)
    (place : String) :
    Parallel σ O (objectType? body s place) (objectType? body t place) Eq := by
  unfold objectType?
  apply Parallel.options_bind
  apply Parallel.read_bind
  rw [h.congr (tagOf? σ.discriminators · place) fun _ => rfl]
  apply (Parallel.entries h.step.properties).bind
  intro listed listed' hlisted
  apply (propertyMembers_parallel hσ hbody h place _ hlisted).bind_eq
  intro properties
  apply (Parallel.entries h.step.defs).bind
  intro defined defined' hdefined
  apply (definitionMembers_parallel hσ hbody place hdefined).bind_eq
  intro definitions
  exact (indexType?_parallel hσ hbody h place).bind_eq fun index => .pure rfl

theorem coreType?_parallel {s t : Schema} (h : s.Alike σ.options.alphabetize t)
    (place : String) :
    Parallel σ O (coreType? body s place) (coreType? body t place) Eq := by
  unfold coreType?
  rw [h.congr Schema.types fun _ => rfl]
  split
  · exact objectType?_parallel hσ hbody h place
  · exact objectType?_parallel hσ hbody h place
  · exact .pure rfl
  · exact .pure rfl
  · exact .pure rfl
  · exact .pure rfl
  · exact .pure rfl
  · apply (itemType_parallel hσ hbody h place).bind_eq
    intro item
    apply Parallel.options_bind
    rw [h.congr (arrayType · item σ.options) fun _ => rfl]
    exact (Parallel.ofExcept _).map_eq _
  · exact (Parallel.warn _ _ _).bind_eq fun _ => .pure rfl
  · exact (typeListMembers_parallel hσ hbody h place _).bind_eq fun _ => .pure rfl

theorem referencedPart_parallel {s t part part' : Schema} (h : s.Alike σ.options.alphabetize t)
    (hpart : part.Alike σ.options.alphabetize part') (place : String) :
    Parallel σ O (referencedPart body s part place) (referencedPart body t part' place) Eq := by
  unfold referencedPart
  apply (typeWith_parallel hσ hbody place (.some hpart)).bind_eq
  intro typed
  have hmissing (keys : List String) :
      Parallel σ O (if keys.isEmpty then pure typed else withRequired typed keys)
        (if keys.isEmpty then pure typed else withRequired typed keys) Eq := by
    split
    · exact .pure rfl
    · refine Parallel.bind_eq (.modify fun q q' hq => ?_) fun _ => .pure rfl
      exact { hq with usesWithRequired := rfl }
  rw [hpart.congr Schema.ref fun _ => rfl, h.congr Schema.required fun _ => rfl]
  apply (Parallel.find? part'.ref).bind
  intro found found' hfound
  cases hfound with
  | none => exact hmissing []
  | @some c d hcd =>
    have hkeys (key : String) :
        ((entriesOf c.properties).any (·.1 = key) && !c.isRequired key) =
          ((entriesOf d.properties).any (·.1 = key) && !d.isRequired key) := by
      rw [EntriesRel.any_key (Schema.Alike.step hcd).properties,
        Schema.Alike.congr hcd (Schema.isRequired · key) fun _ => rfl]
    simp only [hkeys]
    exact hmissing _

theorem partType_parallel {s t part part' : Schema} (h : s.Alike σ.options.alphabetize t)
    (hpart : part.Alike σ.options.alphabetize part') (place : String) :
    Parallel σ O (partType body s part place) (partType body t part' place) Eq := by
  unfold partType
  rw [hpart.congr Schema.isRef fun _ => rfl]
  split
  · exact referencedPart_parallel hσ hbody h hpart place
  · unfold inlinePart
    rw [hpart.congr Schema.required fun _ => rfl, h.congr Schema.required fun _ => rfl]
    exact typeWith_parallel hσ hbody place (.some (required_alike hpart _))

theorem partTypes_parallel {s t : Schema} (h : s.Alike σ.options.alphabetize t) (place : String)
    {l l' : List (Option Schema × Nat)}
    (hl : List.Forall₂ (fun a b => Option.Rel (Schema.Alike σ.options.alphabetize) a.1 b.1 ∧
      a.2 = b.2) l l') :
    Parallel σ O (partTypes body s place l) (partTypes body t place l') Eq := by
  induction hl with
  | nil => exact .pure rfl
  | @cons a b _ _ hab _ ih =>
    obtain ⟨part, i⟩ := a
    obtain ⟨part', j⟩ := b
    obtain ⟨hpart, rfl⟩ := hab
    dsimp only at hpart
    cases hpart with
    | none => exact ih
    | some hpart =>
      rw [partTypes, partTypes]
      apply (partType_parallel hσ hbody h hpart _).bind_eq
      intro typed
      apply (partTag_parallel hpart).bind_eq
      intro tag
      exact ih.bind_eq fun parts => .pure rfl

theorem composedType_parallel {s t : Schema} (h : s.Alike σ.options.alphabetize t)
    (place : String) :
    Parallel σ O (composedType body s place) (composedType body t place) Eq := by
  have hcomposition :
      Parallel σ O (composition body s place) (composition body t place) Eq := by
    apply (coreType?_parallel hσ hbody h place).bind_eq
    intro core
    have hparts := Index.forall₂_zipIdx h.step.allOf.members 0
    exact (partTypes_parallel hσ hbody h place hparts).bind_eq fun parts => .pure rfl
  apply hcomposition.bind_eq
  intro c
  unfold withAlternatives
  apply (typesAt_parallel hσ hbody _ (Index.forall₂_zipIdx h.step.anyOf.members 0)).bind_eq
  intro anyOf
  apply (typesAt_parallel hσ hbody _ (Index.forall₂_zipIdx h.step.oneOf.members 0)).bind_eq
  intro oneOf
  apply Parallel.options_bind
  rw [h.congr (bareType σ.options) fun _ => rfl, h.congr Schema.nullable fun _ => rfl,
    h.congr Schema.hasDefault fun _ => rfl]
  exact .pure rfl

theorem bodyStep_parallel {s t : Option Schema} (place : String)
    (h : Option.Rel (Schema.Alike σ.options.alphabetize) s t) :
    Parallel σ O (bodyStep body s place) (bodyStep body t place) Eq := by
  cases h with
  | none => exact .pure rfl
  | @some s t h =>
    have henum : isEnumSchema s = isEnumSchema t := by
      have hfurther := h.step.additionalProperties
      unfold isEnumSchema
      rw [h.congr Schema.enum fun _ => rfl, h.congr (Schema.hasType · "object") fun _ => rfl,
        EntriesRel.isEmpty_eq h.step.properties]
      generalize s.additionalProperties = further, t.additionalProperties = further' at hfurther
      cases hfurther <;> rfl
    dsimp only [bodyStep]
    rw [h.congr Schema.bool fun _ => rfl, h.congr Schema.isRef fun _ => rfl,
      h.congr Schema.ref fun _ => rfl, henum, h.congr Schema.hasConst fun _ => rfl,
      h.congr Schema.const fun _ => rfl]
    split
    · exact .pure rfl
    · split
      · apply refType_parallel
        exact fun x y place hxy => typeWith_parallel hσ hbody place (.some hxy)
      · split
        · exact enumType_parallel h place
        · split
          · exact .pure rfl
          · exact composedType_parallel hσ hbody h place

end Schemas

/-- Schemas that are alike are unfolded as many times. -/
theorem unfoldings_bind_parallel {s t : Option Schema}
    (h : Option.Rel (Schema.Alike σ.options.alphabetize) s t) {next next' : Nat → Typing TypeExpr}
    (hnext : ∀ steps, Parallel σ O (next steps) (next' steps) Eq) :
    Parallel σ O (unfoldings s >>= next) (unfoldings t >>= next') Eq := by
  have hlength : s.elim 0 (·.walk.length) = t.elim 0 (·.walk.length) := by
    cases h with
    | none => rfl
    | some h => exact Index.walk_length_eq h
  unfold unfoldings
  rw [bind_assoc, bind_assoc]
  apply Parallel.get_bind
  intro p p' hp
  dsimp only
  rw [hlength, hp.resolver.external, hp.resolver.index.length_eq]
  exact hnext _

section Types

variable (hσ : HookFree σ)

include hσ

theorem schemaBody_parallel (steps : Nat) {s t : Option Schema} (place : String)
    (h : Option.Rel (Schema.Alike σ.options.alphabetize) s t) :
    Parallel σ O (schemaBody steps s place) (schemaBody steps t place) Eq := by
  induction steps generalizing s t place with
  | zero => exact .throw _
  | succ steps ih => exact bodyStep_parallel hσ ih place h

theorem schemaType_parallel {s t : Option Schema} (place : String)
    (h : Option.Rel (Schema.Alike σ.options.alphabetize) s t) :
    Parallel σ O (schemaType s place) (schemaType t place) Eq :=
  unfoldings_bind_parallel h fun steps =>
    typeWith_parallel hσ (schemaBody_parallel hσ steps) place h

theorem unfinishedType_parallel {s t : Option Schema} (place : String)
    (h : Option.Rel (Schema.Alike σ.options.alphabetize) s t) :
    Parallel σ O (unfinishedType s place) (unfinishedType t place) Eq :=
  unfoldings_bind_parallel h fun steps =>
    unfinishedWith_parallel hσ (schemaBody_parallel hσ steps) place h

theorem schemaRefType_parallel (ref place : String) :
    Parallel σ O (schemaRefType ref place) (schemaRefType ref place) Eq :=
  refType_parallel (fun _ _ place h => schemaType_parallel hσ place (.some h)) ref place

end Types

end Typing

end ApiTypes
