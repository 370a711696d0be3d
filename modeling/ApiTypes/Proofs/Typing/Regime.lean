import ApiTypes.Proofs.Typing.Joins
import ApiTypes.Proofs.Typing.SchemaTyped

/-!
One walk over the rules for the schemas of a family, without hooks. The family goes down to the
schemas below its schemas and to the targets of their references, and the rules keep a property of
types for its schemas. Then each of its schemas has a type with the property.

Unlike a judgement, which holds of the types of all schemas, this looks at the schemas that are
typed.
-/

namespace ApiTypes

namespace Schema

/-- Something holds of a schema and of all schemas below it. -/
def AllBelow (P : Schema → Prop) (s : Schema) : Prop := ∀ t ∈ s.walk, P t

namespace AllBelow

variable {P : Schema → Prop} {s : Schema}

theorem self (h : s.AllBelow P) : P s := h s (by rw [walk_eq]; exact List.mem_cons_self)

theorem intro (hs : P s)
    (hchildren : ∀ path child, (path, some child) ∈ s.children → child.AllBelow P) :
    s.AllBelow P := by
  intro t ht
  rw [walk_eq] at ht
  rcases List.mem_cons.mp ht with rfl | hbelow
  · exact hs
  · obtain ⟨⟨path, child⟩, hchild, hwalk⟩ := List.mem_flatMap.mp hbelow
    cases child with
    | none => cases hwalk
    | some child => exact hchildren path child hchild t hwalk

theorem of_children {t : Schema} (h : s.AllBelow P) (ht : P t)
    (hchildren : t.children.Sublist s.children) : t.AllBelow P := by
  intro u hu
  rw [walk_eq] at hu
  rcases List.mem_cons.mp hu with rfl | hbelow
  · exact ht
  · apply h
    rw [walk_eq]
    exact List.mem_cons_of_mem _ ((hchildren.flatMap _).subset hbelow)

theorem held {child : Schema} (h : s.AllBelow P) (hbool : s.bool = none)
    (hchild : s.Holds child) : child.AllBelow P := by
  obtain ⟨path, hpath⟩ := hchild
  have hinner : s.inner = s.children := by
    cases s
    cases hbool
    rfl
  intro t ht
  apply h
  rw [walk_eq]
  exact List.mem_cons_of_mem _ (List.mem_flatMap.mpr ⟨(path, some child), hinner ▸ hpath, ht⟩)

end AllBelow

end Schema

namespace Typing

/-- A set of schemas that goes down to the schemas below its schemas, also in the ways in which the
rules see these, and to the targets of their references. -/
structure Family (σ : Setting) (In : Schema → Prop) : Prop where
  held {s child : Schema} : In s → s.bool = none → s.Holds child → In child
  required {s : Schema} : In s → ∀ keys, In { s with required := keys }
  singled {s : Schema} : In s → ∀ name, In (singled s name)
  target {s x : Schema} {p q : Progress} : In s → Reference.isExternal s.ref = true →
    exec (find? Schema s.ref) σ p = (.ok (some x), q) → In x

/-- What holds of schemas all the way down makes a family, if it looks neither at the required keys
nor at the type names nor at the compositions and allows no reference into another document. -/
theorem family_allBelow {σ : Setting} {P : Schema → Prop}
    (hrequired : ∀ s, P s → ∀ keys, P { s with required := keys })
    (hsingled : ∀ s, P s → ∀ name, P (singled s name))
    (hlocal : ∀ s, P s → Reference.isExternal s.ref = false) : Family σ (Schema.AllBelow P) where
  held := Schema.AllBelow.held
  required hs keys := hs.of_children (hrequired _ hs.self keys) (List.Sublist.refl _)
  singled hs name := hs.of_children (hsingled _ hs.self name) (children_singled _ name)
  target hs hexternal _ := by
    rw [hlocal _ hs.self] at hexternal
    cases hexternal

/-- A family of schemas, and properties of types and of members that the rules keep for it. -/
structure Regime (σ : Setting) (In : Schema → Prop) (Good : TypeExpr → Prop)
    (Written : Member → Prop) : Prop extends Family σ In where
  joinable : TypeExpr.Joinable Good
  named (name : String) : Good (.named name)
  toType (ref : String) : Good (Reference.toType ref)
  requiring {t : TypeExpr} (keys : List String) : Good t →
    Good (.ref "WithRequired" [t, .unionOf (keys.map .ofText)])
  value {s : Schema} {v : Yaml.Value} : In s → v ∈ s.enum.getD [] → Good (.ofValue v)
  constant {s : Schema} : In s → s.hasConst = true → Good (.ofValue s.const)
  array {s : Schema} {item t : TypeExpr} : In s → Good item →
    arrayType s item σ.options = .ok t → Good t
  positional {s : Schema} {schemas : List (Option Schema)} {types : List TypeExpr} {t : TypeExpr} :
    In s → s.prefixItems = some schemas ∨ s.items = some (.tuple schemas) →
      (∀ u ∈ types, Good u) → arrayType s (.tuple types) σ.options = .ok t → Good t
  object {members : List Member} : (∀ m ∈ members, Written m) → Good (.object members)
  tag (v : Variant) : Written (tagMember σ.options v)
  property {name : String} {isOptional isReadonly : Bool} {t : TypeExpr} {doc : List String} :
    Good t → Written (.property name isOptional (σ.options.immutable || isReadonly) t doc)
  definitions {s : Schema} {members : List Member} : In s → entriesOf s.defs ≠ [] →
    (∀ m ∈ members, Written m) → Written (.plain "$defs" (.object members))
  index {t : TypeExpr} : Good t → Written (.indexSignature "key" .string t σ.options.immutable [])

variable {σ : Setting} {In : Schema → Prop} {Good : TypeExpr → Prop} {Written : Member → Prop}
  {body : SchemaBody} {s : Schema}

namespace Regime

theorem enumType (hR : Regime σ In Good Written) (hs : In s) (place : String) :
    Gives σ (enumType s place) Good := by
  refine .options_bind ?_
  dsimp only
  split
  · refine .get_bind fun p => (Gives.any _).bind fun _ _ => .pure ?_
    split
    · exact hR.joinable.withNull (hR.named _)
    · exact hR.named _
  · refine .pure (hR.joinable.values (fun t ht => ?_) _)
    obtain ⟨v, hv, rfl⟩ := List.mem_map.mp ht
    exact hR.value hs hv

/-- A reference into another document leads to a schema of the family. -/
theorem refType (hR : Regime σ In Good Written) {inline : Schema → String → Typing TypeExpr}
    (hs : In s) (place : String)
    (hinline : ∀ x place, In x → Gives σ (inline x place) Good) :
    Gives σ (refType inline s.ref place) Good := by
  have hunresolved : Gives σ (unresolved s.ref place) Good :=
    (Gives.unresolved s.ref place).weaken fun t ht => ht ▸ hR.joinable.keyword _
  unfold Typing.refType
  split
  · refine .get_bind fun p => ?_
    split
    · exact .pure (hR.toType s.ref)
    · exact hunresolved
  · rename_i hexternal
    refine .get_bind fun p => ?_
    split
    · exact (Gives.any _).bind fun _ _ => .pure (hR.joinable.keyword _)
    · have hfound : Gives σ (find? Schema s.ref) fun found => ∀ x ∈ found, In x := by
        constructor
        rintro p found q hrun x ⟨⟩
        exact hR.target hs (by simpa using hexternal) hrun
      refine hfound.bind fun found hfound => ?_
      cases found with
      | none => exact hunresolved
      | some x => exact .inliningRef (hinline x _ (hfound x rfl))

section Rules

variable (hσ : HookFree σ) (hR : Regime σ In Good Written)
  (hbody : ∀ s place, (∀ x ∈ s, In x) → Gives σ (body s place) Good)

include hσ hbody

omit hR in
theorem typeWith {s : Option Schema} (hs : ∀ x ∈ s, In x) (place : String) :
    Gives σ (typeWith body s place) Good :=
  .congr (exec_typeWith hσ body s place) (hbody s place hs)

omit hR in
theorem typesAt (place : String) (list : List (Option Schema × Nat))
    (hlist : ∀ x i, (some x, i) ∈ list → In x) :
    Gives σ (typesAt body place list) fun types => ∀ t ∈ types, Good t := by
  induction list with
  | nil => exact .pure nofun
  | cons entry rest ih =>
    obtain ⟨s, i⟩ := entry
    have hs : ∀ x ∈ s, In x := by
      rintro x ⟨⟩
      exact hlist x i List.mem_cons_self
    refine (typeWith hσ hbody hs _).bind fun t ht => ?_
    refine (ih fun x j hx => hlist x j (List.mem_cons_of_mem _ hx)).bind fun types htypes => ?_
    exact .pure (List.forall_mem_cons.mpr ⟨ht, htypes⟩)

omit hR in
/-- The schemas of a list that the schema holds. -/
theorem typesAt_zipIdx (place : String) {schemas : List (Option Schema)}
    (hlist : ∀ x, some x ∈ schemas → In x) :
    Gives σ (Typing.typesAt body place schemas.zipIdx) fun types => ∀ t ∈ types, Good t :=
  typesAt hσ hbody place _ fun x _ hx => hlist x (List.fst_mem_of_mem_zipIdx hx)

include hR

theorem typeListMembers (hs : In s) (place : String) (names : List String) :
    Gives σ (typeListMembers body s place names) fun types => ∀ t ∈ types, Good t := by
  induction names with
  | nil => exact .pure nofun
  | cons name rest ih =>
    have hsingled : Gives σ (singledType body s place name) Good := by
      unfold singledType
      split
      · exact .pure (hR.joinable.keyword _)
      · refine .congr (exec_unfinishedWith hσ body _ place) (hbody _ place ?_)
        rintro x ⟨⟩
        exact hR.singled hs name
    rw [Typing.typeListMembers]
    refine (Gives.any _).bind fun left _ => ?_
    split
    · exact ih
    · refine hsingled.bind fun t ht => ih.bind fun types htypes => ?_
      exact .pure (List.forall_mem_cons.mpr ⟨ht, htypes⟩)

theorem partType (s : Schema) {part : Schema} (hpart : In part) (place : String) :
    Gives σ (partType body s part place) Good := by
  unfold Typing.partType
  split
  · have hwhole : ∀ x ∈ some part, In x := by
      rintro x ⟨⟩
      exact hpart
    refine (typeWith hσ hbody hwhole place).bind fun t ht => (Gives.any _).bind fun target _ => ?_
    extract_lets missing
    split
    · exact .pure ht
    · exact (Gives.any _).bind fun _ _ => .pure (hR.requiring _ ht)
  · refine typeWith hσ hbody ?_ place
    rintro x ⟨⟩
    exact hR.required hpart _

theorem partTypes (s : Schema) (place : String) (list : List (Option Schema × Nat))
    (hlist : ∀ x i, (some x, i) ∈ list → In x) :
    Gives σ (partTypes body s place list) fun parts => ∀ part ∈ parts, Good part.type := by
  induction list with
  | nil => exact .pure nofun
  | cons entry rest ih =>
    have hrest := ih fun x i hx => hlist x i (List.mem_cons_of_mem _ hx)
    obtain ⟨part, i⟩ := entry
    cases part with
    | none => exact hrest
    | some part =>
      rw [Typing.partTypes]
      have hpart : In part := hlist part i List.mem_cons_self
      refine (partType hσ hR hbody s hpart _).bind fun t ht => ?_
      refine (Gives.any _).bind fun tag _ => hrest.bind fun parts hparts => .pure ?_
      exact List.forall_mem_cons.mpr ⟨ht, hparts⟩

theorem propertyMembers (s : Schema) (place tag : String) (list : List (String × Option Schema))
    (hlist : ∀ name x, (name, some x) ∈ list → In x) :
    Gives σ (propertyMembers body s place tag list) fun members => ∀ m ∈ members, Written m := by
  induction list with
  | nil => exact .pure nofun
  | cons entry rest ih =>
    have hrest := ih fun name x hx => hlist name x (List.mem_cons_of_mem _ hx)
    obtain ⟨name, property⟩ := entry
    cases property with
    | none => exact hrest
    | some property =>
      rw [Typing.propertyMembers]
      refine (Gives.any _).bind fun dropped _ => ?_
      split
      · exact hrest
      · refine .options_bind ?_
        have hproperty : ∀ x ∈ some property, In x := by
          rintro x ⟨⟩
          exact hlist name property List.mem_cons_self
        have hmade : Gives σ (hookedType body (some property)
            (Reference.join place ["properties", name])) fun made => Good made.1 :=
          .congr (exec_hookedType hσ body _ _) ((hbody _ _ hproperty).map fun _ ht => ht)
        refine hmade.bind fun made ht => hrest.bind fun members hmembers => .pure ?_
        exact List.forall_mem_cons.mpr ⟨hR.property ht, hmembers⟩

theorem definitionMembers (place : String) (list : List (String × Option Schema))
    (hlist : ∀ name x, (name, some x) ∈ list → In x) :
    Gives σ (definitionMembers body place list) fun members =>
      (∀ m ∈ members, Written m) ∧ members.length = list.length := by
  induction list with
  | nil => exact .pure ⟨nofun, rfl⟩
  | cons entry rest ih =>
    have hrest := ih fun name x hx => hlist name x (List.mem_cons_of_mem _ hx)
    obtain ⟨name, s⟩ := entry
    have hs : ∀ x ∈ s, In x := by
      rintro x ⟨⟩
      exact hlist name x List.mem_cons_self
    rw [Typing.definitionMembers]
    refine (typeWith hσ hbody hs _).bind fun t ht => .options_bind ?_
    refine hrest.bind fun members hmade => .pure ?_
    obtain ⟨hmembers, hlength⟩ := hmade
    refine ⟨?_, ?_⟩
    · exact List.forall_mem_cons.mpr ⟨hR.property ht, hmembers⟩
    · rw [List.length_cons, List.length_cons, hlength]

variable (hs : In s) (hbool : s.bool = none)

include hs hbool

theorem indexType? (place : String) :
    Gives σ (indexType? body s place) fun index => ∀ t ∈ index, Good t := by
  unfold Typing.indexType?
  split
  · rename_i further hfurther
    split
    · exact .pure nofun
    · have hin : ∀ x ∈ some further, In x := by
        rintro x ⟨⟩
        exact hR.held hs hbool (.further hfurther)
      refine (typeWith hσ hbody hin _).map fun t ht => ?_
      rintro _ ⟨⟩
      exact ht
  · refine .options_bind (.pure ?_)
    split
    · rintro _ ⟨⟩
      exact hR.joinable.keyword _
    · nofun

theorem objectType? (place : String) :
    Gives σ (objectType? body s place) fun found => ∀ t ∈ found, Good t := by
  refine .options_bind (.read_bind ((Gives.entries _).bind fun listed hlisted => ?_))
  refine (propertyMembers hσ hR hbody s place _ listed fun name x hx =>
    hR.held hs hbool (.property (hlisted.mem_iff.mp hx))).bind fun properties hproperties => ?_
  refine (Gives.entries _).bind fun defined hdefined => ?_
  refine (definitionMembers hσ hR hbody place defined fun name x hx =>
    hR.held hs hbool (.definition (hdefined.mem_iff.mp hx))).bind fun definitions hdefs => ?_
  refine (indexType? hσ hR hbody hs hbool place).bind fun index hindex => .pure ?_
  obtain ⟨hdefinitions, hlength⟩ := hdefs
  have hindexed : ∀ t ∈ index.map fun t =>
      TypeExpr.object [.indexSignature "key" .string t σ.options.immutable []], Good t := by
    intro t ht
    obtain ⟨value, hvalue, rfl⟩ := Option.map_eq_some_iff.mp ht
    refine hR.object fun m hm => ?_
    rw [List.mem_singleton.mp hm]
    exact hR.index (hindex value hvalue)
  have hmembers : ∀ m ∈ (tagOf? σ.discriminators s place).toList.map (tagMember σ.options) ++
      properties ++ if definitions.isEmpty then [] else [.plain "$defs" (.object definitions)],
      Written m := by
    intro m hm
    rcases List.mem_append.mp hm with hlisted | hdefs
    · rcases List.mem_append.mp hlisted with htag | hproperty
      · obtain ⟨v, -, rfl⟩ := List.mem_map.mp htag
        exact hR.tag v
      · exact hproperties m hproperty
    · split at hdefs
      · cases hdefs
      · rename_i hsome
        rw [List.mem_singleton.mp hdefs]
        refine hR.definitions hs (fun hnone => hsome ?_) hdefinitions
        rw [hnone] at hdefined
        rw [hdefined.eq_nil, List.length_nil] at hlength
        rw [List.length_eq_zero_iff.mp hlength]
        rfl
  unfold objectWith?
  split
  · exact hindexed
  · rintro _ ⟨⟩
    exact hR.object hmembers
  · rename_i hindexEq _
    rintro _ ⟨⟩
    refine hR.joinable.intersectionOf _ fun t ht => ?_
    rcases List.mem_pair.mp ht with rfl | rfl
    · exact hR.object hmembers
    · exact hindexed _ hindexEq

/-- In whichever way the items are given, they make the type of an array. -/
theorem arrayType? (place : String) :
    Gives σ (do
        let item ← itemType body s place
        some <$> ofExcept (arrayType s item (← options)))
      fun found => ∀ t ∈ found, Good t := by
  have hwritten {item : TypeExpr} (h : ∀ t, arrayType s item σ.options = .ok t → Good t) :
      Gives σ (do some <$> ofExcept (arrayType s item (← options)))
        fun found => ∀ t ∈ found, Good t := by
    refine .options_bind ((Gives.ofExcept h).map fun t ht => ?_)
    rintro _ ⟨⟩
    exact ht
  have hpositional {keyword : String} {schemas : List (Option Schema)}
      (hschemas : s.prefixItems = some schemas ∨ s.items = some (.tuple schemas))
      (hheld : ∀ x, some x ∈ schemas → s.Holds x) :
      Gives σ (do
          let item ← TypeExpr.tuple <$>
            Typing.typesAt body (Reference.join place [keyword]) schemas.zipIdx
          some <$> ofExcept (arrayType s item (← options)))
        fun found => ∀ t ∈ found, Good t := by
    have htuple : Gives σ (TypeExpr.tuple <$>
        Typing.typesAt body (Reference.join place [keyword]) schemas.zipIdx)
        fun item => ∃ types, item = .tuple types ∧ ∀ u ∈ types, Good u :=
      (typesAt_zipIdx hσ hbody _ fun x hx => hR.held hs hbool (hheld x hx)).map
        fun types htypes => ⟨types, rfl, htypes⟩
    refine htuple.bind ?_
    rintro _ ⟨types, rfl, htypes⟩
    exact hwritten fun t ht => hR.positional hs hschemas htypes ht
  unfold itemType
  dsimp only
  split
  · rename_i schemas hpositions
    exact hpositional (.inl hpositions) fun x hx => .prefixItem (by rw [hpositions]; exact hx)
  · rename_i schemas _ hitems
    exact hpositional (.inr hitems) fun x hx => .tupleItem hitems hx
  · rename_i item _ hitem
    have hin : ∀ x ∈ some item, In x := by
      rintro x ⟨⟩
      exact hR.held hs hbool (.item hitem)
    exact (typeWith hσ hbody hin _).bind fun t ht => hwritten fun u hu => hR.array hs ht hu
  · have hunknown : Gives σ (do
        warn .schemaShape place "array without items, using unknown[]"
        return TypeExpr.unknown) Good :=
      (Gives.any _).bind fun _ _ => .pure (hR.joinable.keyword _)
    exact hunknown.bind fun t ht => hwritten fun u hu => hR.array hs ht hu

theorem coreType? (place : String) :
    Gives σ (coreType? body s place) fun found => ∀ t ∈ found, Good t := by
  have hkeyword (name : String) : ∀ t ∈ some (TypeExpr.keyword name), Good t := by
    rintro _ ⟨⟩
    exact hR.joinable.keyword name
  unfold Typing.coreType?
  split
  · exact objectType? hσ hR hbody hs hbool place
  · exact objectType? hσ hR hbody hs hbool place
  · exact .pure (hkeyword _)
  · exact .pure (hkeyword _)
  · exact .pure (hkeyword _)
  · exact .pure (hkeyword _)
  · exact .pure (hkeyword _)
  · exact arrayType? hσ hR hbody hs hbool place
  · exact (Gives.any _).bind fun _ _ => .pure (hkeyword _)
  · refine (typeListMembers hσ hR hbody hs place _).bind fun types htypes => .pure ?_
    rintro _ ⟨⟩
    exact hR.joinable.unionOf _ htypes

theorem composedType (place : String) : Gives σ (composedType body s place) Good := by
  have hheld {keyword : Option (List (Option Schema))}
      (hholds : ∀ x, some x ∈ keyword.getD [] → s.Holds x) :
      ∀ x, some x ∈ keyword.getD [] → In x := fun x hx => hR.held hs hbool (hholds x hx)
  have hcomposition : Gives σ (composition body s place) fun c => ∀ t ∈ c.types, Good t := by
    refine (coreType? hσ hR hbody hs hbool place).bind fun core hcore => ?_
    refine (partTypes hσ hR hbody s place _ fun x i hx => hheld (fun _ h => .allOf h) x
      (List.fst_mem_of_mem_zipIdx hx)).bind fun parts hparts => ?_
    exact .pure (hR.joinable.types hcore hparts)
  refine hcomposition.bind fun c hc => ?_
  refine (typesAt_zipIdx hσ hbody _ (hheld fun _ h => .anyOf h)).bind fun anyOf hanyOf => ?_
  refine (typesAt_zipIdx hσ hbody _ (hheld fun _ h => .oneOf h)).bind fun oneOf honeOf => ?_
  refine .options_bind (.pure ?_)
  have hall := hR.joinable.composed (hR.joinable.whole hc) hanyOf honeOf σ.options s
  split
  · exact hR.joinable.withNull hall
  · exact hall

end Rules

/-- The types of the schemas of the family have the property, by induction on the number of
unfoldings. -/
theorem schemaBody (hσ : HookFree σ) (hR : Regime σ In Good Written) (steps : Nat)
    (s : Option Schema) (place : String) (hs : ∀ x ∈ s, In x) :
    Gives σ (schemaBody steps s place) Good := by
  induction steps generalizing s place with
  | zero => exact .throw
  | succ steps ih =>
    rw [Typing.schemaBody]
    cases s with
    | none => exact .pure (hR.joinable.keyword _)
    | some s =>
      have hs : In s := hs s rfl
      unfold bodyStep
      dsimp only
      cases hbool : s.bool with
      | some b => cases b <;> exact .pure (hR.joinable.keyword _)
      | none =>
        dsimp only
        split
        · refine hR.refType hs place fun x place hx => typeWith hσ ih ?_ place
          rintro _ ⟨⟩
          exact hx
        · split
          · exact hR.enumType hs place
          · split
            · rename_i hconst
              exact .pure (hR.constant hs hconst)
            · exact composedType hσ hR ih hs hbool place

theorem schemaType (hσ : HookFree σ) (hR : Regime σ In Good Written) {s : Option Schema}
    (hs : ∀ x ∈ s, In x) (place : String) : Gives σ (schemaType s place) Good :=
  (Gives.any (unfoldings s)).bind fun steps _ => typeWith hσ (schemaBody hσ hR steps) hs place

end Regime

end Typing

end ApiTypes
