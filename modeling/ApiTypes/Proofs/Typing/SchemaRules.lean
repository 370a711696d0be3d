import ApiTypes.Proofs.Typing.Ensures
import ApiTypes.Proofs.Typing.Joins

/-!
The rules for the types of schemas, one by one. Each keeps to names that stand for something if the
types of the schemas directly below do.
-/

namespace ApiTypes.Typing

variable {α : Type} {w : Source} {σ : Setting} {p : Progress} {body : SchemaBody} {s : Schema}
  {inl : List String}

/-- The types that `body` gives to a schema are fine wherever the same references are being written
out. -/
def Handles (w : Source) (σ : Setting) (inl : List String) (body : SchemaBody)
    (s : Option Schema) : Prop :=
  ∀ place p, p.inlining = inl → Ensures w σ p (body s place) (Typed w)

/-- What the rules for a schema need of the schemas below it. -/
structure Below (w : Source) (σ : Setting) (inl : List String) (body : SchemaBody) (s : Schema) :
    Prop where
  hookFree : HookFree σ
  null : Handles w σ inl body none
  reaches : ∀ child, s.Holds child → w.Reaches (.schema child)
  child : ∀ child, s.Holds child → ∀ required,
    Handles w σ inl body (some { child with required := required })

theorem Below.held (h : Below w σ inl body s) {child : Schema} (hchild : s.Holds child) :
    Handles w σ inl body (some child) := by
  have hsame := h.child child hchild child.required
  cases child
  exact hsame

theorem Handles.typeWith {s : Option Schema} (h : Handles w σ inl body s) (hσ : HookFree σ)
    (place : String) (hp : p.inlining = inl) :
    Ensures w σ p (typeWith body s place) (Typed w) :=
  .congr (exec_typeWith hσ body s place p) (h place p hp)

/-- The types of a list of schemas. -/
theorem typesAt_ensures (hσ : HookFree σ) (place : String) (list : List (Option Schema × Nat))
    (hlist : ∀ entry ∈ list, Handles w σ inl body entry.1) (hp : p.inlining = inl) :
    Ensures w σ p (typesAt body place list) fun q types => ∀ t ∈ types, Typed w q t := by
  induction list generalizing p with
  | nil => exact .pure nofun
  | cons entry rest ih =>
    obtain ⟨s, i⟩ := entry
    rw [typesAt]
    apply ((hlist (s, i) List.mem_cons_self).typeWith hσ _ hp).bind
    intro q t hpq ht
    apply (ih (fun e he => hlist e (List.mem_cons_of_mem _ he)) (hpq.inlining.trans hp)).bind
    intro r types hqr htypes
    apply Ensures.pure
    intro u hu
    rcases List.mem_cons.mp hu with rfl | hrest
    · exact ht.mono hqr.toGrows
    · exact htypes u hrest

theorem handles_of_mem_zipIdx (hbelow : Below w σ inl body s) {schemas : List (Option Schema)}
    (hholds : ∀ child, some child ∈ schemas → s.Holds child) :
    ∀ entry ∈ schemas.zipIdx, Handles w σ inl body entry.1 := by
  rintro ⟨child, i⟩ hentry
  have hmem := List.fst_mem_of_mem_zipIdx hentry
  cases child with
  | none => exact hbelow.null
  | some child => exact hbelow.held (hholds child hmem)

theorem isAlternative_ensures (name : String) (schemas : List (Option Schema))
    (hnull : none ∈ schemas → ∃ s, w.Reaches (.schema s) ∧ none ∈ s.oneOf.getD []) :
    Ensures w σ p (isAlternative name schemas) fun _ _ => True := by
  induction schemas generalizing p with
  | nil => exact .pure trivial
  | cons member rest ih =>
    cases member with
    | none => exact .throw (hnull List.mem_cons_self)
    | some member =>
      rw [isAlternative]
      split
      · exact .pure trivial
      · exact ih fun h => hnull (List.mem_cons_of_mem _ h)

theorem isLeftToAlternatives_ensures (name : String)
    (hnull : none ∈ s.oneOf.getD [] → ∃ s, w.Reaches (.schema s) ∧ none ∈ s.oneOf.getD []) :
    Ensures w σ p (isLeftToAlternatives s name) fun _ _ => True := by
  unfold isLeftToAlternatives
  split
  · exact isAlternative_ensures name _ hnull
  · exact .pure trivial

theorem singledType_ensures (hσ : HookFree σ) (place name : String)
    (hsingle : Handles w σ inl body (some (singled s name))) (hp : p.inlining = inl) :
    Ensures w σ p (singledType body s place name) (Typed w) := by
  unfold singledType
  split
  · exact .pure (.keyword _)
  · exact .congr (exec_unfinishedWith hσ body _ place p) (hsingle place p hp)

/-- The types for a list of type names, given those for each name alone. -/
theorem typeListMembers_ensures (hσ : HookFree σ) (place : String)
    (hsingle : ∀ name, Handles w σ inl body (some (singled s name)))
    (hnull : none ∈ s.oneOf.getD [] → ∃ s, w.Reaches (.schema s) ∧ none ∈ s.oneOf.getD [])
    (names : List String) (hp : p.inlining = inl) :
    Ensures w σ p (typeListMembers body s place names) fun q types =>
      ∀ t ∈ types, Typed w q t := by
  induction names generalizing p with
  | nil => exact .pure nofun
  | cons name rest ih =>
    rw [typeListMembers]
    apply (isLeftToAlternatives_ensures name hnull).bind
    intro q left hpq _
    have hq : q.inlining = inl := hpq.inlining.trans hp
    split
    · exact ih hq
    · apply (singledType_ensures hσ place name (hsingle name) hq).bind
      intro r t hqr ht
      apply (ih (hqr.inlining.trans hq)).bind
      intro r' types hrr' htypes
      apply Ensures.pure
      intro u hu
      rcases List.mem_cons.mp hu with rfl | hrest
      · exact ht.mono hrr'.toGrows
      · exact htypes u hrest

/-- The type of the items of an array. -/
theorem itemType_ensures (hbelow : Below w σ inl body s) (place : String)
    (hp : p.inlining = inl) : Ensures w σ p (itemType body s place) (Typed w) := by
  have htuple (keyword : String) (schemas : List (Option Schema))
      (hholds : ∀ child, some child ∈ schemas → s.Holds child) :
      Ensures w σ p
        (TypeExpr.tuple <$> typesAt body (Reference.join place [keyword]) schemas.zipIdx)
        (Typed w) :=
    (typesAt_ensures hbelow.hookFree _ _ (handles_of_mem_zipIdx hbelow hholds) hp).map
      fun _ _ _ htypes => .tuple htypes
  unfold itemType
  cases hfixed : s.prefixItems with
  | some schemas =>
    exact htuple "prefixItems" schemas fun child h => .prefixItem (by simp [hfixed, h])
  | none =>
    cases hitems : s.items with
    | none =>
      apply Ensures.bind (.warn _ _ _)
      intro q _ _ _
      exact .pure (.keyword _)
    | some items =>
      cases items with
      | single item => exact (hbelow.held (.item hitems)).typeWith hbelow.hookFree _ hp
      | tuple schemas => exact htuple "items" schemas fun child h => .tupleItem hitems h

theorem isDeprecated_ensures (hs : w.Reaches (.schema s)) :
    Ensures w σ p (isDeprecated s) fun _ _ => True := by
  unfold isDeprecated
  split
  · apply Ensures.bind (find?_ensures (.held hs) (α := Schema))
    intro q found _ _
    exact .pure trivial
  · exact .pure trivial

theorem isDropped_ensures (tag name : String) {property : Schema}
    (hproperty : w.Reaches (.schema property)) :
    Ensures w σ p (isDropped tag name property) fun _ _ => True := by
  unfold isDropped
  apply Ensures.options_bind
  split
  · exact isDeprecated_ensures hproperty
  · exact .pure trivial

/-- The members for the properties of an object. -/
theorem propertyMembers_ensures (hbelow : Below w σ inl body s) (place tag : String)
    (listed : List (String × Option Schema))
    (hlisted : ∀ entry ∈ listed, entry ∈ entriesOf s.properties) (hp : p.inlining = inl) :
    Ensures w σ p (propertyMembers body s place tag listed) fun q members =>
      ∀ m ∈ members, MemberTyped w q m := by
  induction listed generalizing p with
  | nil => exact .pure nofun
  | cons entry rest ih =>
    have hrest (q : Progress) (hq : q.inlining = inl) :=
      ih (p := q) (fun e he => hlisted e (List.mem_cons_of_mem _ he)) hq
    obtain ⟨name, property⟩ := entry
    cases property with
    | none => exact hrest p hp
    | some property =>
      have hholds : s.Holds property := .property (hlisted _ List.mem_cons_self)
      rw [propertyMembers]
      apply (isDropped_ensures tag name (hbelow.reaches property hholds)).bind
      intro q dropped hpq _
      have hq : q.inlining = inl := hpq.inlining.trans hp
      split
      · exact hrest q hq
      · apply Ensures.options_bind
        have htype : Ensures w σ q
            (hookedType body (some property) (Reference.join place ["properties", name]))
            fun r x => Typed w r x.1 :=
          .congr (exec_hookedType hbelow.hookFree body _ _ q)
            ((hbelow.held hholds _ q hq).map fun _ _ _ ht => ht)
        apply htype.bind
        intro r x hqr hx
        apply (hrest r (hqr.inlining.trans hq)).bind
        intro r' members hrr' hmembers
        apply Ensures.pure
        intro m hm
        rcases List.mem_cons.mp hm with rfl | hmem
        · exact Member.UsesOnly.property (hx.mono hrr'.toGrows)
        · exact hmembers m hmem

/-- The members for the definitions of a schema. -/
theorem definitionMembers_ensures (hbelow : Below w σ inl body s) (place : String)
    (listed : List (String × Option Schema)) (hlisted : ∀ entry ∈ listed, entry ∈ entriesOf s.defs)
    (hp : p.inlining = inl) :
    Ensures w σ p (definitionMembers body place listed) fun q members =>
      ∀ m ∈ members, MemberTyped w q m := by
  induction listed generalizing p with
  | nil => exact .pure nofun
  | cons entry rest ih =>
    obtain ⟨name, child⟩ := entry
    have hchild : Handles w σ inl body child := by
      cases child with
      | none => exact hbelow.null
      | some child => exact hbelow.held (.definition (hlisted _ List.mem_cons_self))
    rw [definitionMembers]
    apply (hchild.typeWith hbelow.hookFree _ hp).bind
    intro q t hpq ht
    apply Ensures.options_bind
    apply (ih (fun e he => hlisted e (List.mem_cons_of_mem _ he)) (hpq.inlining.trans hp)).bind
    intro r members hqr hmembers
    apply Ensures.pure
    intro m hm
    rcases List.mem_cons.mp hm with rfl | hmem
    · exact Member.UsesOnly.property (ht.mono hqr.toGrows)
    · exact hmembers m hmem

/-- The type of the properties that an object does not list. -/
theorem indexType?_ensures (hbelow : Below w σ inl body s) (place : String)
    (hp : p.inlining = inl) :
    Ensures w σ p (indexType? body s place) fun q found => ∀ t, found = some t → Typed w q t := by
  unfold indexType?
  cases hfurther : s.additionalProperties with
  | none =>
    apply Ensures.options_bind
    apply Ensures.pure
    intro t ht
    split at ht
    · cases ht
      exact .keyword _
    · cases ht
  | some further =>
    dsimp only
    split
    · exact .pure nofun
    · apply ((hbelow.held (.further hfurther)).typeWith hbelow.hookFree _ hp).map
      rintro q t _ ht _ ⟨⟩
      exact ht

section Arrays

variable {P : Use → Prop} {item t : TypeExpr}

theorem usesOnly_tupleOf {elems : List TypeExpr} (immutable : Bool)
    (h : ∀ elem ∈ elems, elem.UsesOnly P) : (tupleOf immutable elems).UsesOnly P := by
  cases immutable with
  | false => exact .tuple h
  | true => exact .readonly (.tuple h)

/-- The type of an array uses what its items use. -/
theorem usesOnly_arrayType {options : Options} (hitem : item.UsesOnly P)
    (h : arrayType s item options = .ok t) : t.UsesOnly P := by
  cases arrayType_form h with
  | plain =>
    unfold plainArray
    extract_lets array
    have harray : array.UsesOnly P := by
      unfold array
      split
      · exact hitem
      · exact .array hitem
    cases options.immutable with
    | false => exact harray
    | true => exact .readonly harray
  | tuple n =>
    apply usesOnly_tupleOf
    intro elem helem
    rw [List.eq_of_mem_replicate helem]
    exact hitem
  | openTuple n =>
    apply usesOnly_tupleOf
    intro elem helem
    rcases List.mem_append.mp helem with hmem | hmem
    · rw [List.eq_of_mem_replicate hmem]
      exact hitem
    · rw [List.mem_singleton.mp hmem]
      exact .spread (.array hitem)
  | union lengths =>
    apply TypeExpr.UsesOnly.unionOf
    intro tuple htuple
    obtain ⟨n, -, rfl⟩ := List.mem_map.mp htuple
    apply usesOnly_tupleOf
    intro elem helem
    rw [List.eq_of_mem_replicate helem]
    exact hitem

end Arrays

/-- The type of the members of an object. -/
theorem objectType?_ensures (hbelow : Below w σ inl body s) (place : String)
    (hp : p.inlining = inl) :
    Ensures w σ p (objectType? body s place) fun q found => ∀ t, found = some t → Typed w q t := by
  unfold objectType?
  apply Ensures.options_bind
  apply Ensures.read_bind
  apply Ensures.entries_bind
  intro listed hlisted
  apply (propertyMembers_ensures hbelow place _ listed (fun e he => hlisted.subset he) hp).bind
  intro q properties hpq hproperties
  have hq : q.inlining = inl := hpq.inlining.trans hp
  apply Ensures.entries_bind
  intro defined hdefined
  apply (definitionMembers_ensures hbelow place defined (fun e he => hdefined.subset he) hq).bind
  intro r definitions hqr hdefinitions
  have hr : r.inlining = inl := hqr.inlining.trans hq
  apply (indexType?_ensures hbelow place hr).bind
  intro r' found hrr' hfound
  have hmembers : ∀ variant : Option Variant, ∀ m ∈ variant.toList.map (tagMember σ.options) ++
      properties ++ (if definitions.isEmpty then [] else [.plain "$defs" (.object definitions)]),
      MemberTyped w r' m := by
    intro variant m hm
    rcases List.mem_append.mp hm with hfirst | hdefs
    · rcases List.mem_append.mp hfirst with htag | hproperty
      · obtain ⟨v, -, rfl⟩ := List.mem_map.mp htag
        exact Member.UsesOnly.property (TypeExpr.UsesOnly.ofTexts v.values)
      · exact (hproperties m hproperty).mono (hqr.trans hrr').toGrows
    · split at hdefs
      · cases hdefs
      · rw [List.mem_singleton.mp hdefs]
        exact Member.UsesOnly.property
          (.object fun m hm => (hdefinitions m hm).mono hrr'.toGrows)
  have hindex : ∀ t ∈ found.map (fun t =>
      TypeExpr.object [.indexSignature "key" .string t σ.options.immutable []]), Typed w r' t := by
    intro t ht
    obtain ⟨further, hfurther, rfl⟩ := Option.map_eq_some_iff.mp ht
    apply TypeExpr.UsesOnly.object
    intro m hm
    rw [List.mem_singleton.mp hm]
    exact .indexSignature (.keyword _) (hfound further hfurther)
  apply Ensures.pure
  intro t ht
  unfold objectWith? at ht
  split at ht
  · exact hindex t ht
  · cases ht
    exact .object (hmembers _)
  · cases ht
    rename_i index hsome _
    apply TypeExpr.UsesOnly.intersectionOf
    intro part hpart
    simp only [List.mem_cons, List.not_mem_nil, or_false] at hpart
    rcases hpart with rfl | rfl
    · exact .object (hmembers _)
    · exact hindex _ hsome

/-- What the rules for a schema need of the schema itself, besides the schemas below it. -/
structure Singles (w : Source) (σ : Setting) (inl : List String) (body : SchemaBody)
    (s : Schema) : Prop where
  single : 2 ≤ (s.types.getD []).length → ∀ name, Handles w σ inl body (some (singled s name))
  null : none ∈ s.oneOf.getD [] → ∃ s, w.Reaches (.schema s) ∧ none ∈ s.oneOf.getD []
  oversized : s.Oversized → ∃ s, w.Reaches (.schema s) ∧ s.Oversized

/-- The type that a schema has on its own. -/
theorem coreType?_ensures (hbelow : Below w σ inl body s) (hsingles : Singles w σ inl body s)
    (place : String) (hp : p.inlining = inl) :
    Ensures w σ p (coreType? body s place) fun q found => ∀ t, found = some t → Typed w q t := by
  have hkeyword (q : Progress) (name : String) :
      ∀ t, some (TypeExpr.keyword name) = some t → Typed w q t := by
    rintro t ⟨⟩
    exact .keyword name
  unfold coreType?
  split
  · exact objectType?_ensures hbelow place hp
  · exact objectType?_ensures hbelow place hp
  · exact .pure (hkeyword p _)
  · exact .pure (hkeyword p _)
  · exact .pure (hkeyword p _)
  · exact .pure (hkeyword p _)
  · exact .pure (hkeyword p _)
  · apply (itemType_ensures hbelow place hp).bind
    intro q item hpq hitem
    apply Ensures.options_bind
    have harray : Ensures w σ q (ofExcept (arrayType s item σ.options)) (Typed w) := by
      apply Ensures.ofExcept
      · exact fun t ht => usesOnly_arrayType hitem ht
      · intro e he
        obtain ⟨rfl, hlength, hover⟩ := (arrayType_error_iff s item σ.options e).mp he
        exact ⟨hlength, hsingles.oversized hover⟩
    apply harray.map
    rintro r t _ ht _ ⟨⟩
    exact ht
  · apply Ensures.bind (.warn _ _ _)
    intro q _ _ _
    exact .pure (hkeyword q _)
  · rename_i names hnil _ _ _ _ _ _ _ hone
    have hmany : 2 ≤ (s.types.getD []).length := by
      match hnames : s.types.getD [] with
      | [] => exact absurd hnames hnil
      | [name] => exact absurd hnames (hone name)
      | _ :: _ :: _ => exact Nat.le_add_left 2 _
    apply (typeListMembers_ensures hbelow.hookFree place (hsingles.single hmany) hsingles.null
      _ hp).bind
    intro q types _ htypes
    apply Ensures.pure
    rintro t ⟨⟩
    exact .unionOf htypes

/-- Declaring an enum keeps all declarations, and the name it gives is declared. -/
theorem hoist_ensures (place : String) (s : Schema) :
    Valid w p →
      (p.enums.hoist place s).2.Declares (p.enums.hoist place s).1 ∧
      Valid w { p with enums := (p.enums.hoist place s).2 } ∧
      Extends p { p with enums := (p.enums.hoist place s).2 } := by
  intro hp
  unfold EnumRegistry.hoist
  cases hknown : p.enums.byPlace.lookup place with
  | some name =>
    exact ⟨hp.places place name (lookup_mem hknown), hp, .refl p⟩
  | none =>
    dsimp only
    have hext : Extends p { p with enums :=
        { decls := p.enums.decls ++
            [.enum (freshName p.enums.taken (enumName place)) (enumMembers s) true s.doc]
          byPlace := (place, freshName p.enums.taken (enumName place)) :: p.enums.byPlace
          taken := freshName p.enums.taken (enumName place) :: p.enums.taken } } := by
      refine ⟨⟨?_, fun _ h => h, id⟩, rfl⟩
      rintro name ⟨members, doc, hmem⟩
      exact ⟨members, doc, List.mem_append_left _ hmem⟩
    refine ⟨⟨_, _, List.mem_append_right _ (List.mem_singleton_self _)⟩, ?_, hext⟩
    refine ⟨hp.knows, ?_, ?_, ?_⟩
    · intro place' name hmem
      rcases List.mem_cons.mp hmem with heq | hold
      · cases heq
        exact ⟨_, _, List.mem_append_right _ (List.mem_singleton_self _)⟩
      · exact hext.enums name (hp.places place' name hold)
    · intro d hd
      rcases List.mem_append.mp hd with hold | hnew
      · exact hp.enums d hold
      · rw [List.mem_singleton.mp hnew]
        exact ⟨_, _, _, rfl⟩
    · intro key e he
      exact ⟨(hp.operations key e he).1, (hp.operations key e he).2.mono hext.toGrows⟩

theorem typed_joinable : TypeExpr.Joinable (Typed w p) where
  keyword _ := .keyword _
  emptyRecord := .record_never
  unionOf _ h := .unionOf h
  intersectionOf _ h := .intersectionOf h
  without _ _ h := .without (.builtin (.inr rfl)) h

/-- The type of a list of values. -/
theorem enumType_ensures (s : Schema) (place : String) :
    Ensures w σ p (enumType s place) (Typed w) := by
  apply Ensures.of_valid
  intro hp
  unfold enumType
  apply Ensures.options_bind
  dsimp only
  split
  · apply Ensures.get_bind
    obtain ⟨hdeclared, hvalid, hext⟩ := hoist_ensures place s hp
    have hmodify : Ensures w σ p
        (modify fun p' => { p' with enums := (p.enums.hoist place s).2 }) fun q _ =>
          q.enums.Declares (p.enums.hoist place s).1 := ⟨fun _ => ⟨hvalid, hext, hdeclared⟩⟩
    apply hmodify.bind
    intro q _ _ hq
    have hname : Typed w q (.named (p.enums.hoist place s).1) :=
      .ref (.enum hq) nofun
    apply Ensures.pure
    split
    · exact typed_joinable.withNull hname
    · exact hname
  · apply Ensures.pure
    refine typed_joinable.values (fun t ht => ?_) _
    obtain ⟨v, -, rfl⟩ := List.mem_map.mp ht
    exact .ofValue v

/-- Making properties required puts the helper for it to use. -/
theorem withRequired_ensures {t : TypeExpr} (ht : Typed w p t) (keys : List String) :
    Ensures w σ p (withRequired t keys) (Typed w) := by
  unfold withRequired
  have hmodify : Ensures w σ p (modify fun q => { q with usesWithRequired := true }) fun q _ =>
      q.usesWithRequired = true := by
    constructor
    intro hp
    have hext : Extends p { p with usesWithRequired := true } :=
      ⟨⟨fun _ h => h, fun _ h => h, fun _ => rfl⟩, rfl⟩
    exact ⟨hp.carry hext.toGrows hp.knows rfl rfl, hext, rfl⟩
  apply hmodify.bind
  intro q _ hpq hq
  apply Ensures.pure
  refine @TypeExpr.UsesOnly.ref (Named w q) [t, .unionOf (keys.map .ofText)] _ (.helper hq) ?_
  intro arg harg
  simp only [List.mem_cons, List.not_mem_nil, or_false] at harg
  rcases harg with rfl | rfl
  · exact ht.mono hpq.toGrows
  · exact .ofTexts keys

/-- The type of a referenced part of a schema. -/
theorem referencedPart_ensures (hbelow : Below w σ inl body s) {part : Schema}
    (hpart : s.Holds part) (place : String) (hp : p.inlining = inl) :
    Ensures w σ p (referencedPart body s part place) (Typed w) := by
  unfold referencedPart
  apply ((hbelow.held hpart).typeWith hbelow.hookFree place hp).bind
  intro q t hpq ht
  apply Ensures.bind (find?_ensures (.held (hbelow.reaches part hpart)) (α := Schema))
  intro r found hqr _
  have hmissing (missing : List String) :
      Ensures w σ r (if missing.isEmpty then pure t else withRequired t missing) (Typed w) := by
    split
    · exact .pure (ht.mono hqr.toGrows)
    · exact withRequired_ensures (ht.mono hqr.toGrows) missing
  exact hmissing _

theorem partType_ensures (hbelow : Below w σ inl body s) {part : Schema}
    (hpart : s.Holds part) (place : String) (hp : p.inlining = inl) :
    Ensures w σ p (partType body s part place) (Typed w) := by
  unfold partType
  split
  · exact referencedPart_ensures hbelow hpart place hp
  · exact (hbelow.child part hpart _).typeWith hbelow.hookFree place hp

theorem partTag_ensures {part : Schema} (hpart : w.Reaches (.schema part)) :
    Ensures w σ p (partTag part) fun _ _ => True := by
  have hasks : w.Asks part.ref := Source.Asks.held hpart
  unfold partTag
  split
  · have htarget : Ensures w σ p (resolving (Resolver.target part.ref)) fun _ _ => True :=
      .resolving (Resolver.target_kept hasks)
    apply htarget.bind
    intro q target _ _
    apply Ensures.read_bind
    exact .pure trivial
  · exact .pure trivial

/-- The types of the parts of a schema. -/
theorem partTypes_ensures (hbelow : Below w σ inl body s) (place : String)
    (list : List (Option Schema × Nat))
    (hlist : ∀ part i, (some part, i) ∈ list → s.Holds part) (hp : p.inlining = inl) :
    Ensures w σ p (partTypes body s place list) fun q parts =>
      ∀ part ∈ parts, Typed w q part.type := by
  induction list generalizing p with
  | nil => exact .pure nofun
  | cons entry rest ih =>
    have hrest (q : Progress) (hq : q.inlining = inl) :=
      ih (p := q) (fun part i h => hlist part i (List.mem_cons_of_mem _ h)) hq
    obtain ⟨part, i⟩ := entry
    cases part with
    | none => exact hrest p hp
    | some part =>
      have hpart : s.Holds part := hlist part i List.mem_cons_self
      rw [partTypes]
      apply (partType_ensures hbelow hpart _ hp).bind
      intro q t hpq ht
      apply (partTag_ensures (hbelow.reaches part hpart)).bind
      intro r tag hqr _
      apply (hrest r (hqr.inlining.trans (hpq.inlining.trans hp))).bind
      intro r' parts hrr' hparts
      apply Ensures.pure
      intro written hwritten
      rcases List.mem_cons.mp hwritten with rfl | hmem
      · exact ht.mono (hqr.trans hrr').toGrows
      · exact hparts written hmem

/-- The types that a schema is put together from are fine. -/
theorem composition_ensures (hbelow : Below w σ inl body s) (hsingles : Singles w σ inl body s)
    (place : String) (hp : p.inlining = inl) :
    Ensures w σ p (composition body s place) fun q c => ∀ t ∈ c.types, Typed w q t := by
  apply (coreType?_ensures hbelow hsingles place hp).bind
  intro q core hpq hcore
  apply (partTypes_ensures hbelow place _ (fun part i h =>
    .allOf (List.fst_mem_of_mem_zipIdx h)) (hpq.inlining.trans hp)).bind
  intro r parts hqr hparts
  apply Ensures.pure
  exact typed_joinable.types (fun t ht => (hcore t ht).mono hqr.toGrows) hparts

/-- The type of a schema that is put together. -/
theorem composedType_ensures (hbelow : Below w σ inl body s) (hsingles : Singles w σ inl body s)
    (place : String) (hp : p.inlining = inl) :
    Ensures w σ p (composedType body s place) (Typed w) := by
  unfold composedType
  apply (composition_ensures hbelow hsingles place hp).bind
  intro r c hpr hc
  unfold withAlternatives
  have hr : r.inlining = inl := hpr.inlining.trans hp
  apply (typesAt_ensures hbelow.hookFree _ _
    (handles_of_mem_zipIdx hbelow fun child h => .anyOf h) hr).bind
  intro r₁ anyOf hext₁ hanyOf
  apply (typesAt_ensures hbelow.hookFree _ _
    (handles_of_mem_zipIdx hbelow fun child h => .oneOf h) (hext₁.inlining.trans hr)).bind
  intro r₂ oneOf hext₂ honeOf
  apply Ensures.options_bind
  apply Ensures.pure
  have htype := typed_joinable.composed
    (typed_joinable.whole fun t ht => (hc t ht).mono (hext₁.trans hext₂).toGrows)
    (fun t ht => (hanyOf t ht).mono hext₂.toGrows) honeOf σ.options s
  split
  · exact typed_joinable.withNull htype
  · exact htype

end ApiTypes.Typing
