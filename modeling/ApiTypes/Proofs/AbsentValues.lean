import ApiTypes.Proofs.InputDefaults

/-!
Where a hook's word that a value may be absent lands. A property gets the mark for it, and at any
other place undefined joins the type. The entry of a component is marked only by hooks on finished
types. What takes over its schema counts as at any other place, so that undefined joins the type of
an entry that is not marked.
-/

namespace ApiTypes.Typing

variable {σ : Setting} {body : SchemaBody} {s : Option Schema} {place : String}

/-- A schema has the type `u` before hooks on finished types: from a hook that takes it over, or by
the rules. -/
inductive MadeFor (σ : Setting) (body : SchemaBody) (s : Option Schema) (place : String) :
    TypeExpr → Prop where
  | taken {u : TypeExpr} {isOptional : Bool} : takenOver? σ s place = some (u, isOptional) →
    MadeFor σ body s place u
  | ruled {p q : Progress} {u : TypeExpr} : takenOver? σ s place = none →
    exec (body s place) σ p = (.ok u, q) → MadeFor σ body s place u

/-- No hook replaces the type `u` of a schema. -/
def Stays (σ : Setting) (s : Option Schema) (place : String) (u : TypeExpr) : Prop :=
  ∀ result ∈ replaced? σ u s place, result.type = none

/-- The final type of a schema, whose type has been `u` before hooks on finished types, comes from a
hook that says that the value may be absent. -/
inductive MayBeAbsent (σ : Setting) (s : Option Schema) (place : String) (u : TypeExpr) :
    TypeExpr → Prop where
  | taken : takenOver? σ s place = some (u, true) → Stays σ s place u → MayBeAbsent σ s place u u
  | replaced {t : TypeExpr} : replaced? σ u s place = some { type := some t, isOptional := true } →
    MayBeAbsent σ s place u t

theorem schemaHook_gives (s : Option Schema) (place : String) :
    Gives σ (schemaHook? s place) (· = takenOver? σ s place) := .read_bind (.pure rfl)

theorem typeHook_gives (t : TypeExpr) (s : Option Schema) (place : String) :
    Gives σ (typeHook? t s place) (· = replaced? σ t s place) := .read_bind (.pure rfl)

/-- What the hooks on finished types leave of a type that the hooks before them have marked or
not. -/
def finished (σ : Setting) (s : Option Schema) (place : String) (made : TypeExpr × Bool) :
    TypeExpr × Bool :=
  match replaced? σ made.1 s place with
  | some { type := some t, isOptional } => (t, isOptional)
  | _ => made

theorem finished_iff {u t : TypeExpr} {marked : Bool}
    (hmarked : marked = true ↔ takenOver? σ s place = some (u, true)) :
    finished σ s place (u, marked) = (t, true) ↔ MayBeAbsent σ s place u t := by
  unfold finished
  dsimp only
  constructor
  · intro h
    split at h
    · rename_i hreplaced
      cases h
      exact .replaced hreplaced
    · rename_i hstays
      cases h
      refine .taken (hmarked.mp rfl) fun result hresult => ?_
      cases htype : result.type with
      | none => rfl
      | some t =>
        exact absurd hresult (fun h => hstays t result.isOptional (h.trans (by rw [← htype])))
  · intro h
    cases h with
    | taken htaken hstays =>
      split
      · rename_i hreplaced
        exact absurd (hstays _ hreplaced) nofun
      · rw [hmarked.mpr htaken]
    | replaced hreplaced => rw [hreplaced]

/-- The type of a schema is marked exactly if it comes from a hook that says so. -/
theorem hookedType_marks (body : SchemaBody) (s : Option Schema) (place : String) :
    Gives σ (hookedType body s place) fun made => ∃ u, MadeFor σ body s place u ∧
      ∀ t, made = (t, true) ↔ MayBeAbsent σ s place u t := by
  refine (schemaHook_gives s place).bind fun found hfound => ?_
  extract_lets finish
  have hfinish (made : TypeExpr × Bool) : Gives σ (finish made) (· = finished σ s place made) := by
    refine (typeHook_gives made.1 s place).bind fun result hresult => ?_
    subst hresult
    unfold finished
    rcases replaced? σ made.1 s place with _ | ⟨_ | t, isOptional⟩
    · exact .pure rfl
    · exact .pure rfl
    · exact .pure rfl
  cases found with
  | some taken =>
    refine (hfinish taken).weaken fun made hmade => ⟨taken.1, .taken hfound.symm, fun t => ?_⟩
    rw [hmade]
    apply finished_iff
    rw [← hfound, Option.some.injEq, Prod.ext_iff, and_iff_right rfl]
  | none =>
    constructor
    intro p made q hrun
    rw [exec_bind] at hrun
    cases hbody : exec (body s place) σ p with
    | mk result r =>
      rw [hbody] at hrun
      cases result with
      | error e => cases hrun
      | ok u =>
        have hmade := (hfinish (u, false)).result r made q hrun
        refine ⟨u, .ruled hfound.symm hbody, fun t => ?_⟩
        rw [hmade]
        apply finished_iff
        rw [← hfound]
        exact ⟨nofun, nofun⟩

/-- A schema has the type `u` where hooks on finished types do not come in: undefined has joined it
if a hook that takes the schema over says so. -/
inductive MadeUnfinished (σ : Setting) (body : SchemaBody) (s : Option Schema) (place : String) :
    TypeExpr → Prop where
  | taken {made : TypeExpr × Bool} : takenOver? σ s place = some made →
    MadeUnfinished σ body s place (orUndefined made)
  | ruled {p q : Progress} {u : TypeExpr} : takenOver? σ s place = none →
    exec (body s place) σ p = (.ok u, q) → MadeUnfinished σ body s place u

theorem MadeUnfinished.eq_union {u t : TypeExpr} (h : MadeUnfinished σ body s place u)
    (htaken : takenOver? σ s place = some (t, true)) : u = .unionOf [t, .undefined] := by
  cases h with
  | taken hmade =>
    rw [hmade, Option.some.injEq] at htaken
    rw [htaken]
    rfl
  | ruled hnone =>
    rw [hnone] at htaken
    cases htaken

theorem unfinishedWith_made (body : SchemaBody) (s : Option Schema) (place : String) :
    Gives σ (unfinishedWith body s place) (MadeUnfinished σ body s place) := by
  refine (schemaHook_gives s place).bind fun found hfound => ?_
  cases found with
  | some taken => exact .pure (.taken hfound.symm)
  | none => exact ⟨fun p u q hrun => .ruled hfound.symm hrun⟩

theorem unfinishedType_made (s : Option Schema) (place : String) :
    Gives σ (unfinishedType s place) fun u =>
      ∃ steps, MadeUnfinished σ (schemaBody steps) s place u :=
  (Gives.any (unfoldings s)).bind fun steps _ =>
    (unfinishedWith_made (schemaBody steps) s place).weaken fun _ hu => ⟨steps, hu⟩

/-- The member for a property is marked if its type comes from a hook that says so. -/
def MarkedProperty (σ : Setting) (body : SchemaBody) (place : String) (entry : String × Schema)
    (m : Member) : Prop :=
  let here := Reference.join place ["properties", entry.1]
  ∃ u, MadeFor σ body (some entry.2) here u ∧ ∀ t, MayBeAbsent σ (some entry.2) here u t →
    ∃ isReadonly, m = .property entry.1 true isReadonly t entry.2.doc

/-- The member for a component is marked if a hook on finished types says so. A hook that takes its
schema over brings in undefined, and no mark. -/
def MarkedEntry (σ : Setting) (entry : String × Option Schema) (m : Member) : Prop :=
  let here := Reference.join "#" ["components", "schemas", entry.1]
  ∃ u steps, MadeUnfinished σ (schemaBody steps) entry.2 here u ∧
    (∀ t, replaced? σ u entry.2 here = some { type := some t, isOptional := true } →
      m = .property entry.1 true σ.options.immutable t (entry.2.elim [] Schema.doc)) ∧
    ∀ t, takenOver? σ entry.2 here = some (t, true) → replaced? σ u entry.2 here = none →
      m = .property entry.1 false σ.options.immutable (.unionOf [t, .undefined])
        (entry.2.elim [] Schema.doc)

theorem propertyMembers_marks (body : SchemaBody) (s : Schema) (place tag : String)
    (list : List (String × Option Schema)) :
    Gives σ (propertyMembers body s place tag list) fun members => ∃ written,
      List.Forall₂ (MarkedProperty σ body place) written members ∧
      ∀ name property, (name, some property) ∈ list →
        (name, property) ∈ written ∨ name = tag ∨ σ.options.excludeDeprecated = true := by
  induction list with
  | nil => exact .pure ⟨[], .nil, nofun⟩
  | cons entry rest ih =>
    obtain ⟨name, property⟩ := entry
    cases property with
    | none =>
      refine ih.weaken fun members hrest => ?_
      obtain ⟨written, heach, hall⟩ := hrest
      refine ⟨written, heach, fun name' property' hmem => ?_⟩
      exact hall name' property' ((List.mem_cons.mp hmem).resolve_left nofun)
    | some property =>
      rw [propertyMembers]
      refine (isDropped_gives tag name property).bind fun dropped hdropped => ?_
      cases dropped with
      | true =>
        refine ih.weaken fun members hrest => ?_
        obtain ⟨written, heach, hall⟩ := hrest
        refine ⟨written, heach, fun name' property' hmem => ?_⟩
        rcases List.mem_cons.mp hmem with heq | hrest
        · cases heq
          exact .inr (hdropped rfl)
        · exact hall name' property' hrest
      | false =>
        refine .options_bind ?_
        refine (hookedType_marks body _ _).bind fun made hmade => ?_
        obtain ⟨u, hu, hmarks⟩ := hmade
        refine ih.bind fun members hrest => .pure ?_
        obtain ⟨written, heach, hall⟩ := hrest
        refine ⟨(name, property) :: written, .cons ⟨u, hu, fun t ht => ?_⟩ heach, ?_⟩
        · rw [(hmarks t).mpr ht, Bool.or_true]
          exact ⟨_, rfl⟩
        · intro name' property' hmem
          rcases List.mem_cons.mp hmem with heq | hrest
          · cases heq
            exact .inl List.mem_cons_self
          · exact (hall name' property' hrest).imp_left (List.mem_cons_of_mem _)

/-- A schema among the components. -/
def schemaComponent (entry : String × Option Schema) : Component where
  name := entry.1
  schema := entry.2
  deprecated := entry.2.any (·.deprecated)
  doc := entry.2.elim [] Schema.doc
  typeAt := unfinishedType entry.2

theorem componentMembers_marks (list : List (String × Option Schema)) (aliases : Aliases) :
    Gives σ (componentMembers .schemas aliases (list.map schemaComponent)) fun made => ∃ written,
      List.Forall₂ (MarkedEntry σ) written made.1 ∧
      ∀ entry ∈ list, entry ∈ written ∨ σ.options.excludeDeprecated = true := by
  induction list generalizing aliases with
  | nil => exact .pure ⟨[], .nil, nofun⟩
  | cons entry rest ih =>
    obtain ⟨name, s⟩ := entry
    rw [List.map_cons, componentMembers]
    refine .options_bind ?_
    by_cases hexcluded :
        (σ.options.excludeDeprecated && (schemaComponent (name, s)).deprecated) = true
    · rw [if_pos hexcluded]
      refine (ih aliases).weaken fun made hrest => ?_
      obtain ⟨written, heach, -⟩ := hrest
      exact ⟨written, heach, fun entry _ => .inr (Bool.and_eq_true_iff.mp hexcluded).1⟩
    · rw [if_neg hexcluded]
      refine (unfinishedType_made s _).bind fun u hmade => ?_
      obtain ⟨steps, hu⟩ := hmade
      refine (typeHook_gives u s _).bind fun result hresult => ?_
      refine (Gives.any _).bind fun aliases _ => ?_
      refine (ih aliases).bind fun made hrest => .pure ?_
      obtain ⟨written, heach, hall⟩ := hrest
      refine ⟨(name, s) :: written, .cons ⟨u, steps, hu, ?_, ?_⟩ heach, ?_⟩
      · intro t ht
        obtain rfl : result = some { type := some t, isOptional := true } := hresult.trans ht
        rfl
      · intro t ht hnone
        obtain rfl : result = none := hresult.trans hnone
        rw [hu.eq_union ht]
        rfl
      · intro entry hentry
        rcases List.mem_cons.mp hentry with rfl | hrest
        · exact .inl List.mem_cons_self
        · exact (hall entry hrest).imp_left (List.mem_cons_of_mem _)

/-- What is written of an object holds a member for each property that is not left out. -/
theorem objectType?_marks (body : SchemaBody) (s : Schema) (place : String) :
    Gives σ (objectType? body s place) fun t => ∃ before written members after index,
      t = objectWith? (before ++ members ++ after) index ∧
      List.Forall₂ (MarkedProperty σ body place) written members ∧
      ∀ name property, (name, some property) ∈ entriesOf s.properties →
        (name, property) ∈ written ∨ name = tagProperty σ s place ∨
          σ.options.excludeDeprecated = true := by
  refine .options_bind (.read_bind ?_)
  refine (Gives.entries _).bind fun listed hlisted => ?_
  refine (propertyMembers_marks body s place _ listed).bind fun members hmembers => ?_
  obtain ⟨written, heach, hall⟩ := hmembers
  refine (Gives.any _).bind fun _ _ => (Gives.any _).bind fun _ _ => ?_
  refine (Gives.any _).bind fun _ _ => .pure ⟨_, written, members, _, _, rfl, heach, ?_⟩
  exact fun name property hmem => hall name property (hlisted.mem_iff.mpr hmem)

/-- The first of the members for categories holds an entry for each schema that is not left out. -/
theorem componentsType_marks (c : Components) :
    Gives σ (componentsType c) fun made => ∃ written items categories,
      made.1 = .object (.plain "schemas" (if items.isEmpty then .never else .object items) ::
        categories) ∧
      List.Forall₂ (MarkedEntry σ) written items ∧
      ∀ entry ∈ entriesOf c.schemas, entry ∈ written ∨ σ.options.excludeDeprecated = true := by
  have hlist : Gives σ (listComponents c .schemas) fun list =>
      ∃ listed : List (String × Option Schema), listed.Perm (entriesOf c.schemas) ∧
        list = listed.map schemaComponent :=
    (Gives.entries c.schemas).bind fun listed hlisted => .pure ⟨listed, hlisted, rfl⟩
  have hcategories : Gives σ (categoryMembers c {} Category.all) fun made =>
      ∃ written items categories,
        made.1 = .plain "schemas" (if items.isEmpty then .never else .object items) ::
          categories ∧
        List.Forall₂ (MarkedEntry σ) written items ∧
        ∀ entry ∈ entriesOf c.schemas, entry ∈ written ∨ σ.options.excludeDeprecated = true := by
    refine hlist.bind fun list ⟨listed, hlisted, hmap⟩ => ?_
    subst hmap
    refine (componentMembers_marks listed {}).bind fun made ⟨written, heach, hall⟩ => ?_
    refine (Gives.any _).bind fun rest _ => .pure ⟨written, made.1, rest.1, rfl, heach, ?_⟩
    exact fun entry hentry => hall entry (hlisted.mem_iff.mpr hentry)
  refine hcategories.bind fun made ⟨written, items, categories, hmade, heach, hall⟩ => .pure ?_
  exact ⟨written, items, categories, congrArg TypeExpr.object hmade, heach, hall⟩

/-- Undefined has joined the type of a schema if it comes from a hook that says that the value may
be absent. -/
def Joined (σ : Setting) (body : SchemaBody) (s : Option Schema) (place : String) (e : TypeExpr) :
    Prop :=
  ∃ u, MadeFor σ body s place u ∧ ∀ t, MayBeAbsent σ s place u t → e = .unionOf [t, .undefined]

theorem typeWith_joined (body : SchemaBody) (s : Option Schema) (place : String) :
    Gives σ (typeWith body s place) (Joined σ body s place) := by
  refine (hookedType_marks body s place).map fun made ⟨u, hu, hmarks⟩ => ⟨u, hu, fun t ht => ?_⟩
  rw [(hmarks t).mpr ht]
  rfl

/-- Where it lands that a value may be absent, whatever hooks there are. -/
structure AbsenceLands (σ : Setting) : Prop where
  /-- A property is marked. -/
  property (body : SchemaBody) (s : Schema) (place : String) :
    Gives σ (objectType? body s place) fun t => ∃ before written members after index,
      t = objectWith? (before ++ members ++ after) index ∧
      List.Forall₂ (MarkedProperty σ body place) written members ∧
      ∀ name property, (name, some property) ∈ entriesOf s.properties →
        (name, property) ∈ written ∨ name = tagProperty σ s place ∨
          σ.options.excludeDeprecated = true
  /-- The entry of a component is marked by hooks on finished types, and by no others. -/
  entry (c : Components) :
    Gives σ (componentsType c) fun made => ∃ written items categories,
      made.1 = .object (.plain "schemas" (if items.isEmpty then .never else .object items) ::
        categories) ∧
      List.Forall₂ (MarkedEntry σ) written items ∧
      ∀ entry ∈ entriesOf c.schemas, entry ∈ written ∨ σ.options.excludeDeprecated = true
  /-- For a name of a list of types, undefined joins the type. -/
  listed (body : SchemaBody) (s : Schema) (place name : String) (t : TypeExpr) : name ≠ "null" →
    takenOver? σ (some (singled s name)) place = some (t, true) →
      Gives σ (singledType body s place name) (· = .unionOf [t, .undefined])
  /-- So it does for a schema below another one, -/
  below (body : SchemaBody) (s : Option Schema) (place : String) :
    Gives σ (typeWith body s place) (Joined σ body s place)
  /-- and for any other one. -/
  top (s : Option Schema) (place : String) :
    Gives σ (schemaType s place) fun e => ∃ steps, Joined σ (schemaBody steps) s place e

/-- A value that may be absent by the word of a hook is marked as a property, and undefined joins
its type anywhere else but at the entry of a component. There a mark is set for hooks on finished
types, and undefined joins the type for hooks that take a schema over. -/
theorem absence_lands (σ : Setting) : AbsenceLands σ where
  property := objectType?_marks
  entry := componentsType_marks
  listed body s place name t hname htaken := by
    unfold singledType
    rw [if_neg hname]
    exact (unfinishedWith_made body _ place).weaken fun u hu => hu.eq_union htaken
  below := typeWith_joined
  top s place :=
    (Gives.any (unfoldings s)).bind fun steps _ =>
      (typeWith_joined (schemaBody steps) s place).weaken fun _ he => ⟨steps, he⟩

/-- Takes over what is marked as a blob, which may be absent. -/
def blobHook : SchemaHook := fun s _ =>
  if (s.extension? "x-blob").isSome then
    some { type := some (.named "Blob"), isOptional := true }
  else none

/-- A text marked as a blob. -/
def blobSchema : Schema where
  types := some ["string"]
  extensions := [("x-blob", .bool true)]

/-- A property with the schema is marked. The entry of a component is not, and undefined joins its
type. -/
theorem blob_entry_not_marked :
    let σ : Setting := { schemaHooks := [blobHook] }
    let c : Components := { schemas := some (.ofList [("A", some blobSchema)]) }
    exec (propertyMembers (schemaBody 1) {} "#" "" [("file", some blobSchema)]) σ {} =
      (.ok [.property "file" true false (.named "Blob") []], {}) ∧
    (exec (componentsType c) σ {}).1.toOption.map (fun made => made.1) =
      some (.object (.plain "schemas" (.object
          [.property "A" false false (.union [.named "Blob", .undefined]) []]) ::
        ["responses", "parameters", "requestBodies", "headers", "pathItems"].map fun name =>
          .plain name .never)) :=
  ⟨rfl, rfl⟩

end ApiTypes.Typing
