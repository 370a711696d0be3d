import ApiTypes.Proofs.Names
import ApiTypes.Proofs.ParameterLists
import ApiTypes.Proofs.SchemaSize
import ApiTypes.Proofs.Typing.DocumentSiting

/-!
Which properties with a default may be left out. That is read off the place of their object: off the
text of its pointer, in which keywords cannot be told from names that the document chooses, and one
of the keywords goes unnoticed.
-/

namespace ApiTypes

open Typing

theorem texts_stepsOf (path : List String) : texts (stepsOf path) = path := by
  unfold stepsOf
  split
  · split <;> rfl
  · rw [texts, List.map_map]
    exact List.map_id _

namespace Typing

variable {σ σ' : Setting}

/-! What is written for the properties of an object. -/

/-- The member for a property. It may be left out if `isOptional` says so, or if a hook does. -/
def IsMemberFor (σ : Setting) (isOptional : String → Schema → Bool) (entry : String × Schema)
    (m : Member) : Prop :=
  ∃ byHook isReadonly t, (HookFree σ → byHook = false) ∧
    m = .property entry.1 (isOptional entry.1 entry.2 || byHook) isReadonly t entry.2.doc

/-- The members stand for properties of a list: for all but the one of the tag and, under the option
for it, those that are deprecated. -/
structure WrittenFor (σ : Setting) (tag : String) (isOptional : String → Schema → Bool)
    (list : List (String × Option Schema)) (written : List (String × Schema))
    (members : List Member) : Prop where
  each : List.Forall₂ (IsMemberFor σ isOptional) written members
  listed : ∀ entry ∈ written, (entry.1, some entry.2) ∈ list
  all : ∀ name property, (name, some property) ∈ list →
    (name, property) ∈ written ∨ name = tag ∨ σ.options.excludeDeprecated = true

/-- What is written of an object holds the members for its properties. -/
def WritesProperties (σ : Setting) (s : Schema) (tag : String)
    (isOptional : String → Schema → Bool) (t : Option TypeExpr) : Prop :=
  ∃ before written members after index,
    t = objectWith? (before ++ members ++ after) index ∧
    WrittenFor σ tag isOptional (entriesOf s.properties) written members

namespace WrittenFor

variable {tag name : String} {isOptional : String → Schema → Bool}
  {list : List (String × Option Schema)} {written : List (String × Schema)} {members : List Member}

theorem skip (h : WrittenFor σ tag isOptional list written members) {property : Option Schema}
    (hleft : property.isSome = true → name = tag ∨ σ.options.excludeDeprecated = true) :
    WrittenFor σ tag isOptional ((name, property) :: list) written members where
  each := h.each
  listed entry hentry := List.mem_cons_of_mem _ (h.listed entry hentry)
  all := by
    intro name' property' hmem
    rcases List.mem_cons.mp hmem with heq | hrest
    · cases heq
      exact .inr (hleft rfl)
    · exact h.all name' property' hrest

theorem cons (h : WrittenFor σ tag isOptional list written members) {property : Schema}
    {m : Member} (hm : IsMemberFor σ isOptional (name, property) m) :
    WrittenFor σ tag isOptional ((name, some property) :: list) ((name, property) :: written)
      (m :: members) where
  each := .cons hm h.each
  listed := by
    intro entry hentry
    rcases List.mem_cons.mp hentry with rfl | hrest
    · exact List.mem_cons_self
    · exact List.mem_cons_of_mem _ (h.listed entry hrest)
  all := by
    intro name' property' hmem
    rcases List.mem_cons.mp hmem with heq | hrest
    · cases heq
      exact .inl List.mem_cons_self
    · exact (h.all name' property' hrest).imp (List.mem_cons_of_mem _) id

end WrittenFor

theorem hookedType_gives (body : SchemaBody) (s : Option Schema) (place : String) :
    Gives σ (hookedType body s place) fun made => HookFree σ → made.2 = false := by
  constructor
  intro p made q hrun hσ
  rw [exec_hookedType hσ, exec_map] at hrun
  cases hbody : exec (body s place) σ p with
  | mk result r =>
    rw [hbody] at hrun
    cases result with
    | error e => cases hrun
    | ok t =>
      cases hrun
      rfl

theorem isDropped_gives (tag name : String) (property : Schema) :
    Gives σ (isDropped tag name property) fun dropped =>
      dropped = true → name = tag ∨ σ.options.excludeDeprecated = true := by
  refine .options_bind ?_
  split
  · rename_i hdeprecated
    exact (Gives.any _).weaken fun _ _ _ => .inr (Bool.and_eq_true_iff.mp hdeprecated).2
  · exact .pure fun h => .inl (by simpa using h)

/-- A member is written for each property that is not left out. -/
theorem propertyMembers_writes (body : SchemaBody) (s : Schema) (place tag : String)
    (list : List (String × Option Schema)) :
    Gives σ (propertyMembers body s place tag list) fun members => ∃ written,
      WrittenFor σ tag (isOptionalProperty σ.options s place) list written members := by
  induction list with
  | nil => exact .pure ⟨[], .nil, nofun, nofun⟩
  | cons entry rest ih =>
    obtain ⟨name, property⟩ := entry
    cases property with
    | none => exact ih.weaken fun members ⟨written, hrest⟩ => ⟨written, hrest.skip nofun⟩
    | some property =>
      rw [propertyMembers]
      refine (isDropped_gives tag name property).bind fun dropped hdropped => ?_
      cases dropped with
      | true =>
        exact ih.weaken fun members ⟨written, hrest⟩ =>
          ⟨written, hrest.skip fun _ => hdropped rfl⟩
      | false =>
        refine .options_bind ?_
        refine (hookedType_gives body _ _).bind fun made hmade => ?_
        refine ih.bind fun members ⟨written, hrest⟩ => .pure ⟨_, hrest.cons ?_⟩
        exact ⟨made.2, _, _, hmade, rfl⟩

/-- The property of the tag that the schema at a place carries, or the empty text. -/
def tagProperty (σ : Setting) (s : Schema) (place : String) : String :=
  (tagOf? σ.discriminators s place).elim "" (·.propertyName)

theorem objectType?_writes (body : SchemaBody) (s : Schema) (place : String) :
    Gives σ (objectType? body s place)
      (WritesProperties σ s (tagProperty σ s place) (isOptionalProperty σ.options s place)) := by
  refine .options_bind (.read_bind ?_)
  refine (Gives.entries _).bind fun listed hlisted => ?_
  refine (propertyMembers_writes body s place _ listed).bind fun members hmembers => ?_
  obtain ⟨written, hmembers⟩ := hmembers
  refine (Gives.any _).bind fun _ _ => (Gives.any _).bind fun _ _ => ?_
  refine (Gives.any _).bind fun _ _ => .pure ⟨_, written, members, _, _, rfl, hmembers.each, ?_, ?_⟩
  · exact fun entry hentry => hlisted.mem_iff.mp (hmembers.listed entry hentry)
  · exact fun name property hmem => hmembers.all name property (hlisted.mem_iff.mpr hmem)

/-! Where types are made. -/

/-- The declarations that are made for a document. -/
def declsOf (doc : Document) (request : Request) : Option (List Decl) :=
  (generate doc request).toOption.map (·.decls)

theorem declsOf_eq (doc : Document) (request : Request) :
    declsOf doc request = match doc.checkVersion with
      | .error _ => none
      | .ok _ =>
        (exec (documentDecls doc) (settingOf doc request) (startOf doc request)).1.toOption := by
  rw [declsOf, generate_eq]
  cases doc.checkVersion with
  | error e => rfl
  | ok _ =>
    cases exec (documentDecls doc) (settingOf doc request) (startOf doc request) with
    | mk result q => cases result <;> rfl

/-- What is typed at the place counts: a hook that takes over nothing elsewhere changes what is
declared. -/
def TypedAt (doc : Document) (request : Request) (place : String) : Prop :=
  ∃ hook : SchemaHook, (∀ s place', place' ≠ place → hook s place' = none) ∧
    declsOf doc { request with schemaHooks := hook :: request.schemaHooks } ≠ declsOf doc request

/-- The schema stands at the place. -/
def StandsAt (doc : Document) (s : Option Schema) (place : String) : Prop :=
  ∃ root steps, doc.Stands root steps s ∧ place = Reference.join root (texts steps)

/-- What stands in a document is typed as before beside a hook that takes none of it over. -/
theorem settled_hooked {doc : Document} {request : Request} {hook : SchemaHook}
    (hhook : ∀ s place, StandsAt doc (some s) place → hook s place = none) :
    Settled (settingOf doc request)
      (settingOf doc { request with schemaHooks := hook :: request.schemaHooks })
      fun s place place' => place = place' ∧ StandsAt doc s place where
  options := rfl
  discriminators := rfl
  typeHooks := rfl
  taken := by
    rintro s place _ ⟨rfl, hs⟩
    cases s with
    | none => rfl
    | some s =>
      have hhooks : (settingOf doc { request with
          schemaHooks := hook :: request.schemaHooks }).schemaHooks =
          hook :: (settingOf doc request).schemaHooks := rfl
      rw [takenOver?, takenOver?, hhooks, Option.bind_some, Option.bind_some, List.findSome?_cons,
        hhook s place hs, Option.bind_none]
  replaced := by
    rintro s place _ t ⟨rfl, -⟩
    rfl
  hoisting h _ := h.1
  tag := by
    rintro s place _ ⟨rfl, -⟩
    rfl
  optional := by
    rintro s property place _ name ⟨rfl, -⟩ -
    rfl
  child := by
    rintro s child place _ path ⟨rfl, root, steps, hs, rfl⟩ hmem
    refine ⟨rfl, root, _, hs.child (List.mem_map.mpr ⟨_, hmem, rfl⟩), ?_⟩
    rw [Reference.join_join, texts, texts, List.map_append, ← texts, ← texts, texts_stepsOf]
  required := by
    rintro s place _ keys ⟨rfl, root, steps, hs, rfl⟩ hkeys
    exact ⟨rfl, root, steps, hs.required hkeys, rfl⟩
  singled := by
    rintro s place _ name ⟨rfl, root, steps, hs, rfl⟩
    exact ⟨rfl, root, steps, hs.singled name, rfl⟩
  target s hexternal :=
    ⟨rfl, _, [], .target (o := .schema s) hexternal (List.mem_singleton_self _),
      (Reference.join_canonical hexternal).symm⟩
  targets o hexternal spot hspot := ⟨rfl, _, spot.1, .target hexternal hspot, rfl⟩

/-- Where a type counts there stands a schema. -/
theorem TypedAt.stands {doc : Document} {request : Request} {place : String}
    (h : TypedAt doc request place) : ∃ s, StandsAt doc (some s) place := by
  obtain ⟨hook, hhook, hne⟩ := h
  by_contra hnot
  have hsettled := @settled_hooked doc request hook fun s place' hs =>
    hhook s place' fun heq => hnot ⟨s, heq ▸ hs⟩
  have hsited : Sited (fun s place place' => place = place' ∧ StandsAt doc s place) "#" "#"
      doc.spots :=
    fun spot hspot => ⟨rfl, "#", spot.1, .listed hspot, rfl⟩
  have hsteady := documentDecls_steady hsettled hsited
  have hends := hsteady.tied (startOf doc request) (startOf doc request) ⟨_, rfl⟩
  apply hne
  rw [declsOf_eq, declsOf_eq]
  cases doc.checkVersion with
  | error e => rfl
  | ok _ => exact hends.toOption_eq.symm

/-! What is typed alike wherever it stands. -/

/-- All properties with a default in the schema and below it are listed as required. -/
def RequiresDefaults (s : Schema) : Prop :=
  ∀ x ∈ s.walk, ∀ name property, (name, some property) ∈ entriesOf x.properties →
    property.hasDefault = true → x.isRequired name = true

/-- What hooks decide does not depend on the place. -/
structure PlaceBlind (σ : Setting) : Prop where
  taken (s : Option Schema) (place place' : String) : takenOver? σ s place = takenOver? σ s place'
  replaced (t : TypeExpr) (s : Option Schema) (place place' : String) :
    replaced? σ t s place = replaced? σ t s place'

theorem RequiresDefaults.of_children {s t : Schema} (h : RequiresDefaults s)
    (hchildren : t.children ⊆ s.children)
    (hself : ∀ name property, (name, some property) ∈ entriesOf t.properties →
      property.hasDefault = true → t.isRequired name = true) : RequiresDefaults t := by
  intro x hx
  rw [Schema.walk_eq] at hx
  rcases List.mem_cons.mp hx with rfl | hbelow
  · exact hself
  · obtain ⟨entry, hentry, hmem⟩ := List.mem_flatMap.mp hbelow
    apply h x
    rw [Schema.walk_eq]
    exact List.mem_cons_of_mem _ (List.mem_flatMap.mpr ⟨entry, hchildren hentry, hmem⟩)

theorem RequiresDefaults.self {s : Schema} (h : RequiresDefaults s) {name : String}
    {property : Schema} (hmem : (name, some property) ∈ entriesOf s.properties)
    (hdefault : property.hasDefault = true) : s.isRequired name = true := by
  refine h s ?_ name property hmem hdefault
  rw [Schema.walk_eq]
  exact List.mem_cons_self

theorem RequiresDefaults.child {s child : Schema} (h : RequiresDefaults s) {path : List String}
    (hchild : (path, some child) ∈ s.children) : RequiresDefaults child := by
  intro x hx
  apply h x
  rw [Schema.walk_eq]
  exact List.mem_cons_of_mem _ (List.mem_flatMap.mpr ⟨_, hchild, hx⟩)

theorem RequiresDefaults.required {s : Schema} (h : RequiresDefaults s)
    {keys : Option (List String)} (hkeys : ∀ key, s.isRequired key = true → key ∈ keys.getD []) :
    RequiresDefaults { s with required := keys } := by
  have hchildren : Schema.children { s with required := keys } = s.children := rfl
  refine h.of_children (by rw [hchildren]; exact List.Subset.refl _) ?_
  intro name property hmem hdefault
  exact List.contains_iff_mem.mpr (hkeys name (h.self hmem hdefault))

/-- Two places that are both taken for places in what a client sends, or neither, or a schema for
which that does not matter. -/
def Moved (s : Option Schema) (place place' : String) : Prop :=
  isInput place = isInput place' ∨ ∀ x ∈ s, RequiresDefaults x

theorem siting_moved (henum : σ.options.enum = false) (hvariants : σ.discriminators.variants = [])
    (hhooks : PlaceBlind σ) : Siting σ σ Moved where
  options := rfl
  discriminators := rfl
  taken _ := hhooks.taken _ _ _
  replaced t _ := hhooks.replaced t _ _ _
  hoisting _ h := absurd (henum.symm.trans h) (by decide)
  tag := by
    intro s place place' _
    rw [tagOf?, tagOf?, Discriminators.variant?, Discriminators.variant?, hvariants,
      List.lookup_nil, List.lookup_nil]
  optional := by
    intro s property place place' name hs hmem
    unfold isOptionalProperty
    rcases hs with hplaces | hrequires
    · rw [hplaces]
    · cases hdefault : property.hasDefault with
      | false => rfl
      | true => rw [(hrequires s rfl).self hmem hdefault, Bool.true_or, Bool.true_or]; rfl
  child := by
    intro s child place place' path hs hmem
    refine hs.imp (fun hplaces => by rw [isInput_join, isInput_join, hplaces]) fun hrequires => ?_
    rintro x rfl
    exact (hrequires s rfl).child hmem
  required := by
    intro s place place' keys hs hkeys
    refine hs.imp id fun hrequires => ?_
    rintro x ⟨⟩
    exact (hrequires s rfl).required hkeys
  singled := by
    intro s place place' name hs
    refine hs.imp id fun hrequires => ?_
    rintro x ⟨⟩
    exact (hrequires s rfl).of_children (children_singled s name).subset
      fun _ _ => (hrequires s rfl).self
  target _ _ := .inl rfl

/-- The type of a request body at two places. -/
theorem requestBodyType_moved (henum : σ.options.enum = false)
    (hvariants : σ.discriminators.variants = []) (hhooks : PlaceBlind σ) {b : RequestBody}
    {place place' : String}
    (h : isInput place = isInput place' ∨ ∀ spot ∈ b.spots, ∀ s ∈ spot.2, RequiresDefaults s)
    (p : Progress) :
    (exec (requestBodyType b place) σ p).1.toOption =
      (exec (requestBodyType b place') σ p).1.toOption := by
  have hsited : Sited Moved place place' b.spots := by
    intro spot hspot
    refine h.imp (fun hplaces => ?_) fun hrequires => hrequires spot hspot
    rw [isInput_join, isInput_join, hplaces]
  have hmatches := requestBodyType_matches (siting_moved henum hvariants hhooks) hsited
  exact (hmatches.tied p p ⟨_, rfl⟩).toOption_eq

/-- Whatever is typed at a place that counts, a property with a default may be left out, unless it
is listed as required, exactly if that place looks like one in what a client sends: if the way to it
goes through the parameters or the request body of an operation, or through a name that starts like
them. A request body has the same type in an operation and among the components if the name of the
component starts so, or if all properties with a default are required. -/
theorem defaults_by_place {doc : Document} {request : Request}
    (hdefaults : request.options.defaultNonNullable = true)
    (hrequired : request.options.propertiesRequiredByDefault = false) :
    (∀ place, TypedAt doc request place → ∃ x root steps,
      doc.Stands root steps (some x) ∧ place = Reference.join root (texts steps) ∧
      ∀ body s, Gives (settingOf doc request) (objectType? body s place)
        (WritesProperties (settingOf doc request) s (tagProperty (settingOf doc request) s place)
          fun name property => !(s.isRequired name || (property.hasDefault &&
            !(isInput root || steps.any Step.looksInput))))) ∧
    (request.options.enum = false → (settingOf doc request).discriminators.variants = [] →
      PlaceBlind (settingOf doc request) → ∀ (b : RequestBody) (operation name : String),
      (startsInput name = true ∨ ∀ spot ∈ b.spots, ∀ s ∈ spot.2, RequiresDefaults s) → ∀ p,
        (exec (requestBodyType b (Reference.join operation ["requestBody"]))
          (settingOf doc request) p).1.toOption =
        (exec (requestBodyType b (Reference.join "#" ["components", "requestBodies", name]))
          (settingOf doc request) p).1.toOption) := by
  constructor
  · intro place htyped
    obtain ⟨x, root, steps, hstands, hplace⟩ := htyped.stands
    refine ⟨x, root, steps, hstands, hplace, fun body s => ?_⟩
    have hoptional : isOptionalProperty (settingOf doc request).options s place =
        fun name property => !(s.isRequired name || (property.hasDefault &&
          !(isInput root || steps.any Step.looksInput))) := by
      funext name property
      rw [← hstands.isInput_eq, ← hplace, isOptionalProperty,
        show (settingOf doc request).options = request.options from rfl, hdefaults, hrequired,
        Bool.and_false, Bool.or_false, Bool.and_true]
    rw [← hoptional]
    exact objectType?_writes body s place
  · intro henum hvariants hhooks b operation name hname p
    refine requestBodyType_moved henum hvariants hhooks (hname.imp_left fun hname => ?_) p
    have hbody : startsInput "requestBody" = true := by decide
    rw [isInput_join, isInput_join]
    simp [hbody, hname]

/-- An object with a number that is one unless it is given. -/
def pageSchema : Schema where
  types := some ["object"]
  properties := some (.ofList [("page",
    some { types := some ["integer"], default := .int 1, hasDefault := true })])

/-- Asks for a page. -/
def pageBody : RequestBody where
  content := some (.ofList [("application/json", some { schema := some pageSchema })])

/-- A page is asked for in place and by a component, and a schema is named like a keyword. -/
def pageDocument : Document where
  openapi := "3.1.0"
  paths := some (.ofList [("/search",
    some { operation? := (List.lookup · [(.post, { requestBody := some pageBody })]) })])
  components := some {
    schemas := some (.ofList [("parameters", some pageSchema)])
    requestBodies := some (.ofList [("Search", some pageBody)]) }

/-- The members at a path below the type of a root, each with whether it has to be there. -/
def requirementsAt (decls : List Decl) (root : String) (path : List String) :
    List (String × Bool) :=
  (TypeExpr.object (path.foldl (fun members key => membersUnder key members)
    (declaredMembers decls root))).requirements

/-- The page that is asked for in place may be left out, as it may where the component is named like
a keyword. -/
theorem defaults_by_place_page :
    let request : Request := { options := { defaultNonNullable := true } }
    let σ := settingOf pageDocument request
    let place := "#/paths/~1search/post/requestBody/content/application~1json/schema"
    TypedAt pageDocument request place ∧
    (∀ body, Gives σ (objectType? body pageSchema place)
      (WritesProperties σ pageSchema "" fun name property =>
        !(pageSchema.isRequired name || (property.hasDefault && !true)))) ∧
    ∀ p, (exec (requestBodyType pageBody "#/paths/~1search/post/requestBody") σ p).1.toOption =
      (exec (requestBodyType pageBody "#/components/requestBodies/parametersOfSearch")
        σ p).1.toOption := by
  intro request σ place
  have hvariants : σ.discriminators.variants = [] := by decide +kernel
  obtain ⟨hplaces, hbodies⟩ := @defaults_by_place pageDocument request rfl rfl
  have htyped : TypedAt pageDocument request place := by
    let named (_ : Schema) (place' : String) : Option HookResult :=
      if place' = place then some { type := some (.named "Page") } else none
    refine ⟨named, fun _ _ hne => if_neg hne, fun hsame => ?_⟩
    have hshown := congrArg (Option.map fun decls => requirementsAt decls "paths"
      ["/search", "post", "requestBody", "content", "application/json"]) hsame
    exact absurd hshown (by decide +kernel)
  refine ⟨htyped, fun body => ?_, ?_⟩
  · obtain ⟨x, root, steps, hstands, hplace, hgives⟩ := hplaces place htyped
    have hinput : (isInput root || steps.any Step.looksInput) = true := by
      rw [← hstands.isInput_eq, ← hplace]
      decide
    have htag : tagProperty σ pageSchema place = "" := by
      rw [tagProperty, tagOf?, Discriminators.variant?, hvariants, List.lookup_nil]
      rfl
    have hpage := hgives body pageSchema
    rwa [hinput, htag] at hpage
  · exact hbodies rfl hvariants ⟨fun s _ _ => by cases s <;> rfl, fun _ _ _ _ => rfl⟩ pageBody
      "#/paths/~1search/post" "parametersOfSearch" (.inl (by decide))

/-- The page has to be given to the component, which is a request body, though it may be left out in
the operation; and it may be left out under a name like a keyword, which is none. -/
theorem page_misplaced :
    pageDocument.Stands "#" [.key "components", .key "requestBodies", .name "Search",
      .key "content", .name "application/json", .key "schema"] (some pageSchema) ∧
    (Step.key "requestBodies").entersInput = true ∧
    pageDocument.Stands "#" [.key "components", .key "schemas", .name "parameters"]
      (some pageSchema) ∧
    [Step.key "components", .key "schemas", .name "parameters"].any Step.entersInput = false ∧
    ∃ output, generate pageDocument { options := { defaultNonNullable := true } } = .ok output ∧
      requirementsAt output.decls "paths"
        ["/search", "post", "requestBody", "content", "application/json"] = [("page", false)] ∧
      requirementsAt output.decls "components"
        ["requestBodies", "Search", "content", "application/json"] = [("page", true)] ∧
      requirementsAt output.decls "components" ["schemas", "parameters"] = [("page", false)] := by
  refine ⟨.listed ?_, by decide, .listed ?_, by decide, exists_output (by decide +kernel)⟩
  · exact List.mem_cons_of_mem _ (List.mem_cons_of_mem _ List.mem_cons_self)
  · exact List.mem_cons_of_mem _ List.mem_cons_self

end Typing

end ApiTypes
