import ApiTypes.Proofs.InputPlaces
import ApiTypes.Proofs.Navigation

/-!
Where the schemas of a document stand when their types are made. The way to a schema goes through
keywords and positions and through names that the document chooses: paths, names of components and
properties, media types, status codes. What is written out in place of a reference into another
document stands under that reference.
-/

namespace ApiTypes

theorem Schema.children_eq (s : Schema) (h : s.bool = none) :
    s.children = Schema.keyed "properties" s.properties ++
      s.additionalProperties.toList.map (fun t => (["additionalProperties"], some t)) ++
      Schema.keyed "$defs" s.defs ++ Schema.itemChildren s.items ++
      Schema.numbered "prefixItems" s.prefixItems ++ Schema.numbered "allOf" s.allOf ++
      Schema.numbered "oneOf" s.oneOf ++ Schema.numbered "anyOf" s.anyOf := by
  rw [Schema.children, if_neg (by simp [Schema.isBool, h])]

/-- A step on the way to a schema: a keyword or a position, or a name that the document chooses. -/
inductive Step where
  | key (text : String)
  | name (text : String)

def Step.text : Step → String
  | .key text => text
  | .name text => text

/-- The texts of some steps, as the tokens of a pointer. -/
def texts (steps : List Step) : List String := steps.map Step.text

/-- Schemas, each with the way to it. -/
abbrev Spots := List (List Step × Option Schema)

/-- The same schemas, seen from further up. -/
def Spots.under (steps : List Step) (spots : Spots) : Spots :=
  spots.map fun (more, s) => (steps ++ more, s)

/-- The spots of the values of a map. -/
def spotsOfEntries {α : Type} (m : Option (OrderedMap (Option α))) (spots : α → Spots) : Spots :=
  (entriesOf m).flatMap fun (name, x) => x.toList.flatMap fun x => (spots x).under [.name name]

def MediaType.spots (m : MediaType) : Spots :=
  m.schema.toList.map fun s => ([.key "schema"], some s)

def spotsOfContent (content : Content) : Spots := spotsOfEntries content MediaType.spots

/-- A header or a parameter has a schema or some content. -/
def spotsOfValue (schema : Option Schema) (content : Content) : Spots :=
  schema.toList.map (fun s => ([], some s)) ++ spotsOfContent content

def Header.spots (h : Header) : Spots := spotsOfValue h.schema h.content

def Parameter.spots (p : Parameter) : Spots := spotsOfValue p.schema p.content

def RequestBody.spots (b : RequestBody) : Spots := (spotsOfContent b.content).under [.key "content"]

def Response.spots (r : Response) : Spots :=
  (spotsOfEntries r.headers Header.spots).under [.key "headers"] ++
    (spotsOfContent r.content).under [.key "content"]

/-- Parameters stand under their locations and names. -/
def spotsOfParameters (list : List (Option Parameter)) : Spots :=
  list.flatMap fun p => p.toList.flatMap fun p =>
    p.spots.under [.key "parameters", .name p.location, .name p.name]

/-- An operation has the parameters of its path item as well as its own. -/
def Operation.spots (o : Operation) (shared : List (Option Parameter)) : Spots :=
  spotsOfParameters (shared ++ o.parameters.getD []) ++
    (o.requestBody.toList.flatMap fun b => b.spots.under [.key "requestBody"]) ++
    (spotsOfEntries o.responses Response.spots).under [.key "responses"]

def PathItem.spots (item : PathItem) : Spots :=
  spotsOfParameters (item.parameters.getD []) ++
    item.inOrder.flatMap fun (method, o) =>
      (o.spots (item.parameters.getD [])).under [.key method.name]

def spotsOfSchemas (schemas : Option (OrderedMap (Option Schema))) : Spots :=
  (entriesOf schemas).map fun (name, s) => ([.name name], s)

def Components.spots (c : Components) : Spots :=
  (spotsOfSchemas c.schemas).under [.key "schemas"] ++
    (spotsOfEntries c.responses Response.spots).under [.key "responses"] ++
    (spotsOfEntries c.parameters Parameter.spots).under [.key "parameters"] ++
    (spotsOfEntries c.requestBodies RequestBody.spots).under [.key "requestBodies"] ++
    (spotsOfEntries c.headers Header.spots).under [.key "headers"] ++
    (spotsOfEntries c.pathItems PathItem.spots).under [.key "pathItems"]

def Document.spots (doc : Document) : Spots :=
  (spotsOfEntries doc.paths PathItem.spots).under [.key "paths"] ++
    (spotsOfEntries doc.webhooks PathItem.spots).under [.key "webhooks"] ++
    Spots.under [.key "components"] (doc.components.elim [] Components.spots) ++
    (spotsOfSchemas doc.defs).under [.key "$defs"]

def Object.spots : Object → Spots
  | .schema s => [([], some s)]
  | .parameter p => p.spots
  | .requestBody b => b.spots
  | .response r => r.spots
  | .header h => h.spots
  | .mediaType m => m.spots
  | .pathItem item => item.spots
  | .operation o => o.spots []

/-- The steps of a path down from a schema: what comes after two of the keywords is a name. -/
def stepsOf : List String → List Step
  | [keyword, token] =>
    [.key keyword, if ["properties", "$defs"].contains keyword then .name token else .key token]
  | path => path.map .key

def Schema.spots (s : Schema) : Spots := s.children.map fun (path, child) => (stepsOf path, child)

/-- The schema stands at the steps down from a root, which is the document or a reference into
another one. It may be seen as a part of another, with more required keys, or for one of its
types. -/
inductive Document.Stands (doc : Document) :
    (root : String) → List Step → Option Schema → Prop where
  | listed {steps : List Step} {s : Option Schema} : (steps, s) ∈ doc.spots → doc.Stands "#" steps s
  | target {ref : String} {o : Object} {steps : List Step} {s : Option Schema} :
    Reference.isExternal ref = true → (steps, s) ∈ o.spots →
      doc.Stands (Reference.canonical ref) steps s
  | child {root : String} {steps more : List Step} {s : Schema} {child : Option Schema} :
    doc.Stands root steps (some s) → (more, child) ∈ s.spots →
      doc.Stands root (steps ++ more) child
  | required {root : String} {steps : List Step} {s : Schema} {keys : Option (List String)} :
    doc.Stands root steps (some s) → (∀ key, s.isRequired key = true → key ∈ keys.getD []) →
      doc.Stands root steps (some { s with required := keys })
  | singled {root : String} {steps : List Step} {s : Schema} (name : String) :
    doc.Stands root steps (some s) → doc.Stands root steps (some (Typing.singled s name))

/-! Which steps look like those into what a client sends. -/

namespace Step

/-- The step goes to a parameter or a request body. -/
def entersInput : Step → Bool
  | .key text => ["parameters", "requestBody", "requestBodies"].contains text
  | .name _ => false

/-- The step is taken for one that does: by its keyword, or as a name that starts like it. -/
def looksInput : Step → Bool
  | .key text => ["parameters", "requestBody"].contains text
  | .name text => Typing.startsInput text

/-- No keyword starts like one that leads to parameters or to a request body but these two. -/
def Proper (step : Step) : Prop := Typing.startsInput step.text = step.looksInput

theorem proper_name (text : String) : (Step.name text).Proper := rfl

theorem proper_key {text : String} (h : Typing.startsInput text = false) :
    (Step.key text).Proper := by
  have hlooks : (Step.key text).looksInput = false := by
    apply Bool.eq_false_iff.mpr
    intro hlooks
    rcases List.mem_pair.mp (List.contains_iff_mem.mp hlooks) with rfl | rfl
    · exact absurd h (by decide)
    · exact absurd h (by decide)
  exact h.trans hlooks.symm

theorem proper_position (i : Nat) : (Step.key (toString i)).Proper := by
  have hword (word : String) (hne : word.toList ≠ [])
      (hdigit : word.toList.any Char.isDigit = false) :
      Text.startsWith word (toString i) = false := by
    rw [Bool.eq_false_iff, Ne, Text.startsWith_iff]
    intro hstarts
    obtain ⟨c, hc⟩ := List.exists_mem_of_ne_nil _ hne
    exact List.any_eq_false.mp hdigit c hc (isDigit_of_mem_toString (hstarts.subset hc))
  apply proper_key
  rw [Typing.startsInput, hword "parameters" (by decide) (by decide),
    hword "requestBody" (by decide) (by decide)]
  rfl

end Step

/-- All steps on the ways to the schemas are proper. -/
def Spots.Proper (spots : Spots) : Prop := ∀ spot ∈ spots, ∀ step ∈ spot.1, step.Proper

namespace Spots.Proper

variable {spots more : Spots}

theorem append (h : spots.Proper) (hmore : more.Proper) : (spots ++ more).Proper := by
  intro spot hspot
  rcases List.mem_append.mp hspot with hmem | hmem
  · exact h spot hmem
  · exact hmore spot hmem

theorem under {steps : List Step} (hsteps : ∀ step ∈ steps, step.Proper) (h : spots.Proper) :
    (spots.under steps).Proper := by
  intro spot hspot step hstep
  obtain ⟨⟨rest, s⟩, hmem, rfl⟩ := List.mem_map.mp hspot
  rcases List.mem_append.mp hstep with hfirst | hrest
  · exact hsteps step hfirst
  · exact h _ hmem step hrest

theorem flatMap {α : Type} {list : List α} {f : α → Spots} (h : ∀ x, (f x).Proper) :
    Spots.Proper (list.flatMap f) := by
  intro spot hspot
  obtain ⟨x, -, hmem⟩ := List.mem_flatMap.mp hspot
  exact h x spot hmem

theorem entries {α : Type} (m : Option (OrderedMap (Option α))) {f : α → Spots}
    (h : ∀ x, (f x).Proper) : (spotsOfEntries m f).Proper :=
  flatMap fun _ => flatMap fun x => under (by simp [Step.proper_name]) (h x)

theorem key {text : String} (htext : (Step.key text).Proper) (h : spots.Proper) :
    (spots.under [.key text]).Proper :=
  under (by simpa using htext) h

end Spots.Proper

theorem MediaType.proper_spots (m : MediaType) : m.spots.Proper := by
  intro spot hspot step hstep
  obtain ⟨s, -, rfl⟩ := List.mem_map.mp hspot
  cases List.mem_singleton.mp hstep
  rfl

theorem proper_spotsOfContent (content : Content) : (spotsOfContent content).Proper :=
  .entries content MediaType.proper_spots

theorem proper_spotsOfValue (schema : Option Schema) (content : Content) :
    (spotsOfValue schema content).Proper := by
  refine .append ?_ (proper_spotsOfContent content)
  intro spot hspot step hstep
  obtain ⟨s, -, rfl⟩ := List.mem_map.mp hspot
  cases hstep

theorem RequestBody.proper_spots (b : RequestBody) : b.spots.Proper :=
  .key rfl (proper_spotsOfContent b.content)

theorem Response.proper_spots (r : Response) : r.spots.Proper :=
  .append (.key rfl (.entries r.headers fun h => proper_spotsOfValue h.schema h.content))
    (.key rfl (proper_spotsOfContent r.content))

theorem proper_spotsOfParameters (list : List (Option Parameter)) :
    (spotsOfParameters list).Proper := by
  refine .flatMap fun _ => .flatMap fun p => .under ?_ (proper_spotsOfValue p.schema p.content)
  intro step hstep
  simp only [List.mem_cons, List.not_mem_nil, or_false] at hstep
  rcases hstep with rfl | rfl | rfl <;> rfl

theorem Operation.proper_spots (o : Operation) (shared : List (Option Parameter)) :
    (o.spots shared).Proper :=
  .append (.append (proper_spotsOfParameters _) (.flatMap fun b => .key rfl b.proper_spots))
    (.key rfl (.entries o.responses Response.proper_spots))

theorem proper_method (method : Method) : (Step.key method.name).Proper := by
  cases method <;> rfl

theorem PathItem.proper_spots (item : PathItem) : item.spots.Proper :=
  .append (proper_spotsOfParameters _)
    (.flatMap fun entry => .key (proper_method entry.1) (entry.2.proper_spots _))

theorem proper_spotsOfSchemas (schemas : Option (OrderedMap (Option Schema))) :
    (spotsOfSchemas schemas).Proper := by
  intro spot hspot step hstep
  obtain ⟨⟨name, s⟩, -, rfl⟩ := List.mem_map.mp hspot
  cases List.mem_singleton.mp hstep
  rfl

theorem Components.proper_spots (c : Components) : c.spots.Proper := by
  have hvalue (schema : Option Schema) (content : Content) := proper_spotsOfValue schema content
  refine .append (.append (.append (.append (.append ?_ ?_) ?_) ?_) ?_) ?_
  · exact .key rfl (proper_spotsOfSchemas c.schemas)
  · exact .key rfl (.entries c.responses Response.proper_spots)
  · exact .key rfl (.entries c.parameters fun p => hvalue p.schema p.content)
  · exact .key rfl (.entries c.requestBodies RequestBody.proper_spots)
  · exact .key rfl (.entries c.headers fun h => hvalue h.schema h.content)
  · exact .key rfl (.entries c.pathItems PathItem.proper_spots)

theorem Document.proper_spots (doc : Document) : doc.spots.Proper := by
  refine .append (.append (.append ?_ ?_) ?_) ?_
  · exact .key rfl (.entries doc.paths PathItem.proper_spots)
  · exact .key rfl (.entries doc.webhooks PathItem.proper_spots)
  · refine .key rfl ?_
    cases doc.components with
    | none => exact nofun
    | some c => exact c.proper_spots
  · exact .key rfl (proper_spotsOfSchemas doc.defs)

theorem Object.proper_spots (o : Object) : o.spots.Proper := by
  cases o with
  | schema s => simp [Object.spots, Spots.Proper]
  | parameter p => exact proper_spotsOfValue p.schema p.content
  | requestBody b => exact b.proper_spots
  | response r => exact r.proper_spots
  | header h => exact proper_spotsOfValue h.schema h.content
  | mediaType m => exact m.proper_spots
  | pathItem item => exact item.proper_spots
  | operation o => exact o.proper_spots []

theorem Schema.proper_spots (s : Schema) : s.spots.Proper := by
  have hkeyed {keyword : String} (hkeyword : ["properties", "$defs"].contains keyword = true)
      (schemas : Option (OrderedMap (Option Schema))) :
      ∀ entry ∈ keyed keyword schemas, ∀ step ∈ stepsOf entry.1, step.Proper := by
    rintro entry hentry step hstep
    obtain ⟨⟨name, child⟩, -, rfl⟩ := List.mem_map.mp hentry
    rw [stepsOf, if_pos hkeyword] at hstep
    rcases List.mem_pair.mp hstep with rfl | rfl
    · rcases List.mem_pair.mp (List.contains_iff_mem.mp hkeyword) with rfl | rfl <;> rfl
    · exact Step.proper_name name
  have hnumbered (keyword : String) (hkeyword : ["properties", "$defs"].contains keyword = false)
      (hproper : (Step.key keyword).Proper) (schemas : Option (List (Option Schema))) :
      ∀ entry ∈ numbered keyword schemas, ∀ step ∈ stepsOf entry.1, step.Proper := by
    rintro entry hentry step hstep
    obtain ⟨⟨child, i⟩, -, rfl⟩ := List.mem_map.mp hentry
    rw [stepsOf, hkeyword] at hstep
    rcases List.mem_pair.mp hstep with rfl | rfl
    · exact hproper
    · exact Step.proper_position i
  have hitems : ∀ entry ∈ itemChildren s.items, ∀ step ∈ stepsOf entry.1, step.Proper := by
    unfold itemChildren
    split
    · nofun
    · intro entry hentry step hstep
      cases List.mem_singleton.mp hentry
      cases List.mem_singleton.mp hstep
      rfl
    · exact hnumbered "items" rfl rfl _
  have hfurther : ∀ entry ∈ s.additionalProperties.toList.map fun t =>
      (["additionalProperties"], some t), ∀ step ∈ stepsOf entry.1, step.Proper := by
    intro entry hentry step hstep
    obtain ⟨t, -, rfl⟩ := List.mem_map.mp hentry
    cases List.mem_singleton.mp hstep
    rfl
  intro spot hspot
  obtain ⟨entry, hentry, rfl⟩ := List.mem_map.mp hspot
  cases hbool : s.bool with
  | some b =>
    rw [children, if_pos (by simp [isBool, hbool])] at hentry
    cases hentry
  | none =>
    rw [children_eq s hbool] at hentry
    simp only [List.mem_append] at hentry
    rcases hentry with ((((((h | h) | h) | h) | h) | h) | h) | h
    · exact hkeyed rfl _ entry h
    · exact hfurther entry h
    · exact hkeyed rfl _ entry h
    · exact hitems entry h
    · exact hnumbered "prefixItems" rfl rfl _ entry h
    · exact hnumbered "allOf" rfl rfl _ entry h
    · exact hnumbered "oneOf" rfl rfl _ entry h
    · exact hnumbered "anyOf" rfl rfl _ entry h

theorem Document.Stands.proper {doc : Document} {root : String} {steps : List Step}
    {s : Option Schema} (h : doc.Stands root steps s) : ∀ step ∈ steps, step.Proper := by
  induction h with
  | listed hmem => exact doc.proper_spots _ hmem
  | @target ref o steps s _ hmem => exact o.proper_spots _ hmem
  | @child root steps more s child _ hmem ih =>
    intro step hstep
    rcases List.mem_append.mp hstep with hfirst | hrest
    · exact ih step hfirst
    · exact s.proper_spots _ hmem step hrest
  | required _ _ ih => exact ih
  | singled name _ ih => exact ih

/-- A place looks like one in what a client sends if the root does or a step on the way to it. -/
theorem Document.Stands.isInput_eq {doc : Document} {root : String} {steps : List Step}
    {s : Option Schema} (h : doc.Stands root steps s) :
    Typing.isInput (Reference.join root (texts steps)) =
      (Typing.isInput root || steps.any Step.looksInput) := by
  have hsteps : (texts steps).any Typing.startsInput = steps.any Step.looksInput := by
    rw [texts, List.any_map, Bool.eq_iff_iff, List.any_eq_true, List.any_eq_true]
    constructor
    · rintro ⟨step, hstep, hstarts⟩
      exact ⟨step, hstep, (h.proper step hstep).symm.trans hstarts⟩
    · rintro ⟨step, hstep, hlooks⟩
      exact ⟨step, hstep, (h.proper step hstep).trans hlooks⟩
  rw [Typing.isInput_join, hsteps]

end ApiTypes
