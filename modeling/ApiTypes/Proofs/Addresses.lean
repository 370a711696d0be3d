import ApiTypes.Proofs.LeastTagging
import ApiTypes.Proofs.Places

/-!
The index of a document goes through its objects in preorder: each object comes right before those
inside it. With no two ways out of an object starting the same, no two objects stand at the same
tokens, so no pointer is given twice, and the pointers of a document name its objects one to one.
-/

namespace ApiTypes

/-- The listing goes through the objects under the roots in preorder. -/
inductive Preorder : List (List String × Object) → List (List String × Object) → Prop where
  | nil : Preorder [] []
  | cons {tokens : List String} {o : Object} {roots inside others : List (List String × Object)} :
    Preorder (downFrom tokens o.branches) inside → Preorder roots others →
      Preorder ((tokens, o) :: roots) ((tokens, o) :: inside ++ others)

namespace Preorder

variable {roots others listing : List (List String × Object)} {tokens : List String} {o : Object}

theorem append {listing' : List (List String × Object)} (h : Preorder roots listing)
    (h' : Preorder others listing') : Preorder (roots ++ others) (listing ++ listing') := by
  induction h with
  | nil => exact h'
  | cons hinside _ _ ih =>
    rw [List.append_assoc]
    exact .cons hinside ih

theorem single {inside : List (List String × Object)}
    (h : Preorder (downFrom tokens o.branches) inside) :
    Preorder [(tokens, o)] ((tokens, o) :: inside) := by
  have hcons := Preorder.cons h .nil
  rwa [List.append_nil] at hcons

/-- Whatever is listed lies under a root, at the end of a way down from it. -/
theorem leads_of_mem (h : Preorder roots listing) (hmem : (tokens, o) ∈ listing) :
    ∃ way root rest, (way, root) ∈ roots ∧ root.Leads rest o ∧ tokens = way ++ rest := by
  induction h with
  | nil => cases hmem
  | @cons here top _ _ _ _ _ ihinside ihothers =>
    rcases List.mem_append.mp hmem with hhead | hothers
    · rcases List.mem_cons.mp hhead with heq | hinside
      · obtain ⟨rfl, rfl⟩ := Prod.mk.inj heq
        exact ⟨_, _, [], List.mem_cons_self, .here _, (List.append_nil _).symm⟩
      · obtain ⟨_, root, rest, hroot, hleads, rfl⟩ := ihinside hinside
        obtain ⟨⟨way, next⟩, hnext, heq⟩ := List.mem_map.mp hroot
        obtain ⟨rfl, rfl⟩ := Prod.mk.inj heq
        exact ⟨here, top, way ++ rest, List.mem_cons_self, .down hnext hleads,
          List.append_assoc _ _ _⟩
    · obtain ⟨way, root, rest, hroot, hleads, heq⟩ := ihothers hothers
      exact ⟨way, root, rest, List.mem_cons_of_mem _ hroot, hleads, heq⟩

/-- Whatever stands at the end of a way down from a root is listed. -/
theorem mem_of_leads (h : Preorder roots listing) {way rest : List String} {root : Object}
    (hroot : (way, root) ∈ roots) (hleads : root.Leads rest o) : (way ++ rest, o) ∈ listing := by
  induction h generalizing way rest root with
  | nil => cases hroot
  | cons _ _ ihinside ihothers =>
    rcases List.mem_cons.mp hroot with heq | hmem
    · obtain ⟨rfl, rfl⟩ := Prod.mk.inj heq
      apply List.mem_append_left
      cases hleads with
      | here =>
        rw [List.append_nil]
        exact List.mem_cons_self
      | @down _ next _ first more hnext hmore =>
        rw [← List.append_assoc]
        exact List.mem_cons_of_mem _ (ihinside (List.mem_map.mpr ⟨(first, next), hnext, rfl⟩) hmore)
    · exact List.mem_append_right _ (ihothers hmem hleads)

/-- No place comes after a place further down, and none comes twice, if no root lies on the way to
another. -/
theorem forward (h : Preorder roots listing)
    (hroots : roots.Pairwise fun left right => Apart left.1 right.1) :
    listing.Pairwise fun first second => ¬ second.1 <+: first.1 := by
  induction h with
  | nil => exact .nil
  | @cons here top roots inside others hinside hothers ihinside ihothers =>
    obtain ⟨hhead, htail⟩ := List.pairwise_cons.mp hroots
    obtain ⟨heads, hforks⟩ := top.forks_branches
    have hdeeper : ∀ entry ∈ inside, ∃ more, more ≠ [] ∧ entry.1 = here ++ more := by
      intro entry hentry
      obtain ⟨_, root, rest, hroot, -, hplace⟩ := leads_of_mem hinside hentry
      obtain ⟨⟨way, next⟩, hnext, heq⟩ := List.mem_map.mp hroot
      obtain ⟨rfl, -⟩ := Prod.mk.inj heq
      exact ⟨way ++ rest, List.append_ne_nil_of_left_ne_nil (hforks.ne_nil hnext) rest,
        by rw [hplace, List.append_assoc]⟩
    have helsewhere : ∀ entry ∈ others, Apart here entry.1 := by
      intro entry hentry
      obtain ⟨way, root, rest, hroot, -, hplace⟩ := leads_of_mem hothers hentry
      rw [hplace]
      exact (hhead _ hroot).extend (List.prefix_refl here) (List.prefix_append way rest)
    rw [List.cons_append, List.pairwise_cons, List.pairwise_append]
    refine ⟨?_, ihinside ?_, ihothers htail, ?_⟩
    · intro entry hentry hprefix
      rcases List.mem_append.mp hentry with hmem | hmem
      · obtain ⟨more, hmore, heq⟩ := hdeeper entry hmem
        have hback : here ++ more <+: here ++ [] := by
          rw [List.append_nil, ← heq]
          exact hprefix
        exact hmore (List.prefix_nil.mp ((List.prefix_append_right_inj here).mp hback))
      · exact (helsewhere entry hmem).2 hprefix
    · exact List.pairwise_map.mpr (hforks.separate.imp fun hapart => hapart.append_left here)
    · intro left hleft right hright hprefix
      obtain ⟨more, -, heq⟩ := hdeeper left hleft
      refine ((helsewhere right hright).extend ?_ (List.prefix_refl _)).2 hprefix
      rw [heq]
      exact List.prefix_append here more

end Preorder

/-! The index of a document. -/

/-- An object with its pointer. -/
def addressed (entry : List String × Object) : String × Object :=
  (Reference.join "#" entry.1, entry.2)

/-- The index goes through the objects under the roots in preorder. -/
def Index.Follows (roots : List (List String × Object)) (index : Index) : Prop :=
  ∃ listing, Preorder roots listing ∧ index = listing.map addressed

namespace Index.Follows

variable {roots others : List (List String × Object)} {index index' : Index}
  {tokens : List String}

theorem nil : Follows [] [] := ⟨[], .nil, rfl⟩

theorem append (h : Follows roots index) (h' : Follows others index') :
    Follows (roots ++ others) (index ++ index') := by
  obtain ⟨listing, hlisting, rfl⟩ := h
  obtain ⟨listing', hlisting', rfl⟩ := h'
  exact ⟨listing ++ listing', hlisting.append hlisting', List.map_append.symm⟩

theorem single {o : Object} (h : Follows (downFrom tokens o.branches) index) :
    Follows [(tokens, o)] ((Reference.join "#" tokens, o) :: index) := by
  obtain ⟨listing, hlisting, rfl⟩ := h
  exact ⟨(tokens, o) :: listing, hlisting.single, rfl⟩

theorem flatMap {β : Type} {list : List β} {f : β → Index} {g : β → List (List String × Object)}
    (h : ∀ x ∈ list, Follows (g x) (f x)) : Follows (list.flatMap g) (list.flatMap f) := by
  induction list with
  | nil => exact nil
  | cons x rest ih =>
    exact (h x List.mem_cons_self).append (ih fun y hy => h y (List.mem_cons_of_mem x hy))

/-- A list of values is followed if each value is that is not null. -/
theorem present {α : Type} {wrap : α → Object} {f : String → Option α → Index}
    {list : List (List String × Option α)} (hnull : ∀ place, f place none = [])
    (h : ∀ way x, (way, some x) ∈ list →
      Follows [(tokens ++ way, wrap x)] (f (Reference.join "#" (tokens ++ way)) (some x))) :
    Follows (downFrom tokens (present wrap list))
      (list.flatMap fun (way, x) => f (Reference.join "#" (tokens ++ way)) x) := by
  rw [downFrom, ApiTypes.present, List.map_flatMap]
  apply flatMap
  rintro ⟨way, x⟩ hmem
  cases x with
  | none =>
    simp only [hnull]
    exact nil
  | some x => exact h way x hmem

theorem named {α : Type} {wrap : α → Object} {f : String → Option α → Index} {keyword : String}
    {m : Option (OrderedMap (Option α))} (hnull : ∀ place, f place none = [])
    (h : ∀ tokens x, Follows [(tokens, wrap x)] (f (Reference.join "#" tokens) (some x))) :
    Follows (downFrom tokens (ApiTypes.present wrap (named keyword m)))
      ((entriesOf m).flatMap fun (name, x) =>
        f (Reference.join "#" (tokens ++ [keyword, name])) x) := by
  have hpresent := @present tokens α wrap f (ApiTypes.named keyword m) hnull
    fun way x _ => h (tokens ++ way) x
  rwa [ApiTypes.named, List.flatMap_map] at hpresent

theorem optional {α : Type} {wrap : α → Object} {f : String → Option α → Index}
    {keyword : String} {x : Option α} (hnull : ∀ place, f place none = [])
    (h : ∀ tokens x, Follows [(tokens, wrap x)] (f (Reference.join "#" tokens) (some x))) :
    Follows (downFrom tokens (ApiTypes.present wrap [([keyword], x)]))
      (f (Reference.join "#" (tokens ++ [keyword])) x) := by
  have hpresent := @present tokens α wrap f [([keyword], x)] hnull
    fun way x _ => h (tokens ++ way) x
  rwa [List.flatMap_singleton] at hpresent

end Index.Follows

theorem downFrom_append (tokens : List String) (roots others : List (List String × Object)) :
    downFrom tokens (roots ++ others) = downFrom tokens roots ++ downFrom tokens others :=
  List.map_append

namespace Index

theorem follows_schema (tokens : List String) (s : Schema) :
    Follows [(tokens, .schema s)] (ofSchema? (Reference.join "#" tokens) (some s)) := by
  rw [ofSchema?, Option.elim_some, ofSchema_eq, List.map_cons, List.map_flatMap]
  apply Follows.single
  simp only [Reference.join_join]
  refine Follows.present (f := ofSchema?) (fun _ => rfl) fun way child hchild => ?_
  exact follows_schema (tokens ++ way) child
termination_by s
decreasing_by exact Schema.sizeOf_lt_of_mem_children hchild

/-- The index of a media type. -/
def ofMediaType (place : String) : Option MediaType → Index
  | none => []
  | some m => (place, .mediaType m) :: ofSchema? (Reference.join place ["schema"]) m.schema

theorem follows_mediaType (tokens : List String) (m : MediaType) :
    Follows [(tokens, .mediaType m)] (ofMediaType (Reference.join "#" tokens) (some m)) := by
  rw [ofMediaType, Reference.join_join]
  exact Follows.single (Follows.optional (fun _ => rfl) follows_schema)

theorem follows_content (tokens : List String) (content : Content) :
    Follows (downFrom tokens (present .mediaType (named "content" content)))
      (ofContent (Reference.join "#" (tokens ++ ["content"])) content) := by
  have hcontent : ofContent (Reference.join "#" (tokens ++ ["content"])) content =
      (entriesOf content).flatMap fun entry =>
        ofMediaType (Reference.join "#" (tokens ++ ["content", entry.1])) entry.2 := by
    refine congrArg (fun index => (entriesOf content).flatMap index) (funext fun entry => ?_)
    obtain ⟨name, m⟩ := entry
    cases m with
    | none => rfl
    | some m =>
      simp only [ofMediaType, Reference.join_join, List.append_assoc, List.singleton_append]
  rw [hcontent]
  exact Follows.named (fun _ => rfl) follows_mediaType

theorem follows_parameter (tokens : List String) (p : Parameter) :
    Follows [(tokens, .parameter p)] (ofParameter (Reference.join "#" tokens) (some p)) := by
  rw [ofParameter, List.cons_append, Reference.join_join, Reference.join_join]
  apply Follows.single
  rw [Object.branches, downFrom_append]
  exact (Follows.optional (fun _ => rfl) follows_schema).append (follows_content tokens p.content)

theorem follows_header (tokens : List String) (h : Header) :
    Follows [(tokens, .header h)] (ofHeader (Reference.join "#" tokens) (some h)) := by
  rw [ofHeader, List.cons_append, Reference.join_join, Reference.join_join]
  apply Follows.single
  rw [Object.branches, downFrom_append]
  exact (Follows.optional (fun _ => rfl) follows_schema).append (follows_content tokens h.content)

theorem follows_requestBody (tokens : List String) (b : RequestBody) :
    Follows [(tokens, .requestBody b)] (ofRequestBody (Reference.join "#" tokens) (some b)) := by
  rw [ofRequestBody, Reference.join_join]
  exact Follows.single (follows_content tokens b.content)

theorem follows_response (tokens : List String) (r : Response) :
    Follows [(tokens, .response r)] (ofResponse (Reference.join "#" tokens) (some r)) := by
  simp only [ofResponse, Reference.join_join, List.cons_append]
  apply Follows.single
  rw [Object.branches, downFrom_append]
  exact (Follows.named (fun _ => rfl) follows_header).append (follows_content tokens r.content)

theorem follows_parameters (tokens : List String)
    (parameters : Option (List (Option Parameter))) :
    Follows (downFrom tokens (present .parameter (positioned "parameters" parameters)))
      (ofParameters (Reference.join "#" tokens) parameters) := by
  have hpresent := @Follows.present tokens _ _ ofParameter (positioned "parameters" parameters)
    (fun _ => rfl) fun way p _ => follows_parameter (tokens ++ way) p
  simpa only [ofParameters, Reference.join_join, positioned, List.flatMap_map] using hpresent

theorem follows_operation (tokens : List String) (o : Operation) :
    Follows [(tokens, .operation o)] (ofOperation (Reference.join "#" tokens) o) := by
  simp only [ofOperation, Reference.join_join, List.cons_append]
  apply Follows.single
  rw [Object.branches, downFrom_append, downFrom_append]
  exact ((follows_parameters tokens o.parameters).append
    (Follows.optional (fun _ => rfl) follows_requestBody)).append
    (Follows.named (fun _ => rfl) follows_response)

theorem follows_pathItem (tokens : List String) (item : PathItem) :
    Follows [(tokens, .pathItem item)] (ofPathItem (Reference.join "#" tokens) (some item)) := by
  simp only [ofPathItem, Reference.join_join, List.cons_append]
  apply Follows.single
  rw [Object.branches, downFrom_append]
  refine (follows_parameters tokens item.parameters).append ?_
  rw [downFrom, List.map_map, ← List.flatMap_singleton' (List.map _ _), List.flatMap_map]
  exact Follows.flatMap fun entry _ => follows_operation (tokens ++ [entry.1.name]) entry.2

theorem follows_entries {α : Type} {wrap : α → Object} {f : String → Option α → Index}
    (place : List String) (keyword : String) (m : Option (OrderedMap (Option α)))
    (hnull : ∀ place, f place none = [])
    (h : ∀ tokens x, Follows [(tokens, wrap x)] (f (Reference.join "#" tokens) (some x))) :
    Follows (downFrom place (present wrap (named keyword m)))
      (ofEntries (place ++ [keyword]) f m) := by
  have hnamed := @Follows.named place α wrap f keyword m hnull h
  simpa only [ofEntries, List.append_assoc, List.singleton_append] using hnamed

theorem follows_components (c : Components) :
    Follows (downFrom ["components"] c.branches) (ofComponents c) := by
  simp only [Components.branches, downFrom_append]
  exact ((((((follows_entries ["components"] "schemas" c.schemas (fun _ => rfl)
      follows_schema).append
    (follows_entries ["components"] "responses" c.responses (fun _ => rfl)
      follows_response)).append
    (follows_entries ["components"] "parameters" c.parameters (fun _ => rfl)
      follows_parameter)).append
    (follows_entries ["components"] "requestBodies" c.requestBodies (fun _ => rfl)
      follows_requestBody)).append
    (follows_entries ["components"] "headers" c.headers (fun _ => rfl)
      follows_header)).append
    (follows_entries ["components"] "pathItems" c.pathItems (fun _ => rfl)
      follows_pathItem))

theorem follows_declared (doc : Document) :
    Follows (doc.components.elim [] fun c => downFrom ["components"] c.branches)
      (doc.components.elim [] ofComponents) := by
  cases doc.components with
  | none => exact Follows.nil
  | some c => exact follows_components c

theorem follows_top {α : Type} {wrap : α → Object} {f : String → Option α → Index}
    (keyword : String) (m : Option (OrderedMap (Option α))) (hnull : ∀ place, f place none = [])
    (h : ∀ tokens x, Follows [(tokens, wrap x)] (f (Reference.join "#" tokens) (some x))) :
    Follows (present wrap (named keyword m)) (ofEntries [keyword] f m) := by
  have hentries := follows_entries [] keyword m hnull h
  have hmap : downFrom [] (present wrap (named keyword m)) = present wrap (named keyword m) :=
    List.map_id _
  rwa [hmap] at hentries

/-- The index of a document goes through its objects in preorder. -/
theorem follows_document (doc : Document) : Follows doc.branches (ofDocument doc) :=
  (((follows_declared doc).append
    (follows_top "paths" doc.paths (fun _ => rfl) follows_pathItem)).append
    (follows_top "webhooks" doc.webhooks (fun _ => rfl) follows_pathItem)).append
    (follows_top "$defs" doc.defs (fun _ => rfl) follows_schema)

/-- The entries of an index are the objects under the roots, each with its pointer. -/
theorem Follows.mem_iff {roots : List (List String × Object)} {index : Index}
    (h : Follows roots index) {place : String} {o : Object} :
    (place, o) ∈ index ↔ ∃ way root rest, (way, root) ∈ roots ∧ root.Leads rest o ∧
      place = Reference.join "#" (way ++ rest) := by
  obtain ⟨listing, hlisting, rfl⟩ := h
  constructor
  · intro hmem
    obtain ⟨⟨tokens, _⟩, hentry, heq⟩ := List.mem_map.mp hmem
    obtain ⟨rfl, rfl⟩ := Prod.mk.inj heq
    obtain ⟨way, root, rest, hroot, hleads, rfl⟩ := hlisting.leads_of_mem hentry
    exact ⟨way, root, rest, hroot, hleads, rfl⟩
  · rintro ⟨way, root, rest, hroot, hleads, rfl⟩
    exact List.mem_map.mpr ⟨_, hlisting.mem_of_leads hroot hleads, rfl⟩

theorem mem_ofDocument {doc : Document} {place : String} {o : Object} :
    (place, o) ∈ ofDocument doc ↔
      ∃ tokens, doc.Has tokens o ∧ place = Reference.join "#" tokens := by
  rw [(follows_document doc).mem_iff]
  constructor
  · rintro ⟨way, root, rest, hroot, hleads, rfl⟩
    exact ⟨_, ⟨way, root, rest, hroot, hleads, rfl⟩, rfl⟩
  · rintro ⟨_, ⟨way, root, rest, hroot, hleads, rfl⟩, rfl⟩
    exact ⟨way, root, rest, hroot, hleads, rfl⟩

/-- The second entry stands neither at the place of the first nor above it. -/
def Downward {α : Type} (first second : String × α) : Prop :=
  ∃ left right, first.1 = Reference.join "#" left ∧ second.1 = Reference.join "#" right ∧
    ¬ right <+: left

theorem Downward.ne {α : Type} {first second : String × α} (h : Downward first second) :
    first.1 ≠ second.1 := by
  obtain ⟨left, right, hfirst, hsecond, hprefix⟩ := h
  intro heq
  rw [hfirst, hsecond] at heq
  rw [Reference.join_root_injective heq] at hprefix
  exact hprefix (List.prefix_refl right)

theorem downward_ofDocument (doc : Document) : (ofDocument doc).Pairwise Downward := by
  obtain ⟨heads, hforks⟩ := doc.forks_branches
  obtain ⟨listing, hlisting, heq⟩ := follows_document doc
  rw [heq]
  refine List.pairwise_map.mpr ((hlisting.forward hforks.separate).imp ?_)
  exact fun hforward => ⟨_, _, rfl, rfl, hforward⟩

theorem mem_schemas {index : Index} {place : String} {s : Schema} :
    (place, s) ∈ schemas index ↔ (place, .schema s) ∈ index := by
  constructor
  · intro h
    obtain ⟨⟨key, o⟩, hmem, heq⟩ := List.mem_filterMap.mp h
    cases o with
    | schema t =>
      obtain ⟨rfl, rfl⟩ := Prod.mk.inj (Option.some.inj heq)
      exact hmem
    | _ => cases heq
  · exact fun h => List.mem_filterMap.mpr ⟨(place, .schema s), h, rfl⟩

theorem downward_schemas {index : Index} (h : index.Pairwise Downward) :
    (schemas index).Pairwise Downward := by
  refine List.pairwise_filterMap.mpr (h.imp ?_)
  rintro ⟨place, o⟩ ⟨place', o'⟩ hplaces ⟨_, s⟩ hs ⟨_, t⟩ ht
  cases o with
  | schema s =>
    cases o' with
    | schema t =>
      obtain ⟨rfl, rfl⟩ := Prod.mk.inj (Option.some.inj hs)
      obtain ⟨rfl, rfl⟩ := Prod.mk.inj (Option.some.inj ht)
      exact hplaces
    | _ => cases ht
  | _ => cases hs

theorem schemas_append (index index' : Index) :
    schemas (index ++ index') = schemas index ++ schemas index' := List.filterMap_append

/-- The schemas under roots that all start with a keyword have pointers that do. -/
theorem Follows.starts {roots : List (List String × Object)} {index : Index} {keyword : String}
    (h : Follows roots index) (hforks : Forks [keyword] roots) :
    ∀ entry ∈ schemas index, ∃ rest, entry.1 = Reference.join "#" (keyword :: rest) := by
  rintro ⟨place, s⟩ hmem
  obtain ⟨way, root, rest, hroot, -, rfl⟩ := h.mem_iff.mp (mem_schemas.mp hmem)
  obtain ⟨head, hhead, tail, hway⟩ := hforks.headed _ hroot
  obtain rfl := List.mem_singleton.mp hhead
  exact ⟨tail ++ rest, by rw [show way = head :: tail from hway, List.cons_append]⟩

end Index

/-- The pointers of a document name its objects one to one, and its schemas are listed from the top
down. -/
structure Resolver.Addresses (r : Resolver) (doc : Document) : Prop where
  /-- No pointer is given twice. -/
  distinct : (r.index.map (·.1)).Nodup
  /-- What is indexed are the objects of the document, each at its place. -/
  indexed : ∀ place o, (place, o) ∈ r.index ↔
    ∃ tokens, doc.Has tokens o ∧ place = Reference.join "#" tokens
  /-- A pointer in the list of schemas leads to the schema beside it. -/
  held : ∀ place s, (place, s) ∈ r.schemas → r.at? place = some (.schema s)
  /-- Every schema of the document is listed, and no place is listed twice. -/
  listed : ∀ place s, (place, s) ∈ r.schemas ↔
    ∃ tokens, doc.Has tokens (.schema s) ∧ place = Reference.join "#" tokens
  once : (r.schemas.map (·.1)).Nodup
  /-- Schemas of the components come first, then those of paths, webhooks and definitions. -/
  sections : ∃ components paths webhooks defs : List (String × Schema),
    r.schemas = components ++ paths ++ webhooks ++ defs ∧
      (∀ entry ∈ components, ∃ rest, entry.1 = Reference.join "#" ("components" :: rest)) ∧
      (∀ entry ∈ paths, ∃ rest, entry.1 = Reference.join "#" ("paths" :: rest)) ∧
      (∀ entry ∈ webhooks, ∃ rest, entry.1 = Reference.join "#" ("webhooks" :: rest)) ∧
      ∀ entry ∈ defs, ∃ rest, entry.1 = Reference.join "#" ("$defs" :: rest)
  /-- A schema comes before the schemas nested inside it. -/
  outermostFirst : ∀ tokens way s t, doc.Has tokens (.schema s) →
    (Object.schema s).Leads way (.schema t) → way ≠ [] → ∃ i j : Nat, i < j ∧
      r.schemas[i]? = some (Reference.join "#" tokens, s) ∧
      r.schemas[j]? = some (Reference.join "#" (tokens ++ way), t)

theorem Object.Leads.trans {first second third : Object} {way more : List String}
    (h : first.Leads way second) (h' : second.Leads more third) :
    first.Leads (way ++ more) third := by
  induction h with
  | here => exact h'
  | down hnext _ ih =>
    rw [List.append_assoc]
    exact .down hnext (ih h')

theorem Document.Has.trans {doc : Document} {tokens way : List String} {o o' : Object}
    (h : doc.Has tokens o) (hway : o.Leads way o') : doc.Has (tokens ++ way) o' := by
  obtain ⟨first, root, rest, hroot, hleads, rfl⟩ := h
  exact ⟨first, root, rest ++ way, hroot, hleads.trans hway, List.append_assoc _ _ _⟩

/-- Of two entries whose places lie below one another the upper one comes first. -/
theorem Index.lt_of_downward {α : Type} {list : List (String × α)} (h : list.Pairwise Downward)
    {i j : Nat} {tokens way : List String} {x y : α}
    (hi : list[i]? = some (Reference.join "#" tokens, x))
    (hj : list[j]? = some (Reference.join "#" (tokens ++ way), y)) (hway : way ≠ []) : i < j := by
  obtain ⟨hilength, hi⟩ := List.getElem?_eq_some_iff.mp hi
  obtain ⟨hjlength, hj⟩ := List.getElem?_eq_some_iff.mp hj
  rcases Nat.lt_trichotomy i j with hlt | rfl | hgt
  · exact hlt
  · have hplaces := Reference.join_root_injective (congrArg Prod.fst (hi.symm.trans hj))
    exact absurd (List.self_eq_append_right.mp hplaces) hway
  · obtain ⟨left, right, hleft, hright, hprefix⟩ :=
      List.pairwise_iff_getElem.mp h j i hjlength hilength hgt
    rw [hj] at hleft
    rw [hi] at hright
    rw [← Reference.join_root_injective hleft, ← Reference.join_root_injective hright] at hprefix
    exact absurd (List.prefix_append tokens way) hprefix

/-- The schemas of a document, one section of the document after the other. -/
theorem Index.sections_ofDocument (doc : Document) :
    ∃ components paths webhooks defs : List (String × Schema),
      schemas (ofDocument doc) = components ++ paths ++ webhooks ++ defs ∧
        (∀ entry ∈ components, ∃ rest, entry.1 = Reference.join "#" ("components" :: rest)) ∧
        (∀ entry ∈ paths, ∃ rest, entry.1 = Reference.join "#" ("paths" :: rest)) ∧
        (∀ entry ∈ webhooks, ∃ rest, entry.1 = Reference.join "#" ("webhooks" :: rest)) ∧
        ∀ entry ∈ defs, ∃ rest, entry.1 = Reference.join "#" ("$defs" :: rest) := by
  refine ⟨schemas (doc.components.elim [] ofComponents),
    schemas (ofEntries ["paths"] ofPathItem doc.paths),
    schemas (ofEntries ["webhooks"] ofPathItem doc.webhooks),
    schemas (ofEntries ["$defs"] ofSchema? doc.defs),
    by simp only [ofDocument, schemas_append], ?_, ?_, ?_, ?_⟩
  · refine (follows_declared doc).starts ?_
    cases doc.components with
    | none => exact .nil
    | some c =>
      obtain ⟨heads, hforks⟩ := c.forks_branches
      exact hforks.downFrom "components"
  · exact (follows_top "paths" doc.paths (fun _ => rfl) follows_pathItem).starts
      ((Forks.named "paths" doc.paths).present _)
  · exact (follows_top "webhooks" doc.webhooks (fun _ => rfl) follows_pathItem).starts
      ((Forks.named "webhooks" doc.webhooks).present _)
  · exact (follows_top "$defs" doc.defs (fun _ => rfl) follows_schema).starts
      ((Forks.named "$defs" doc.defs).present _)

/-- Each object of a document has a pointer of its own, whatever the names in the document are. -/
theorem addresses_ofDocument (doc : Document) (external : Option ExternalResolver) :
    (Resolver.ofDocument doc external).Addresses doc := by
  have hdownward := Index.downward_ofDocument doc
  have hdistinct : ((Index.ofDocument doc).map (·.1)).Nodup :=
    List.pairwise_map.mpr (hdownward.imp Index.Downward.ne)
  have hschemas := Index.downward_schemas hdownward
  have hlisted (place : String) (s : Schema) : (place, s) ∈ Index.schemas (Index.ofDocument doc) ↔
      ∃ tokens, doc.Has tokens (.schema s) ∧ place = Reference.join "#" tokens :=
    Index.mem_schemas.trans Index.mem_ofDocument
  refine
    { distinct := hdistinct
      indexed := fun _ _ => Index.mem_ofDocument
      held := fun place s hmem => ?_
      listed := hlisted
      once := List.pairwise_map.mpr (hschemas.imp Index.Downward.ne)
      sections := Index.sections_ofDocument doc
      outermostFirst := fun tokens way s t hs hway hne => ?_ }
  · refine lookup_of_mem ?_ (List.mem_reverse.mpr (Index.mem_schemas.mp hmem))
    rw [List.map_reverse]
    exact List.pairwise_reverse.mpr (hdistinct.imp Ne.symm)
  · obtain ⟨i, hi⟩ := List.mem_iff_getElem?.mp ((hlisted _ s).mpr ⟨tokens, hs, rfl⟩)
    obtain ⟨j, hj⟩ := List.mem_iff_getElem?.mp
      ((hlisted _ t).mpr ⟨tokens ++ way, hs.trans hway, rfl⟩)
    exact ⟨i, j, Index.lt_of_downward hschemas hi hj hne, hi, hj⟩

end ApiTypes
