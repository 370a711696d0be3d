import ApiTypes.Proofs.Reach

/-!
The places of the objects in a document. An object stands at the tokens on the way down to it, and
the index of a document goes through the objects in preorder: each object comes right before those
inside it.

No two ways out of an object start the same: neither is a prefix of the other. So no two objects
stand at the same tokens, and no pointer is given twice.
-/

namespace ApiTypes

section Ways

variable {α : Type}

/-- The values of a map, each with the way to it. -/
def named (keyword : String) (m : Option (OrderedMap (Option α))) :
    List (List String × Option α) :=
  (entriesOf m).map fun (name, x) => ([keyword, name], x)

/-- The members of a list, each with its keyword and position. -/
def positioned (keyword : String) (list : Option (List (Option α))) :
    List (List String × Option α) :=
  (list.getD []).zipIdx.map fun (x, i) => ([keyword, toString i], x)

/-- What is not null, as objects. -/
def present (wrap : α → Object) (list : List (List String × Option α)) :
    List (List String × Object) :=
  list.flatMap fun (way, x) => x.toList.map fun x => (way, wrap x)

/-- The same objects, seen from further up. -/
def downFrom (tokens : List String) (roots : List (List String × Object)) :
    List (List String × Object) :=
  roots.map fun (way, o) => (tokens ++ way, o)

end Ways

namespace Object

/-- The objects directly inside an object, each with the way to it. -/
def branches : Object → List (List String × Object)
  | .schema s => present .schema s.children
  | .parameter p =>
    present .schema [(["schema"], p.schema)] ++ present .mediaType (named "content" p.content)
  | .header h =>
    present .schema [(["schema"], h.schema)] ++ present .mediaType (named "content" h.content)
  | .requestBody b => present .mediaType (named "content" b.content)
  | .response r =>
    present .header (named "headers" r.headers) ++ present .mediaType (named "content" r.content)
  | .mediaType m => present .schema [(["schema"], m.schema)]
  | .pathItem item =>
    present .parameter (positioned "parameters" item.parameters) ++
      item.inOrder.map fun (method, o) => ([method.name], .operation o)
  | .operation o =>
    present .parameter (positioned "parameters" o.parameters) ++
      present .requestBody [(["requestBody"], o.requestBody)] ++
      present .response (named "responses" o.responses)

/-- The object that stands at the end of a way down from an object. -/
inductive Leads : Object → List String → Object → Prop where
  | here (o : Object) : Leads o [] o
  | down {o next last : Object} {way rest : List String} :
    (way, next) ∈ o.branches → Leads next rest last → Leads o (way ++ rest) last

end Object

/-- The objects that are declared for use elsewhere, each with the way to it. -/
def Components.branches (c : Components) : List (List String × Object) :=
  present .schema (named "schemas" c.schemas) ++
    present .response (named "responses" c.responses) ++
    present .parameter (named "parameters" c.parameters) ++
    present .requestBody (named "requestBodies" c.requestBodies) ++
    present .header (named "headers" c.headers) ++ present .pathItem (named "pathItems" c.pathItems)

/-- The objects that a document declares under a name or a path, each with the way to it. -/
def Document.branches (doc : Document) : List (List String × Object) :=
  doc.components.elim [] (fun c => downFrom ["components"] c.branches) ++
    present .pathItem (named "paths" doc.paths) ++
    present .pathItem (named "webhooks" doc.webhooks) ++ present .schema (named "$defs" doc.defs)

/-- The object stands at the given tokens of the document. -/
def Document.Has (doc : Document) (tokens : List String) (o : Object) : Prop :=
  ∃ way root rest, (way, root) ∈ doc.branches ∧ root.Leads rest o ∧ tokens = way ++ rest

/-! Ways that do not start the same. -/

/-- Neither list is a prefix of the other. -/
def Apart (left right : List String) : Prop := ¬ left <+: right ∧ ¬ right <+: left

theorem Apart.append_left {left right : List String} (h : Apart left right)
    (tokens : List String) : Apart (tokens ++ left) (tokens ++ right) :=
  ⟨fun hprefix => h.1 ((List.prefix_append_right_inj tokens).mp hprefix),
    fun hprefix => h.2 ((List.prefix_append_right_inj tokens).mp hprefix)⟩

/-- What lies further down stays apart. -/
theorem Apart.extend {left right more more' : List String} (h : Apart left right)
    (hleft : left <+: more) (hright : right <+: more') : Apart more more' := by
  constructor
  · intro hprefix
    rcases List.prefix_or_prefix_of_prefix (hleft.trans hprefix) hright with hlr | hrl
    · exact h.1 hlr
    · exact h.2 hrl
  · intro hprefix
    rcases List.prefix_or_prefix_of_prefix hleft (hright.trans hprefix) with hlr | hrl
    · exact h.1 hlr
    · exact h.2 hrl

theorem apart_of_head {a b : String} (h : a ≠ b) (left right : List String) :
    Apart (a :: left) (b :: right) :=
  ⟨fun hprefix => h (List.cons_prefix_cons.mp hprefix).1,
    fun hprefix => h (List.cons_prefix_cons.mp hprefix).1.symm⟩

/-- The ways start with some of the given tokens, and none lies on another. -/
structure Forks {α : Type} (heads : List String) (roots : List (List String × α)) : Prop where
  headed : ∀ entry ∈ roots, ∃ head ∈ heads, ∃ rest, entry.1 = head :: rest
  separate : roots.Pairwise fun left right => Apart left.1 right.1

theorem toString_injective {m n : Nat} (h : toString m = toString n) : m = n := by
  have hdigits := congrArg (fun text => Nat.ofDigitChars 10 text.toList 0) h
  simpa [Nat.toString_eq_repr, Nat.repr] using hdigits

theorem isDigit_of_mem_toString {n : Nat} {c : Char} (h : c ∈ (toString n).toList) : c.isDigit := by
  rw [Nat.toString_eq_repr, Nat.toList_repr] at h
  exact Nat.isDigit_of_mem_toDigits (by decide) (by decide) h

namespace Forks

variable {α : Type} {heads heads' : List String}

theorem ne_nil {roots : List (List String × α)} (h : Forks heads roots)
    {entry : List String × α} (hentry : entry ∈ roots) : entry.1 ≠ [] := by
  obtain ⟨head, -, rest, heq⟩ := h.headed entry hentry
  rw [heq]
  exact List.cons_ne_nil head rest

theorem nil : Forks heads ([] : List (List String × α)) := ⟨fun _ h => (nomatch h), .nil⟩

theorem single (keyword : String) (x : α) : Forks [keyword] [([keyword], x)] where
  headed := by
    intro entry hentry
    obtain rfl := List.mem_singleton.mp hentry
    exact ⟨keyword, List.mem_singleton_self keyword, [], rfl⟩
  separate := List.pairwise_singleton _ _

theorem append {roots others : List (List String × α)} (h : Forks heads roots)
    (h' : Forks heads' others) (hdisjoint : ∀ head ∈ heads, head ∉ heads') :
    Forks (heads ++ heads') (roots ++ others) where
  headed := by
    intro entry hentry
    rcases List.mem_append.mp hentry with hmem | hmem
    · obtain ⟨head, hhead, hrest⟩ := h.headed entry hmem
      exact ⟨head, List.mem_append_left heads' hhead, hrest⟩
    · obtain ⟨head, hhead, hrest⟩ := h'.headed entry hmem
      exact ⟨head, List.mem_append_right heads hhead, hrest⟩
  separate := by
    refine List.pairwise_append.mpr ⟨h.separate, h'.separate, ?_⟩
    intro left hleft right hright
    obtain ⟨a, ha, rest, heq⟩ := h.headed left hleft
    obtain ⟨b, hb, rest', heq'⟩ := h'.headed right hright
    rw [heq, heq']
    refine apart_of_head ?_ rest rest'
    rintro rfl
    exact hdisjoint a ha hb

theorem present {list : List (List String × Option α)} (h : Forks heads list)
    (wrap : α → Object) : Forks heads (present wrap list) where
  headed := by
    intro entry hentry
    obtain ⟨source, hsource, hmem⟩ := List.mem_flatMap.mp hentry
    obtain ⟨x, -, rfl⟩ := List.mem_map.mp hmem
    exact h.headed source hsource
  separate := by
    refine List.pairwise_flatMap.mpr ⟨?_, h.separate.imp ?_⟩
    · rintro ⟨way, x⟩ -
      cases x with
      | none => exact .nil
      | some x => exact List.pairwise_singleton _ _
    · rintro ⟨way, x⟩ ⟨way', x'⟩ hapart left hleft right hright
      obtain ⟨_, -, rfl⟩ := List.mem_map.mp hleft
      obtain ⟨_, -, rfl⟩ := List.mem_map.mp hright
      exact hapart

/-- Different names are different ways, whatever the names are. -/
theorem named (keyword : String) (m : Option (OrderedMap (Option α))) :
    Forks [keyword] (named keyword m) where
  headed := by
    intro entry hentry
    obtain ⟨⟨name, x⟩, -, rfl⟩ := List.mem_map.mp hentry
    exact ⟨keyword, List.mem_singleton_self keyword, [name], rfl⟩
  separate := by
    refine List.pairwise_map.mpr ((List.pairwise_map.mp (nodup_entriesOf m)).imp ?_)
    intro left right hne
    exact (apart_of_head hne [] []).append_left [keyword]

theorem positioned (keyword : String) (list : Option (List (Option α))) :
    Forks [keyword] (positioned keyword list) where
  headed := by
    intro entry hentry
    obtain ⟨⟨x, i⟩, -, rfl⟩ := List.mem_map.mp hentry
    exact ⟨keyword, List.mem_singleton_self keyword, [toString i], rfl⟩
  separate := by
    have hpositions : ((list.getD []).zipIdx.map (·.2)).Nodup := by
      rw [List.zipIdx_map_snd]
      exact List.nodup_range'
    refine List.pairwise_map.mpr ((List.pairwise_map.mp hpositions).imp ?_)
    intro left right hne
    exact (apart_of_head (fun heq => hne (toString_injective heq)) [] []).append_left [keyword]

theorem downFrom {roots : List (List String × Object)} (h : Forks heads roots)
    (keyword : String) : Forks [keyword] (downFrom [keyword] roots) where
  headed := by
    intro entry hentry
    obtain ⟨source, -, rfl⟩ := List.mem_map.mp hentry
    exact ⟨keyword, List.mem_singleton_self keyword, source.1, rfl⟩
  separate :=
    List.pairwise_map.mpr (h.separate.imp fun hapart => hapart.append_left [keyword])

end Forks

/-! The ways out of an object. -/

theorem Schema.forks_itemChildren (items : Option (Items Schema)) :
    Forks ["items"] (itemChildren items) := by
  match items with
  | none => exact .nil
  | some (.single s) => exact .single "items" (some s)
  | some (.tuple list) => exact .positioned "items" (some list)

theorem Schema.forks_children (s : Schema) :
    Forks (["properties"] ++ ["additionalProperties"] ++ ["$defs"] ++ ["items"] ++
      ["prefixItems"] ++ ["allOf"] ++ ["oneOf"] ++ ["anyOf"]) s.children := by
  unfold children
  split
  · exact .nil
  · have hfurther : Forks ["additionalProperties"] (s.additionalProperties.toList.map
        fun t => (["additionalProperties"], some t)) := by
      cases s.additionalProperties with
      | none => exact .nil
      | some t => exact .single "additionalProperties" (some t)
    exact (((((((Forks.named "properties" s.properties).append hfurther (by decide)).append
      (.named "$defs" s.defs) (by decide)).append (forks_itemChildren s.items) (by decide)).append
      (.positioned "prefixItems" s.prefixItems) (by decide)).append
      (.positioned "allOf" s.allOf) (by decide)).append
      (.positioned "oneOf" s.oneOf) (by decide)).append (.positioned "anyOf" s.anyOf) (by decide)

theorem PathItem.forks_inOrder (item : PathItem) :
    Forks (Method.all.map Method.name)
      (item.inOrder.map fun (method, o) => ([method.name], Object.operation o)) where
  headed := by
    intro entry hentry
    obtain ⟨⟨method, o⟩, -, rfl⟩ := List.mem_map.mp hentry
    refine ⟨method.name, List.mem_map.mpr ⟨method, ?_, rfl⟩, [], rfl⟩
    cases method <;> decide
  separate := by
    have hnames : Method.all.Pairwise fun left right => left.name ≠ right.name := by decide
    refine List.pairwise_map.mpr (List.pairwise_filterMap.mpr (hnames.imp ?_))
    intro left right hne x hx y hy
    obtain ⟨_, -, rfl⟩ := Option.map_eq_some_iff.mp hx
    obtain ⟨_, -, rfl⟩ := Option.map_eq_some_iff.mp hy
    exact apart_of_head hne [] []

/-- No two ways out of an object start the same. -/
theorem Object.forks_branches (o : Object) : ∃ heads, Forks heads o.branches := by
  cases o with
  | schema s => exact ⟨_, s.forks_children.present _⟩
  | parameter p =>
    exact ⟨_, ((Forks.single "schema" p.schema).present _).append
      ((Forks.named "content" p.content).present _) (by decide)⟩
  | header r =>
    exact ⟨_, ((Forks.single "schema" r.schema).present _).append
      ((Forks.named "content" r.content).present _) (by decide)⟩
  | requestBody b => exact ⟨_, (Forks.named "content" b.content).present _⟩
  | response r =>
    exact ⟨_, ((Forks.named "headers" r.headers).present _).append
      ((Forks.named "content" r.content).present _) (by decide)⟩
  | mediaType m => exact ⟨_, (Forks.single "schema" m.schema).present _⟩
  | pathItem item =>
    exact ⟨_, ((Forks.positioned "parameters" item.parameters).present _).append
      item.forks_inOrder (by decide)⟩
  | operation o =>
    exact ⟨_, (((Forks.positioned "parameters" o.parameters).present _).append
      ((Forks.single "requestBody" o.requestBody).present _) (by decide)).append
      ((Forks.named "responses" o.responses).present _) (by decide)⟩

theorem Components.forks_branches (c : Components) : ∃ heads, Forks heads c.branches :=
  ⟨_, ((((((Forks.named "schemas" c.schemas).present _).append
    ((Forks.named "responses" c.responses).present _) (by decide)).append
    ((Forks.named "parameters" c.parameters).present _) (by decide)).append
    ((Forks.named "requestBodies" c.requestBodies).present _) (by decide)).append
    ((Forks.named "headers" c.headers).present _) (by decide)).append
    ((Forks.named "pathItems" c.pathItems).present _) (by decide)⟩

theorem Document.forks_branches (doc : Document) : ∃ heads, Forks heads doc.branches := by
  have hcomponents : Forks ["components"]
      (doc.components.elim [] fun c => downFrom ["components"] c.branches) := by
    cases doc.components with
    | none => exact .nil
    | some c =>
      obtain ⟨heads, hforks⟩ := c.forks_branches
      exact hforks.downFrom "components"
  exact ⟨_, ((hcomponents.append ((Forks.named "paths" doc.paths).present _) (by decide)).append
    ((Forks.named "webhooks" doc.webhooks).present _) (by decide)).append
    ((Forks.named "$defs" doc.defs).present _) (by decide)⟩

end ApiTypes
