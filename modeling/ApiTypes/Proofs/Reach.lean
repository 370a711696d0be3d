import ApiTypes.Discriminators
import ApiTypes.Proofs.Pointer

/-!
What can be met while a document is worked on: the objects in it, the objects that its references
lead to in other documents, and the objects inside those. The index of a document holds nothing
else. A resolver is bounded if what it promises holds for everything that can be met.
-/

namespace ApiTypes

/-- The objects of a map that are not null. -/
def objectsOf {α : Type} (wrap : α → Object) (m : Option (OrderedMap (Option α))) : List Object :=
  (entriesOf m).filterMap fun (_, x) => x.map wrap

def parameterObjects (parameters : Option (List (Option Parameter))) : List Object :=
  (parameters.getD []).filterMap fun p => p.map .parameter

/-- The schemas that a schema would hold if it were no boolean one. -/
def Schema.inner (s : Schema) : List (List String × Option Schema) :=
  { s with bool := none : Schema }.children

namespace Object

/-- The objects directly inside an object. -/
def parts : Object → List Object
  | .schema s => s.inner.filterMap fun (_, child) => child.map .schema
  | .parameter p => p.schema.toList.map .schema ++ objectsOf .mediaType p.content
  | .header h => h.schema.toList.map .schema ++ objectsOf .mediaType h.content
  | .requestBody b => objectsOf .mediaType b.content
  | .response r => objectsOf .header r.headers ++ objectsOf .mediaType r.content
  | .mediaType m => m.schema.toList.map .schema
  | .pathItem item =>
    parameterObjects item.parameters ++ item.inOrder.map fun (_, o) => .operation o
  | .operation o =>
    parameterObjects o.parameters ++ o.requestBody.toList.map .requestBody ++
      objectsOf .response o.responses

/-- The reference that an object holds, or the empty text. -/
def ref : Object → String
  | .schema s => s.ref
  | .parameter p => p.ref
  | .header h => h.ref
  | .requestBody b => b.ref
  | .response r => r.ref
  | .mediaType m => m.ref
  | .pathItem item => item.ref
  | .operation _ => ""

end Object

namespace Schema

/-- The schema `child` stands directly below a keyword of `s`. -/
def Holds (s child : Schema) : Prop := ∃ path, (path, some child) ∈ s.inner

theorem mem_inner (s : Schema) (entry : List String × Option Schema) :
    entry ∈ s.inner ↔
      entry ∈ keyed "properties" s.properties ∨
      (∃ t, s.additionalProperties = some t ∧ entry = (["additionalProperties"], some t)) ∨
      entry ∈ keyed "$defs" s.defs ∨ entry ∈ itemChildren s.items ∨
      entry ∈ numbered "prefixItems" s.prefixItems ∨ entry ∈ numbered "allOf" s.allOf ∨
      entry ∈ numbered "oneOf" s.oneOf ∨ entry ∈ numbered "anyOf" s.anyOf := by
  simp only [inner, children, isBool, Option.isSome_none, Bool.false_eq_true, if_false,
    List.mem_append, List.mem_map, Option.mem_toList, or_assoc, eq_comm]

theorem mem_numbered (keyword : String) {schemas : Option (List (Option Schema))}
    {child : Schema} (h : some child ∈ schemas.getD []) :
    ∃ path, (path, some child) ∈ numbered keyword schemas := by
  obtain ⟨i, hi⟩ := List.mem_iff_getElem?.mp h
  exact ⟨[keyword, toString i],
    List.mem_map.mpr ⟨(some child, i), List.mk_mem_zipIdx_iff_getElem?.mpr hi, rfl⟩⟩

theorem mem_keyed (keyword : String) {name : String}
    {schemas : Option (OrderedMap (Option Schema))} {child : Schema}
    (h : (name, some child) ∈ entriesOf schemas) :
    ∃ path, (path, some child) ∈ keyed keyword schemas :=
  ⟨[keyword, name], List.mem_map.mpr ⟨(name, some child), h, rfl⟩⟩

variable {s child : Schema}

theorem Holds.property {name : String} (h : (name, some child) ∈ entriesOf s.properties) :
    s.Holds child := by
  obtain ⟨path, hpath⟩ := mem_keyed "properties" h
  exact ⟨path, (mem_inner s _).mpr (by simp [hpath])⟩

theorem Holds.definition {name : String} (h : (name, some child) ∈ entriesOf s.defs) :
    s.Holds child := by
  obtain ⟨path, hpath⟩ := mem_keyed "$defs" h
  exact ⟨path, (mem_inner s _).mpr (by simp [hpath])⟩

theorem Holds.further (h : s.additionalProperties = some child) : s.Holds child :=
  ⟨_, (mem_inner s _).mpr (.inr (.inl ⟨child, h, rfl⟩))⟩

theorem Holds.item (h : s.items = some (.single child)) : s.Holds child :=
  ⟨["items"], (mem_inner s _).mpr (by simp [h, itemChildren])⟩

theorem Holds.tupleItem {schemas : List (Option Schema)} (hitems : s.items = some (.tuple schemas))
    (h : some child ∈ schemas) : s.Holds child := by
  obtain ⟨path, hpath⟩ := @mem_numbered "items" (some schemas) child h
  exact ⟨path, (mem_inner s _).mpr (by simp [hitems, itemChildren, hpath])⟩

theorem Holds.prefixItem (h : some child ∈ s.prefixItems.getD []) : s.Holds child := by
  obtain ⟨path, hpath⟩ := mem_numbered "prefixItems" h
  exact ⟨path, (mem_inner s _).mpr (by simp [hpath])⟩

theorem Holds.allOf (h : some child ∈ s.allOf.getD []) : s.Holds child := by
  obtain ⟨path, hpath⟩ := mem_numbered "allOf" h
  exact ⟨path, (mem_inner s _).mpr (by simp [hpath])⟩

theorem Holds.oneOf (h : some child ∈ s.oneOf.getD []) : s.Holds child := by
  obtain ⟨path, hpath⟩ := mem_numbered "oneOf" h
  exact ⟨path, (mem_inner s _).mpr (by simp [hpath])⟩

theorem Holds.anyOf (h : some child ∈ s.anyOf.getD []) : s.Holds child := by
  obtain ⟨path, hpath⟩ := mem_numbered "anyOf" h
  exact ⟨path, (mem_inner s _).mpr (by simp [hpath])⟩

end Schema

def Components.objects (c : Components) : List Object :=
  objectsOf .schema c.schemas ++ objectsOf .response c.responses ++
    objectsOf .parameter c.parameters ++ objectsOf .requestBody c.requestBodies ++
    objectsOf .header c.headers ++ objectsOf .pathItem c.pathItems

/-- The objects that a document declares under a name or a path. -/
def Document.objects (doc : Document) : List Object :=
  doc.components.elim [] Components.objects ++ objectsOf .pathItem doc.paths ++
    objectsOf .pathItem doc.webhooks ++ objectsOf .schema doc.defs

/-- A document and the way to other documents. -/
structure Source where
  doc : Document
  external : Option ExternalResolver := none

namespace Source

mutual

/-- The objects that can be met. -/
inductive Reaches (w : Source) : Object → Prop where
  | root {o : Object} : o ∈ w.doc.objects → w.Reaches o
  | part {o inner : Object} : w.Reaches o → inner ∈ o.parts → w.Reaches inner
  | fetched {e : ExternalResolver} {ref : String} {kind : Kind} {o : Object} :
    w.external = some e → w.Asks ref → Reference.isExternal ref = true →
      e.fetch ref kind = some o → w.Reaches o

/-- The references that can be asked for: those held by objects, those in the mappings of
discriminators, and their uniform spellings. -/
inductive Asks (w : Source) : String → Prop where
  | held {o : Object} : w.Reaches o → w.Asks o.ref
  | mapped {s : Schema} {d : Discriminator} {name ref : String} :
    w.Reaches (.schema s) → s.discriminator = some d → (name, ref) ∈ entriesOf d.mapping →
      w.Asks (Discriminators.mappingRef ref)
  | canonical {ref : String} : w.Asks ref → w.Asks (Reference.canonical ref)

end

/-- The object is one that the resolver gives for a reference spelled `key` in the uniform way. -/
def Serves (w : Source) (key : String) (o : Object) : Prop :=
  ∃ e ref kind, w.external = some e ∧ w.Asks ref ∧ Reference.isExternal ref = true ∧
    Reference.canonical ref = key ∧ e.fetch ref kind = some o

/-- How many places in other documents the resolver allows. -/
def reach (w : Source) : Nat := w.external.elim 0 (·.reach)

/-- All places in other documents are among the given ones, no more than allowed, and the schemas
found there are no larger than that. -/
def Covers (w : Source) (places : List String) : Prop :=
  places.length ≤ w.reach ∧
    ∀ key o, w.Serves key o → key ∈ places ∧ ∀ s, o = .schema s → s.walk.length ≤ w.reach

/-- What the resolver promises holds for everything that can be met. -/
def Bounded (w : Source) : Prop := ∃ places, w.Covers places

/-- Without a way to other documents there is nothing to promise. -/
theorem bounded_of_local (doc : Document) : Bounded ⟨doc, none⟩ := by
  refine ⟨[], Nat.le_refl _, ?_⟩
  rintro key o ⟨e, ref, kind, he, -⟩
  cases he

/-- In a document alone, what holds of its objects and goes over to their parts holds of everything
that can be met. -/
theorem reaches_of_local {doc : Document} {P : Object → Prop} (hroot : ∀ o ∈ doc.objects, P o)
    (hpart : ∀ o, P o → ∀ inner ∈ o.parts, P inner) {o : Object}
    (h : Reaches ⟨doc, none⟩ o) : P o := by
  refine @Reaches.rec ⟨doc, none⟩ (fun o _ => P o) (fun _ _ => True) ?_ ?_ ?_ ?_ ?_ ?_ o h
  · exact fun hmem => hroot _ hmem
  · exact fun _ hinner ho => hpart _ ho _ hinner
  · exact fun hexternal => nomatch hexternal
  · exact fun _ _ => trivial
  · exact fun _ _ _ _ => trivial
  · exact fun _ _ => trivial

/-- What holds of the references in everything that can be met, and of their uniform spellings,
holds of everything that can be asked for. -/
theorem asks_of_reaches {w : Source} {Q : String → Prop} (hheld : ∀ o, w.Reaches o → Q o.ref)
    (hmapped : ∀ s d name ref, w.Reaches (.schema s) → s.discriminator = some d →
      (name, ref) ∈ entriesOf d.mapping → Q (Discriminators.mappingRef ref))
    (hcanonical : ∀ ref, Q ref → Q (Reference.canonical ref)) {ref : String}
    (h : w.Asks ref) : Q ref := by
  refine @Asks.rec w (fun _ _ => True) (fun ref _ => Q ref) ?_ ?_ ?_ ?_ ?_ ?_ ref h
  · exact fun _ => trivial
  · exact fun _ _ _ => trivial
  · exact fun _ _ _ _ _ => trivial
  · exact fun ho _ => hheld _ ho
  · exact fun hs hd hmem _ => hmapped _ _ _ _ hs hd hmem
  · exact fun _ hQ => hcanonical _ hQ

theorem Reaches.held {w : Source} {s child : Schema} (hs : w.Reaches (.schema s))
    (h : s.Holds child) : w.Reaches (.schema child) := by
  obtain ⟨path, hpath⟩ := h
  exact .part hs (List.mem_filterMap.mpr ⟨(path, some child), hpath, rfl⟩)

theorem Serves.reaches {w : Source} {key : String} {o : Object} (h : w.Serves key o) :
    w.Reaches o := by
  obtain ⟨e, ref, kind, he, hasks, hexternal, -, hfetch⟩ := h
  exact .fetched he hasks hexternal hfetch

end Source

/-! The objects in the index of a document, with the tokens of their pointers. -/

/-- Every entry of the index lies below `tokens` and satisfies `P`. -/
def Index.Within (tokens : List String) (P : Object → Prop) (index : Index) : Prop :=
  ∀ entry ∈ index, (∃ rest, entry.1 = Reference.join "#" (tokens ++ rest)) ∧ P entry.2

namespace Index

variable {P : Object → Prop} {tokens : List String}

theorem Within.nil : Within tokens P [] := by
  intro entry hentry
  cases hentry

theorem Within.cons {o : Object} {index : Index} (ho : P o) (h : Within tokens P index) :
    Within tokens P ((Reference.join "#" tokens, o) :: index) := by
  intro entry hentry
  rcases List.mem_cons.mp hentry with rfl | hrest
  · exact ⟨⟨[], by rw [List.append_nil]⟩, ho⟩
  · exact h entry hrest

theorem Within.append {left right : Index} (hleft : Within tokens P left)
    (hright : Within tokens P right) : Within tokens P (left ++ right) := by
  intro entry hentry
  rcases List.mem_append.mp hentry with h | h
  · exact hleft entry h
  · exact hright entry h

theorem Within.flatMap {α : Type} {list : List α} {f : α → Index}
    (h : ∀ x ∈ list, Within tokens P (f x)) : Within tokens P (list.flatMap f) := by
  intro entry hentry
  obtain ⟨x, hx, hmem⟩ := List.mem_flatMap.mp hentry
  exact h x hx entry hmem

/-- What lies below a place further down lies below the place as well. -/
theorem Within.up {more : List String} {index : Index} (h : Within (tokens ++ more) P index) :
    Within tokens P index := by
  intro entry hentry
  obtain ⟨⟨rest, hrest⟩, hP⟩ := h entry hentry
  exact ⟨⟨more ++ rest, by rw [hrest, List.append_assoc]⟩, hP⟩

theorem ofSchema_eq (place : String) (s : Schema) :
    ofSchema place s = (place, s) :: s.children.flatMap fun (path, child) =>
      child.elim [] (ofSchema (Reference.join place path)) := by
  rw [ofSchema]
  congr 1
  refine (List.flatMap_subtype (l := s.children.attach)
    (g := fun entry => entry.2.elim [] (ofSchema (Reference.join place entry.1))) ?_).trans
    (by rw [List.unattach_attach])
  rintro ⟨path, child⟩ hmem
  cases child <;> rfl

/-- `P` passes from an object to the objects inside it. -/
def Closed (P : Object → Prop) : Prop := ∀ o, P o → ∀ inner ∈ o.parts, P inner

theorem Closed.child {s child : Schema} {path : List String} (hP : Closed P)
    (hs : P (.schema s)) (hchild : (path, some child) ∈ s.children) : P (.schema child) := by
  have hinner : (path, some child) ∈ s.inner := by
    cases hbool : s.isBool with
    | true => simp [Schema.children, hbool] at hchild
    | false =>
      simp only [Schema.children, hbool] at hchild
      exact hchild
  exact hP _ hs _ (List.mem_filterMap.mpr ⟨(path, some child), hinner, rfl⟩)

theorem mem_objectsOf {α : Type} {wrap : α → Object} {m : Option (OrderedMap (Option α))}
    {name : String} {x : α} (h : (name, some x) ∈ entriesOf m) : wrap x ∈ objectsOf wrap m :=
  List.mem_filterMap.mpr ⟨(name, some x), h, rfl⟩

theorem mem_parameterObjects {parameters : Option (List (Option Parameter))} {p : Parameter}
    (h : some p ∈ parameters.getD []) : .parameter p ∈ parameterObjects parameters :=
  List.mem_filterMap.mpr ⟨some p, h, rfl⟩

theorem ofSchema_within (hP : Closed P) (s : Schema) (tokens : List String)
    (hs : P (.schema s)) :
    ∀ entry ∈ ofSchema (Reference.join "#" tokens) s,
      (∃ rest, entry.1 = Reference.join "#" (tokens ++ rest)) ∧ P (.schema entry.2) := by
  intro entry hentry
  rw [ofSchema_eq] at hentry
  rcases List.mem_cons.mp hentry with rfl | hbelow
  · exact ⟨⟨[], by rw [List.append_nil]⟩, hs⟩
  · obtain ⟨⟨path, child⟩, hchild, hmem⟩ := List.mem_flatMap.mp hbelow
    cases child with
    | none => cases hmem
    | some child =>
      simp only [Option.elim_some, Reference.join_join] at hmem
      obtain ⟨⟨rest, hrest⟩, hP'⟩ :=
        ofSchema_within hP child (tokens ++ path) (hP.child hs hchild) entry hmem
      exact ⟨⟨path ++ rest, by rw [hrest, List.append_assoc]⟩, hP'⟩
termination_by s
decreasing_by exact Schema.sizeOf_lt_of_mem_children hchild

theorem ofSchema?_within (hP : Closed P) {s : Option Schema}
    (hs : ∀ x, s = some x → P (.schema x)) :
    Within tokens P (ofSchema? (Reference.join "#" tokens) s) := by
  cases s with
  | none => exact Within.nil
  | some s =>
    intro entry hentry
    obtain ⟨⟨place, t⟩, hmem, rfl⟩ := List.mem_map.mp hentry
    exact ofSchema_within hP s tokens (hs s rfl) (place, t) hmem

theorem ofContent_within (hP : Closed P) {content : Content}
    (hcontent : ∀ o ∈ objectsOf .mediaType content, P o) :
    Within tokens P (ofContent (Reference.join "#" tokens) content) := by
  apply Within.flatMap
  rintro ⟨name, m⟩ hmem
  cases m with
  | none => exact Within.nil
  | some m =>
    have hm : P (.mediaType m) := hcontent _ (mem_objectsOf hmem)
    simp only [Reference.join_join]
    refine Within.up (Within.cons hm ?_)
    exact Within.up (ofSchema?_within hP fun x hx => hP _ hm _ (by simp [Object.parts, hx]))

theorem ofParameter_within (hP : Closed P) {p : Option Parameter}
    (hp : ∀ x, p = some x → P (.parameter x)) :
    Within tokens P (ofParameter (Reference.join "#" tokens) p) := by
  cases p with
  | none => exact Within.nil
  | some p =>
    have hparts := hP _ (hp p rfl)
    simp only [ofParameter, Reference.join_join]
    apply Within.append
    · exact Within.cons (hp p rfl)
        (Within.up (ofSchema?_within hP fun x hx => hparts _ (by simp [Object.parts, hx])))
    · exact Within.up (ofContent_within hP fun o ho => hparts o (List.mem_append_right _ ho))

theorem ofHeader_within (hP : Closed P) {h : Option Header}
    (hh : ∀ x, h = some x → P (.header x)) :
    Within tokens P (ofHeader (Reference.join "#" tokens) h) := by
  cases h with
  | none => exact Within.nil
  | some h =>
    have hparts := hP _ (hh h rfl)
    simp only [ofHeader, Reference.join_join]
    apply Within.append
    · exact Within.cons (hh h rfl)
        (Within.up (ofSchema?_within hP fun x hx => hparts _ (by simp [Object.parts, hx])))
    · exact Within.up (ofContent_within hP fun o ho => hparts o (List.mem_append_right _ ho))

theorem ofRequestBody_within (hP : Closed P) {b : Option RequestBody}
    (hb : ∀ x, b = some x → P (.requestBody x)) :
    Within tokens P (ofRequestBody (Reference.join "#" tokens) b) := by
  cases b with
  | none => exact Within.nil
  | some b =>
    simp only [ofRequestBody, Reference.join_join]
    exact Within.cons (hb b rfl) (Within.up (ofContent_within hP (hP _ (hb b rfl))))

theorem ofResponse_within (hP : Closed P) {r : Option Response}
    (hr : ∀ x, r = some x → P (.response x)) :
    Within tokens P (ofResponse (Reference.join "#" tokens) r) := by
  cases r with
  | none => exact Within.nil
  | some r =>
    have hparts := hP _ (hr r rfl)
    simp only [ofResponse, Reference.join_join]
    apply Within.append
    · apply Within.cons (hr r rfl)
      apply Within.flatMap
      rintro ⟨name, h⟩ hmem
      refine Within.up (ofHeader_within hP fun x hx => hparts _ (List.mem_append_left _ ?_))
      subst hx
      exact mem_objectsOf hmem
    · exact Within.up (ofContent_within hP fun o ho => hparts o (List.mem_append_right _ ho))

theorem ofParameters_within (hP : Closed P) {parameters : Option (List (Option Parameter))}
    (hparameters : ∀ o ∈ parameterObjects parameters, P o) :
    Within tokens P (ofParameters (Reference.join "#" tokens) parameters) := by
  apply Within.flatMap
  rintro ⟨p, i⟩ hmem
  simp only [Reference.join_join]
  refine Within.up (ofParameter_within hP fun x hx => hparameters _ (mem_parameterObjects ?_))
  subst hx
  exact List.fst_mem_of_mem_zipIdx hmem

theorem ofOperation_within (hP : Closed P) {o : Operation} (ho : P (.operation o)) :
    Within tokens P (ofOperation (Reference.join "#" tokens) o) := by
  have hparts := hP _ ho
  simp only [ofOperation, Reference.join_join]
  refine Within.append (Within.append (Within.cons ho ?_) ?_) ?_
  · exact ofParameters_within hP fun x hx =>
      hparts x (List.mem_append_left _ (List.mem_append_left _ hx))
  · refine Within.up (ofRequestBody_within hP fun x hx =>
      hparts _ (List.mem_append_left _ (List.mem_append_right _ ?_)))
    simp [hx]
  · apply Within.flatMap
    rintro ⟨code, r⟩ hmem
    refine Within.up (ofResponse_within hP fun x hx => hparts _ (List.mem_append_right _ ?_))
    subst hx
    exact mem_objectsOf hmem

theorem ofPathItem_within (hP : Closed P) {item : Option PathItem}
    (hitem : ∀ x, item = some x → P (.pathItem x)) :
    Within tokens P (ofPathItem (Reference.join "#" tokens) item) := by
  cases item with
  | none => exact Within.nil
  | some item =>
    have hparts := hP _ (hitem item rfl)
    simp only [ofPathItem, Reference.join_join]
    apply Within.append
    · exact Within.cons (hitem item rfl)
        (ofParameters_within hP fun x hx => hparts x (List.mem_append_left _ hx))
    · apply Within.flatMap
      rintro ⟨method, o⟩ hmem
      refine Within.up (ofOperation_within hP (hparts _ (List.mem_append_right _ ?_)))
      exact List.mem_map.mpr ⟨(method, o), hmem, rfl⟩

/-- An entry below a map lies below one of its names. -/
theorem ofEntries_mem {α : Type} {wrap : α → Object} {place : List String}
    {index : String → Option α → Index} {m : Option (OrderedMap (Option α))}
    (hindex : ∀ tokens x, (∀ y, x = some y → P (wrap y)) →
      Within tokens P (index (Reference.join "#" tokens) x))
    (hnull : ∀ place, index place none = []) (hm : ∀ o ∈ objectsOf wrap m, P o)
    {entry : String × Object} (h : entry ∈ ofEntries place index m) :
    (∃ name x, (name, some x) ∈ entriesOf m ∧
      ∃ rest, entry.1 = Reference.join "#" (place ++ [name] ++ rest)) ∧ P entry.2 := by
  obtain ⟨⟨name, x⟩, hmem, hentry⟩ := List.mem_flatMap.mp h
  cases x with
  | none =>
    simp only [hnull] at hentry
    cases hentry
  | some x =>
    have hx : ∀ y, some x = some y → P (wrap y) := by
      rintro y ⟨⟩
      exact hm _ (mem_objectsOf hmem)
    obtain ⟨hrest, hP⟩ := hindex (place ++ [name]) (some x) hx entry hentry
    exact ⟨⟨name, x, hmem, hrest⟩, hP⟩

end Index

/-- The name is that of an entry that is not null. -/
def isEntry {α : Type} (m : Option (OrderedMap (Option α))) (name : String) : Prop :=
  ∃ x, (name, some x) ∈ entriesOf m

/-- The name is that of a component in the category of the given name. -/
def Components.HasEntry (c : Components) (category name : String) : Prop :=
  category = "schemas" ∧ isEntry c.schemas name ∨
    category = "responses" ∧ isEntry c.responses name ∨
    category = "parameters" ∧ isEntry c.parameters name ∨
    category = "requestBodies" ∧ isEntry c.requestBodies name ∨
    category = "headers" ∧ isEntry c.headers name ∨
    category = "pathItems" ∧ isEntry c.pathItems name

/-- The tokens start with the name of an entry of the document. -/
def Document.Names (doc : Document) (tokens : List String) : Prop :=
  (∃ c category name rest, doc.components = some c ∧ c.HasEntry category name ∧
    tokens = "components" :: category :: name :: rest) ∨
  (∃ name rest, isEntry doc.paths name ∧ tokens = "paths" :: name :: rest) ∨
  (∃ name rest, isEntry doc.webhooks name ∧ tokens = "webhooks" :: name :: rest) ∨
  (∃ name rest, isEntry doc.defs name ∧ tokens = "$defs" :: name :: rest)

namespace Index

variable {P : Object → Prop}

theorem ofComponents_mem (hP : Closed P) {c : Components} (hc : ∀ o ∈ c.objects, P o)
    {entry : String × Object} (h : entry ∈ ofComponents c) :
    (∃ category name rest, c.HasEntry category name ∧
      entry.1 = Reference.join "#" ("components" :: category :: name :: rest)) ∧ P entry.2 := by
  simp only [Components.objects, List.mem_append] at hc
  simp only [ofComponents, List.mem_append] at h
  rcases h with ((((h | h) | h) | h) | h) | h
  · obtain ⟨⟨name, x, hx, rest, hrest⟩, hPe⟩ := ofEntries_mem
      (fun tokens x hx => ofSchema?_within hP hx) (fun _ => rfl) (by grind) h
    exact ⟨⟨"schemas", name, rest, .inl ⟨rfl, x, hx⟩, hrest⟩, hPe⟩
  · obtain ⟨⟨name, x, hx, rest, hrest⟩, hPe⟩ := ofEntries_mem
      (fun tokens x hx => ofResponse_within hP hx) (fun _ => rfl) (by grind) h
    exact ⟨⟨"responses", name, rest, .inr (.inl ⟨rfl, x, hx⟩), hrest⟩, hPe⟩
  · obtain ⟨⟨name, x, hx, rest, hrest⟩, hPe⟩ := ofEntries_mem
      (fun tokens x hx => ofParameter_within hP hx) (fun _ => rfl) (by grind) h
    exact ⟨⟨"parameters", name, rest, .inr (.inr (.inl ⟨rfl, x, hx⟩)), hrest⟩, hPe⟩
  · obtain ⟨⟨name, x, hx, rest, hrest⟩, hPe⟩ := ofEntries_mem
      (fun tokens x hx => ofRequestBody_within hP hx) (fun _ => rfl) (by grind) h
    exact ⟨⟨"requestBodies", name, rest, .inr (.inr (.inr (.inl ⟨rfl, x, hx⟩))), hrest⟩, hPe⟩
  · obtain ⟨⟨name, x, hx, rest, hrest⟩, hPe⟩ := ofEntries_mem
      (fun tokens x hx => ofHeader_within hP hx) (fun _ => rfl) (by grind) h
    exact ⟨⟨"headers", name, rest, .inr (.inr (.inr (.inr (.inl ⟨rfl, x, hx⟩)))), hrest⟩, hPe⟩
  · obtain ⟨⟨name, x, hx, rest, hrest⟩, hPe⟩ := ofEntries_mem
      (fun tokens x hx => ofPathItem_within hP hx) (fun _ => rfl) (by grind) h
    exact ⟨⟨"pathItems", name, rest, .inr (.inr (.inr (.inr (.inr ⟨rfl, x, hx⟩)))), hrest⟩, hPe⟩

/-- Every entry of the index of a document has a pointer below the name of an entry, and an object
that lies in the document. -/
theorem ofDocument_mem (hP : Closed P) {doc : Document} (hdoc : ∀ o ∈ doc.objects, P o)
    {entry : String × Object} (h : entry ∈ ofDocument doc) :
    (∃ tokens, doc.Names tokens ∧ entry.1 = Reference.join "#" tokens) ∧ P entry.2 := by
  simp only [Document.objects, List.mem_append] at hdoc
  simp only [ofDocument, List.mem_append] at h
  rcases h with ((h | h) | h) | h
  · cases hcomponents : doc.components with
    | none =>
      rw [hcomponents] at h
      cases h
    | some c =>
      rw [hcomponents] at h
      simp only [hcomponents, Option.elim_some] at hdoc
      obtain ⟨⟨category, name, rest, hentry, hkey⟩, hPe⟩ := ofComponents_mem hP (by grind) h
      exact ⟨⟨_, .inl ⟨c, category, name, rest, hcomponents, hentry, rfl⟩, hkey⟩, hPe⟩
  · obtain ⟨⟨name, x, hx, rest, hrest⟩, hPe⟩ := ofEntries_mem
      (fun tokens x hx => ofPathItem_within hP hx) (fun _ => rfl) (by grind) h
    exact ⟨⟨_, .inr (.inl ⟨name, rest, ⟨x, hx⟩, rfl⟩), hrest⟩, hPe⟩
  · obtain ⟨⟨name, x, hx, rest, hrest⟩, hPe⟩ := ofEntries_mem
      (fun tokens x hx => ofPathItem_within hP hx) (fun _ => rfl) (by grind) h
    exact ⟨⟨_, .inr (.inr (.inl ⟨name, rest, ⟨x, hx⟩, rfl⟩)), hrest⟩, hPe⟩
  · obtain ⟨⟨name, x, hx, rest, hrest⟩, hPe⟩ := ofEntries_mem
      (fun tokens x hx => ofSchema?_within hP hx) (fun _ => rfl) (by grind) h
    exact ⟨⟨_, .inr (.inr (.inr ⟨name, rest, ⟨x, hx⟩, rfl⟩)), hrest⟩, hPe⟩

end Index

namespace Source

theorem closed_reaches (w : Source) : Index.Closed w.Reaches :=
  fun _ ho _ hinner => .part ho hinner

/-- Every object in the index of the document can be met. -/
theorem reaches_of_mem_index {w : Source} {key : String} {o : Object}
    (h : (key, o) ∈ Index.ofDocument w.doc) : w.Reaches o :=
  (Index.ofDocument_mem w.closed_reaches (fun _ ho => .root ho) h).2

end Source

end ApiTypes
