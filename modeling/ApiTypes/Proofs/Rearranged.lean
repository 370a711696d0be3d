import ApiTypes.Proofs.Entries
import ApiTypes.Proofs.SchemaSize
import ApiTypes.Proofs.Targets

/-!
Documents that differ in the order of the entries of their maps. Two such documents have, under
every pointer, the same objects up to the order of entries inside them, although their indexes list
them in different orders.

Whether the order of entries counts is a parameter, so that all of this also holds of a document and
itself.
-/

namespace ApiTypes

variable {α β : Type}

/-- Maps with related values, up to the order of entries if it does not count. -/
def MapRel (sorted : Bool) (R : α → β → Prop) (m : Option (OrderedMap (Option α)))
    (m' : Option (OrderedMap (Option β))) : Prop :=
  EntriesRel sorted (Option.Rel R) (entriesOf m) (entriesOf m')

/-- Lists with related members, or none at all. -/
def ListRel (R : α → β → Prop) (l : Option (List (Option α))) (l' : Option (List (Option β))) :
    Prop := Option.Rel (List.Forall₂ (Option.Rel R)) l l'

/-- One schema for all items, or one for each position. -/
inductive ItemsRel (R : α → β → Prop) : Items α → Items β → Prop where
  | single {s : α} {t : β} : R s t → ItemsRel R (.single s) (.single t)
  | tuple {l : List (Option α)} {l' : List (Option β)} :
    List.Forall₂ (Option.Rel R) l l' → ItemsRel R (.tuple l) (.tuple l')

section Mono

variable {R S : α → β → Prop}

theorem members_mono {l : List (Option α)} {l' : List (Option β)}
    (h : List.Forall₂ (Option.Rel R) l l') (hRS : ∀ x y, some x ∈ l → R x y → S x y) :
    List.Forall₂ (Option.Rel S) l l' := by
  refine forall₂_mono h fun o o' ho hoo' => optionRel_mono hoo' ?_
  rintro x y rfl
  exact hRS x y ho

theorem listRel_mono {l : Option (List (Option α))} {l' : Option (List (Option β))}
    (h : ListRel R l l') (hRS : ∀ x y, some x ∈ l.getD [] → R x y → S x y) : ListRel S l l' := by
  cases h with
  | none => exact .none
  | some h => exact .some (members_mono h hRS)

theorem mapRel_mono {sorted : Bool} {m : Option (OrderedMap (Option α))}
    {m' : Option (OrderedMap (Option β))} (h : MapRel sorted R m m')
    (hRS : ∀ name x y, (name, some x) ∈ entriesOf m → R x y → S x y) : MapRel sorted S m m' := by
  refine EntriesRel.mono h fun name o o' ho hoo' => optionRel_mono hoo' ?_
  rintro x y rfl
  exact hRS name x y ho

end Mono

theorem optionRel_refl {R : α → α → Prop} (hR : ∀ x, R x x) (o : Option α) : Option.Rel R o o := by
  cases o with
  | none => exact .none
  | some x => exact .some (hR x)

theorem mapRel_refl {sorted : Bool} {R : α → α → Prop} (hR : ∀ x, R x x)
    (m : Option (OrderedMap (Option α))) : MapRel sorted R m m :=
  EntriesRel.refl (optionRel_refl hR) _

/-- Entries in another order are the same map. -/
theorem mapRel_of_perm {R : α → α → Prop} (hR : ∀ x, R x x) {m m' : OrderedMap (Option α)}
    (h : m.toList.Perm m'.toList) : MapRel true R (some m) (some m') :=
  (EntriesRel.of_perm h m.nodup_toList).mono fun _ x _ _ hxy => hxy ▸ optionRel_refl hR x

theorem listRel_refl {R : α → α → Prop} (hR : ∀ x, R x x) (l : Option (List (Option α))) :
    ListRel R l l :=
  optionRel_refl (fun _ => List.forall₂_same.mpr fun x _ => optionRel_refl hR x) l

theorem ListRel.members {R : α → β → Prop} {l : Option (List (Option α))}
    {l' : Option (List (Option β))} (h : ListRel R l l') :
    List.Forall₂ (Option.Rel R) (l.getD []) (l'.getD []) := by
  cases h with
  | none => exact .nil
  | some h => exact h

/-- What is read off an object without the objects below it is the same for two that are the same
without them. -/
theorem congr_of_bare {α γ : Type} {bare : α → α} {x y : α} (h : bare x = bare y) (f : α → γ)
    (hf : ∀ x, f (bare x) = f x) : f x = f y := by
  rw [← hf x, ← hf y, h]

namespace Schema

/-- A schema without the schemas below it. -/
def bare (s : Schema) : Schema :=
  { s with
    properties := none, additionalProperties := none, defs := none, items := none
    prefixItems := none, allOf := none, oneOf := none, anyOf := none }

/-- Two schemas say the same, and the schemas below them are related. -/
structure Matches (sorted : Bool) (R : Schema → Schema → Prop) (s t : Schema) : Prop where
  bare : s.bare = t.bare
  properties : MapRel sorted R s.properties t.properties
  additionalProperties : Option.Rel R s.additionalProperties t.additionalProperties
  defs : MapRel sorted R s.defs t.defs
  items : Option.Rel (ItemsRel R) s.items t.items
  prefixItems : ListRel R s.prefixItems t.prefixItems
  allOf : ListRel R s.allOf t.allOf
  oneOf : ListRel R s.oneOf t.oneOf
  anyOf : ListRel R s.anyOf t.anyOf

/-- Two schemas are the same up to the order of entries, all the way down. -/
def Alike (sorted : Bool) (s t : Schema) : Prop :=
  ∃ R : Schema → Schema → Prop, (∀ s t, R s t → Matches sorted R s t) ∧ R s t

variable {sorted : Bool}

theorem itemsRel_mono {R S : Schema → Schema → Prop} {i i' : Option (Items Schema)}
    (h : Option.Rel (ItemsRel R) i i')
    (hRS : ∀ s t path, (path, some s) ∈ itemChildren i → R s t → S s t) :
    Option.Rel (ItemsRel S) i i' := by
  cases h with
  | none => exact .none
  | some h =>
    cases h with
    | single h => exact .some (.single (hRS _ _ _ List.mem_cons_self h))
    | @tuple l l' h =>
      refine .some (.tuple (members_mono h fun s t hs => ?_))
      obtain ⟨path, hpath⟩ := @mem_numbered "items" (some l) s hs
      exact hRS s t path hpath

/-- The relation of the schemas below may use that they are below. -/
theorem Matches.mono {R S : Schema → Schema → Prop} {s t : Schema} (h : Matches sorted R s t)
    (hRS : ∀ c d, s.Holds c → R c d → S c d) : Matches sorted S s t where
  bare := h.bare
  properties := mapRel_mono h.properties fun _ c d hc => hRS c d (.property hc)
  additionalProperties := optionRel_mono h.additionalProperties fun c d hc => hRS c d (.further hc)
  defs := mapRel_mono h.defs fun _ c d hc => hRS c d (.definition hc)
  items := itemsRel_mono h.items fun c d path hc =>
    hRS c d ⟨path, (mem_inner s _).mpr (by simp [hc])⟩
  prefixItems := listRel_mono h.prefixItems fun c d hc => hRS c d (.prefixItem hc)
  allOf := listRel_mono h.allOf fun c d hc => hRS c d (.allOf hc)
  oneOf := listRel_mono h.oneOf fun c d hc => hRS c d (.oneOf hc)
  anyOf := listRel_mono h.anyOf fun c d hc => hRS c d (.anyOf hc)

/-- A schema is larger than the schemas below its keywords. -/
theorem Holds.sizeOf_lt {s child : Schema} (h : s.Holds child) : sizeOf child < sizeOf s := by
  obtain ⟨path, hpath⟩ := h
  have hlt := sizeOf_lt_of_mem_children hpath
  have hle : sizeOf { s with bool := none : Schema } ≤ sizeOf s := by
    cases s with
    | mk ref bool =>
      cases bool <;> simp
  exact Nat.lt_of_lt_of_le hlt hle

theorem matches_refl {R : Schema → Schema → Prop} (hR : ∀ s, R s s) (s : Schema) :
    Matches sorted R s s := by
  refine ⟨rfl, mapRel_refl hR _, optionRel_refl hR _, mapRel_refl hR _, optionRel_refl ?_ _,
    listRel_refl hR _, listRel_refl hR _, listRel_refl hR _, listRel_refl hR _⟩
  intro items
  cases items with
  | single s => exact .single (hR s)
  | tuple l => exact .tuple (List.forall₂_same.mpr fun x _ => optionRel_refl hR x)

namespace Alike

/-- Schemas that are alike say the same, and the schemas below them are alike. -/
theorem step {s t : Schema} (h : Alike sorted s t) : Matches sorted (Alike sorted) s t := by
  obtain ⟨R, hR, hst⟩ := h
  exact (hR s t hst).mono fun s t _ hst => ⟨R, hR, hst⟩

theorem of_step {s t : Schema} (h : Matches sorted (Alike sorted) s t) : Alike sorted s t := by
  refine ⟨fun s t => Matches sorted (Alike sorted) s t, fun s t hst => ?_, h⟩
  exact hst.mono fun _ _ _ => step

theorem refl (s : Schema) : Alike sorted s s :=
  ⟨Eq, fun _ _ h => h ▸ matches_refl (fun _ => rfl) _, rfl⟩

/-- What is read off a schema without the schemas below it is the same for both. -/
theorem congr {s t : Schema} (h : Alike sorted s t) {γ : Type} (f : Schema → γ)
    (hf : ∀ s, f s.bare = f s) : f s = f t := congr_of_bare h.step.bare f hf

end Alike

end Schema

/-! The objects of a document in the same way. The content of a parameter is an exception: only its
first entry is looked at, so that its order counts. -/

def Header.bare (h : Header) : Header := { h with schema := none, content := none }

def Parameter.bare (p : Parameter) : Parameter := { p with schema := none, content := none }

def RequestBody.bare (b : RequestBody) : RequestBody := { b with content := none }

def Response.bare (r : Response) : Response := { r with headers := none, content := none }

def Operation.bare (o : Operation) : Operation :=
  { o with parameters := none, requestBody := none, responses := none }

def PathItem.bare (item : PathItem) : PathItem :=
  { item with parameters := none, operation? := fun _ => none }

section Objects

variable (sorted : Bool)

structure MediaType.Alike (m m' : MediaType) : Prop where
  ref : m.ref = m'.ref
  schema : Option.Rel (Schema.Alike sorted) m.schema m'.schema

structure Header.Alike (h h' : Header) : Prop where
  bare : h.bare = h'.bare
  schema : Option.Rel (Schema.Alike sorted) h.schema h'.schema
  content : MapRel sorted (MediaType.Alike sorted) h.content h'.content

structure Parameter.Alike (p p' : Parameter) : Prop where
  bare : p.bare = p'.bare
  schema : Option.Rel (Schema.Alike sorted) p.schema p'.schema
  content : MapRel false (MediaType.Alike sorted) p.content p'.content

structure RequestBody.Alike (b b' : RequestBody) : Prop where
  bare : b.bare = b'.bare
  content : MapRel sorted (MediaType.Alike sorted) b.content b'.content

structure Response.Alike (r r' : Response) : Prop where
  bare : r.bare = r'.bare
  headers : MapRel sorted (Header.Alike sorted) r.headers r'.headers
  content : MapRel sorted (MediaType.Alike sorted) r.content r'.content

structure Operation.Alike (o o' : Operation) : Prop where
  bare : o.bare = o'.bare
  parameters : ListRel (Parameter.Alike sorted) o.parameters o'.parameters
  requestBody : Option.Rel (RequestBody.Alike sorted) o.requestBody o'.requestBody
  responses : MapRel sorted (Response.Alike sorted) o.responses o'.responses

structure PathItem.Alike (item item' : PathItem) : Prop where
  bare : item.bare = item'.bare
  parameters : ListRel (Parameter.Alike sorted) item.parameters item'.parameters
  operations : ∀ method,
    Option.Rel (Operation.Alike sorted) (item.operation? method) (item'.operation? method)

structure Components.Alike (c c' : Components) : Prop where
  schemas : MapRel sorted (Schema.Alike sorted) c.schemas c'.schemas
  responses : MapRel sorted (Response.Alike sorted) c.responses c'.responses
  parameters : MapRel sorted (Parameter.Alike sorted) c.parameters c'.parameters
  requestBodies : MapRel sorted (RequestBody.Alike sorted) c.requestBodies c'.requestBodies
  headers : MapRel sorted (Header.Alike sorted) c.headers c'.headers
  pathItems : MapRel sorted (PathItem.Alike sorted) c.pathItems c'.pathItems

/-- Two documents are the same up to the order of the entries of their maps, if it does not
count. -/
structure Document.Alike (doc doc' : Document) : Prop where
  openapi : doc.openapi = doc'.openapi
  swagger : doc.swagger = doc'.swagger
  paths : MapRel sorted (PathItem.Alike sorted) doc.paths doc'.paths
  webhooks : MapRel sorted (PathItem.Alike sorted) doc.webhooks doc'.webhooks
  components : Option.Rel (Components.Alike sorted) doc.components doc'.components
  defs : MapRel sorted (Schema.Alike sorted) doc.defs doc'.defs

inductive Object.Alike : Object → Object → Prop where
  | schema {s t : Schema} : s.Alike sorted t → Object.Alike (.schema s) (.schema t)
  | parameter {p q : Parameter} : p.Alike sorted q → Object.Alike (.parameter p) (.parameter q)
  | requestBody {b c : RequestBody} : b.Alike sorted c →
    Object.Alike (.requestBody b) (.requestBody c)
  | response {r t : Response} : r.Alike sorted t → Object.Alike (.response r) (.response t)
  | header {h k : Header} : h.Alike sorted k → Object.Alike (.header h) (.header k)
  | mediaType {m n : MediaType} : m.Alike sorted n → Object.Alike (.mediaType m) (.mediaType n)
  | pathItem {p q : PathItem} : p.Alike sorted q → Object.Alike (.pathItem p) (.pathItem q)
  | operation {o u : Operation} : o.Alike sorted u → Object.Alike (.operation o) (.operation u)

end Objects

section Refl

variable {sorted : Bool}

theorem MediaType.Alike.refl (m : MediaType) : m.Alike sorted m :=
  ⟨rfl, optionRel_refl Schema.Alike.refl _⟩

theorem Header.Alike.refl (h : Header) : h.Alike sorted h :=
  ⟨rfl, optionRel_refl Schema.Alike.refl _, mapRel_refl MediaType.Alike.refl _⟩

theorem Parameter.Alike.refl (p : Parameter) : p.Alike sorted p :=
  ⟨rfl, optionRel_refl Schema.Alike.refl _, mapRel_refl MediaType.Alike.refl _⟩

theorem RequestBody.Alike.refl (b : RequestBody) : b.Alike sorted b :=
  ⟨rfl, mapRel_refl MediaType.Alike.refl _⟩

theorem Response.Alike.refl (r : Response) : r.Alike sorted r :=
  ⟨rfl, mapRel_refl Header.Alike.refl _, mapRel_refl MediaType.Alike.refl _⟩

theorem Operation.Alike.refl (o : Operation) : o.Alike sorted o :=
  ⟨rfl, listRel_refl Parameter.Alike.refl _, optionRel_refl RequestBody.Alike.refl _,
    mapRel_refl Response.Alike.refl _⟩

theorem PathItem.Alike.refl (item : PathItem) : item.Alike sorted item :=
  ⟨rfl, listRel_refl Parameter.Alike.refl _,
    fun _ => optionRel_refl Operation.Alike.refl _⟩

theorem Components.Alike.refl (c : Components) : c.Alike sorted c where
  schemas := mapRel_refl Schema.Alike.refl _
  responses := mapRel_refl Response.Alike.refl _
  parameters := mapRel_refl Parameter.Alike.refl _
  requestBodies := mapRel_refl RequestBody.Alike.refl _
  headers := mapRel_refl Header.Alike.refl _
  pathItems := mapRel_refl PathItem.Alike.refl _

theorem Object.Alike.refl (o : Object) : o.Alike sorted o := by
  cases o with
  | schema s => exact .schema (.refl s)
  | parameter p => exact .parameter (.refl p)
  | requestBody b => exact .requestBody (.refl b)
  | response r => exact .response (.refl r)
  | header h => exact .header (.refl h)
  | mediaType m => exact .mediaType (.refl m)
  | pathItem p => exact .pathItem (.refl p)
  | operation o => exact .operation (.refl o)

end Refl

/-- The operations in the order of methods are related as well. -/
theorem PathItem.Alike.inOrder {sorted : Bool} {item item' : PathItem}
    (h : item.Alike sorted item') :
    List.Forall₂ (fun a b => a.1 = b.1 ∧ Operation.Alike sorted a.2 b.2) item.inOrder
      item'.inOrder := by
  unfold PathItem.inOrder
  induction Method.all with
  | nil => exact .nil
  | cons method rest ih =>
    have hmethod := h.operations method
    simp only [List.filterMap_cons]
    generalize item.operation? method = o, item'.operation? method = o' at hmethod
    cases hmethod with
    | none => exact ih
    | some ho => exact .cons ⟨rfl, ho⟩ ih

/-! The indexes of such documents. -/

namespace Index

variable {γ δ : Type} {sorted : Bool}

/-- The entries all lie below a place. -/
def Below (tokens : List String) (index : List (String × γ)) : Prop :=
  ∀ entry ∈ index, ∃ rest, entry.1 = Reference.join "#" (tokens ++ rest)

theorem Below.nil (tokens : List String) : Below tokens ([] : List (String × γ)) := nofun

theorem Within.below {tokens : List String} {P : Object → Prop} {index : Index}
    (h : Within tokens P index) : Below tokens index := fun entry hentry => (h entry hentry).1

theorem valuesAt_of_not_below {tokens : List String} {index : List (String × γ)} {key : String}
    (h : Below tokens index) (hkey : ∀ rest, key ≠ Reference.join "#" (tokens ++ rest)) :
    valuesAt key index = [] := by
  apply List.eq_nil_iff_forall_not_mem.mpr
  intro o ho
  obtain ⟨rest, hrest⟩ := h _ (mem_valuesAt.mp ho)
  exact hkey rest hrest

/-- Only the entries of one name contribute. -/
theorem flatMap_valuesAt {name : String} {l : List (String × α)} {f : String × α → List γ}
    (h : ∀ entry ∈ l, entry.1 ≠ name → f entry = []) :
    l.flatMap f = (valuesAt name l).flatMap fun x => f (name, x) := by
  induction l with
  | nil => rfl
  | cons entry rest ih =>
    have hrest := ih fun e he => h e (List.mem_cons_of_mem entry he)
    rw [List.flatMap_cons, hrest, valuesAt_cons]
    split
    · rename_i hname
      rw [List.flatMap_cons, ← hname]
    · rename_i hname
      rw [h entry List.mem_cons_self hname, List.nil_append]

/-- What lies below other names has another pointer. -/
theorem valuesAt_of_name {base rest : List String} {name : String}
    {f : String × α → List (String × γ)} (hf : ∀ entry, Below (base ++ [entry.1]) (f entry))
    (entry : String × α) (hname : entry.1 ≠ name) :
    valuesAt (Reference.join "#" (base ++ [name] ++ rest)) (f entry) = [] := by
  apply valuesAt_of_not_below (hf entry)
  intro rest' heq
  have htokens := Reference.join_root_injective heq
  rw [List.append_assoc, List.append_assoc, List.append_cancel_left_eq] at htokens
  exact hname (List.cons.inj htokens).1.symm

/-- Lists below names: what they have under one pointer all stands below one name, so that the order
of names does not matter. -/
theorem keyedRel_below {R : γ → δ → Prop} {S : α → β → Prop} (base : List String)
    {l : List (String × α)} {l' : List (String × β)} {f : String × α → List (String × γ)}
    {g : String × β → List (String × δ)} (hf : ∀ entry, Below (base ++ [entry.1]) (f entry))
    (hg : ∀ entry, Below (base ++ [entry.1]) (g entry)) (hl : EntriesRel sorted S l l')
    (hfg : ∀ name x y, S x y → KeyedRel R (f (name, x)) (g (name, y))) :
    KeyedRel R (l.flatMap f) (l'.flatMap g) := by
  intro key
  rw [valuesAt_flatMap, valuesAt_flatMap]
  by_cases hkey : ∃ name rest, key = Reference.join "#" (base ++ [name] ++ rest)
  · obtain ⟨name, rest, rfl⟩ := hkey
    rw [flatMap_valuesAt fun entry _ => valuesAt_of_name hf entry,
      flatMap_valuesAt fun entry _ => valuesAt_of_name hg entry]
    exact List.rel_flatMap (hl.keyed name) fun x y hxy => hfg name x y hxy _
  · have hnone {ε ζ : Type} {h : String × ε → List (String × ζ)}
        (hh : ∀ entry, Below (base ++ [entry.1]) (h entry)) (entries : List (String × ε)) :
        (entries.flatMap fun entry => valuesAt key (h entry)) = [] := by
      apply List.flatMap_eq_nil_iff.mpr
      intro entry _
      apply valuesAt_of_not_below (hh entry)
      exact fun rest heq => hkey ⟨entry.1, rest, heq⟩
    rw [hnone hf, hnone hg]
    exact .nil

/-- Everything lies where the way down from its place leads. -/
theorem closed_true : Closed fun _ => True := fun _ _ _ _ => trivial

theorem ofSchema_below (tokens : List String) (s : Schema) :
    Below tokens (ofSchema (Reference.join "#" tokens) s) :=
  fun entry hentry => (ofSchema_within closed_true s tokens trivial entry hentry).1

theorem ofSchema?_below (tokens : List String) (s : Option Schema) :
    Below tokens (ofSchema? (Reference.join "#" tokens) s) :=
  (ofSchema?_within closed_true fun _ _ => trivial).below

theorem ofParameter_below (tokens : List String) (p : Option Parameter) :
    Below tokens (ofParameter (Reference.join "#" tokens) p) :=
  (ofParameter_within closed_true fun _ _ => trivial).below

theorem ofRequestBody_below (tokens : List String) (b : Option RequestBody) :
    Below tokens (ofRequestBody (Reference.join "#" tokens) b) :=
  (ofRequestBody_within closed_true fun _ _ => trivial).below

theorem ofPathItem_below (tokens : List String) (item : Option PathItem) :
    Below tokens (ofPathItem (Reference.join "#" tokens) item) :=
  (ofPathItem_within closed_true fun _ _ => trivial).below

theorem ofHeader_below (tokens : List String) (h : Option Header) :
    Below tokens (ofHeader (Reference.join "#" tokens) h) :=
  (ofHeader_within closed_true fun _ _ => trivial).below

theorem ofResponse_below (tokens : List String) (r : Option Response) :
    Below tokens (ofResponse (Reference.join "#" tokens) r) :=
  (ofResponse_within closed_true fun _ _ => trivial).below

theorem elim_ofSchema_below (tokens : List String) (s : Option Schema) :
    Below tokens (s.elim [] (ofSchema (Reference.join "#" tokens))) := by
  cases s with
  | none => exact Below.nil tokens
  | some s => exact ofSchema_below tokens s

/-- The schemas at the places below two schemas are alike. -/
def BelowAlike (sorted : Bool) (s t : Schema) : Prop :=
  ∀ tokens, KeyedRel (Schema.Alike sorted) (ofSchema (Reference.join "#" tokens) s)
    (ofSchema (Reference.join "#" tokens) t)

theorem elim_ofSchema_rel {s t : Option Schema} (h : Option.Rel (BelowAlike sorted) s t)
    (tokens : List String) :
    KeyedRel (Schema.Alike sorted) (s.elim [] (ofSchema (Reference.join "#" tokens)))
      (t.elim [] (ofSchema (Reference.join "#" tokens))) := by
  cases h with
  | none => exact .nil
  | some h => exact h tokens

/-- Some schemas below a place, each with the schemas below it. -/
def placed (tokens : List String) (children : List (List String × Option Schema)) :
    List (String × Schema) :=
  children.flatMap fun (path, child) =>
    child.elim [] (ofSchema (Reference.join (Reference.join "#" tokens) path))

theorem placed_append (tokens : List String) (first second : List (List String × Option Schema)) :
    placed tokens (first ++ second) = placed tokens first ++ placed tokens second :=
  List.flatMap_append

theorem placed_single {s t : Option Schema} (h : Option.Rel (BelowAlike sorted) s t)
    (tokens path : List String) :
    KeyedRel (Schema.Alike sorted) (placed tokens [(path, s)]) (placed tokens [(path, t)]) := by
  simp only [placed, List.flatMap_singleton, Reference.join_join]
  exact elim_ofSchema_rel h _

theorem placed_keyed {m m' : Option (OrderedMap (Option Schema))}
    (h : MapRel sorted (BelowAlike sorted) m m') (keyword : String) (tokens : List String) :
    KeyedRel (Schema.Alike sorted) (placed tokens (Schema.keyed keyword m))
      (placed tokens (Schema.keyed keyword m')) := by
  have hplace (name : String) : Reference.join (Reference.join "#" tokens) [keyword, name] =
      Reference.join "#" (tokens ++ [keyword] ++ [name]) := by
    rw [Reference.join_join, List.append_assoc]
    rfl
  simp only [placed, Schema.keyed, List.flatMap_map, hplace]
  exact keyedRel_below _ (fun entry => elim_ofSchema_below _ entry.2)
    (fun entry => elim_ofSchema_below _ entry.2) h fun name x y hxy => elim_ofSchema_rel hxy _

theorem forall₂_zipIdx {R : γ → δ → Prop} {l : List γ} {l' : List δ} (h : List.Forall₂ R l l')
    (n : Nat) : List.Forall₂ (fun a b => R a.1 b.1 ∧ a.2 = b.2) (l.zipIdx n) (l'.zipIdx n) := by
  induction h generalizing n with
  | nil => exact .nil
  | cons hab _ ih => exact .cons ⟨hab, rfl⟩ (ih (n + 1))

theorem placed_numbered {l l' : Option (List (Option Schema))}
    (h : ListRel (BelowAlike sorted) l l') (keyword : String) (tokens : List String) :
    KeyedRel (Schema.Alike sorted) (placed tokens (Schema.numbered keyword l))
      (placed tokens (Schema.numbered keyword l')) := by
  simp only [placed, Schema.numbered, List.flatMap_map, Reference.join_join]
  refine KeyedRel.flatMap (forall₂_zipIdx h.members 0) ?_
  rintro ⟨x, i⟩ ⟨y, j⟩ ⟨hxy, rfl⟩
  exact elim_ofSchema_rel hxy _

theorem placed_further {s t : Option Schema} (h : Option.Rel (BelowAlike sorted) s t)
    (tokens path : List String) :
    KeyedRel (Schema.Alike sorted) (placed tokens (s.toList.map fun s => (path, some s)))
      (placed tokens (t.toList.map fun t => (path, some t))) := by
  cases h with
  | none => exact .nil
  | some h => exact placed_single (.some h) tokens path

theorem placed_items {i i' : Option (Items Schema)}
    (h : Option.Rel (ItemsRel (BelowAlike sorted)) i i') (tokens : List String) :
    KeyedRel (Schema.Alike sorted) (placed tokens (Schema.itemChildren i))
      (placed tokens (Schema.itemChildren i')) := by
  cases h with
  | none => exact .nil
  | some h =>
    cases h with
    | single h => exact placed_single (.some h) tokens _
    | tuple h => exact placed_numbered (.some h) "items" tokens

/-- Schemas that are alike have, at every place below them, schemas that are alike. -/
theorem ofSchema_rel (s t : Schema) (h : s.Alike sorted t) : BelowAlike sorted s t := by
  intro tokens
  rw [ofSchema_eq, ofSchema_eq]
  apply KeyedRel.cons h
  have hbelow : s.Matches sorted (BelowAlike sorted) t :=
    h.step.mono fun c d hc hcd => ofSchema_rel c d hcd
  have hbool : s.isBool = t.isBool := h.congr Schema.isBool fun _ => rfl
  change KeyedRel _ (placed tokens s.children) (placed tokens t.children)
  unfold Schema.children
  rw [hbool]
  split
  · exact .nil
  · simp only [placed_append]
    exact (((((((placed_keyed hbelow.properties _ _).append
      (placed_further hbelow.additionalProperties _ _)).append
      (placed_keyed hbelow.defs _ _)).append (placed_items hbelow.items _)).append
      (placed_numbered hbelow.prefixItems _ _)).append
      (placed_numbered hbelow.allOf _ _)).append (placed_numbered hbelow.oneOf _ _)).append
      (placed_numbered hbelow.anyOf _ _)
termination_by s
decreasing_by exact hc.sizeOf_lt

/-- Schemas that are alike hold as many schemas. -/
theorem walk_length_eq {s t : Schema} (h : s.Alike sorted t) : s.walk.length = t.walk.length := by
  have hlength := (ofSchema_rel s t h []).length_eq
  rwa [length_ofSchema, length_ofSchema] at hlength

/-- Under every pointer, the indexes have objects that are alike. -/
abbrev Alike (sorted : Bool) (index index' : Index) : Prop :=
  KeyedRel (Object.Alike sorted) index index'

theorem ofSchema?_alike {s t : Option Schema} (h : Option.Rel (Schema.Alike sorted) s t)
    (tokens : List String) :
    Alike sorted (ofSchema? (Reference.join "#" tokens) s)
      (ofSchema? (Reference.join "#" tokens) t) := by
  have hschemas := elim_ofSchema_rel (optionRel_mono h fun c d _ => ofSchema_rel c d) tokens
  intro key
  have hvalues (l : List (String × Schema)) : valuesAt key
      (l.map fun entry => (entry.1, Object.schema entry.2)) = (valuesAt key l).map .schema := by
    simp only [valuesAt, List.filter_map, List.map_map]
    rfl
  unfold ofSchema?
  rw [hvalues, hvalues, List.forall₂_map_left_iff, List.forall₂_map_right_iff]
  exact (hschemas key).imp fun _ _ => .schema

theorem ofContent_alike {b : Bool} {c c' : Content} (h : MapRel b (MediaType.Alike sorted) c c')
    (tokens : List String) :
    Alike sorted (ofContent (Reference.join "#" tokens) c)
      (ofContent (Reference.join "#" tokens) c') := by
  refine keyedRel_below tokens ?left ?right h ?inner
  case left | right =>
    rintro ⟨name, m⟩
    cases m with
    | none => exact Below.nil _
    | some m =>
      simp only [Reference.join_join]
      exact (Within.cons trivial
        (Within.up (ofSchema?_within closed_true fun _ _ => trivial))).below
  case inner =>
    intro name m m' hm
    cases hm with
    | none => exact .nil
    | some hm =>
      simp only [Reference.join_join]
      exact .cons (.mediaType hm) (ofSchema?_alike hm.schema _)

theorem ofParameter_alike {p p' : Option Parameter} (h : Option.Rel (Parameter.Alike sorted) p p')
    (tokens : List String) :
    Alike sorted (ofParameter (Reference.join "#" tokens) p)
      (ofParameter (Reference.join "#" tokens) p') := by
  cases h with
  | none => exact .nil
  | some h =>
    simp only [ofParameter, Reference.join_join]
    exact (KeyedRel.cons (.parameter h) (ofSchema?_alike h.schema _)).append
      (ofContent_alike h.content _)

theorem ofHeader_alike {h h' : Option Header} (hh : Option.Rel (Header.Alike sorted) h h')
    (tokens : List String) :
    Alike sorted (ofHeader (Reference.join "#" tokens) h)
      (ofHeader (Reference.join "#" tokens) h') := by
  cases hh with
  | none => exact .nil
  | some hh =>
    simp only [ofHeader, Reference.join_join]
    exact (KeyedRel.cons (.header hh) (ofSchema?_alike hh.schema _)).append
      (ofContent_alike hh.content _)

theorem ofRequestBody_alike {b b' : Option RequestBody}
    (h : Option.Rel (RequestBody.Alike sorted) b b') (tokens : List String) :
    Alike sorted (ofRequestBody (Reference.join "#" tokens) b)
      (ofRequestBody (Reference.join "#" tokens) b') := by
  cases h with
  | none => exact .nil
  | some h =>
    simp only [ofRequestBody, Reference.join_join]
    exact .cons (.requestBody h) (ofContent_alike h.content _)

/-- The objects of a map, indexed below the names of the map. -/
theorem entries_alike {S : α → α → Prop} {index : String → Option α → Index}
    (hbelow : ∀ tokens x, Below tokens (index (Reference.join "#" tokens) x))
    (hindex : ∀ {x y}, Option.Rel S x y → ∀ tokens,
      Alike sorted (index (Reference.join "#" tokens) x) (index (Reference.join "#" tokens) y))
    {m m' : Option (OrderedMap (Option α))} (h : MapRel sorted S m m') (base : List String) :
    Alike sorted
      ((entriesOf m).flatMap fun (name, x) => index (Reference.join "#" (base ++ [name])) x)
      ((entriesOf m').flatMap fun (name, x) => index (Reference.join "#" (base ++ [name])) x) :=
  keyedRel_below base (fun entry => hbelow _ entry.2) (fun entry => hbelow _ entry.2) h
    fun _ _ _ hxy => hindex hxy _

theorem ofResponse_alike {r r' : Option Response} (h : Option.Rel (Response.Alike sorted) r r')
    (tokens : List String) :
    Alike sorted (ofResponse (Reference.join "#" tokens) r)
      (ofResponse (Reference.join "#" tokens) r') := by
  cases h with
  | none => exact .nil
  | some h =>
    have hheaders := entries_alike ofHeader_below ofHeader_alike h.headers (tokens ++ ["headers"])
    simp only [List.append_assoc, List.singleton_append] at hheaders
    simp only [ofResponse, Reference.join_join]
    exact (KeyedRel.cons (.response h) hheaders).append (ofContent_alike h.content _)

theorem ofParameters_alike {l l' : Option (List (Option Parameter))}
    (h : ListRel (Parameter.Alike sorted) l l') (tokens : List String) :
    Alike sorted (ofParameters (Reference.join "#" tokens) l)
      (ofParameters (Reference.join "#" tokens) l') := by
  simp only [ofParameters, Reference.join_join]
  refine KeyedRel.flatMap (forall₂_zipIdx h.members 0) ?_
  rintro ⟨p, i⟩ ⟨p', j⟩ ⟨hp, rfl⟩
  exact ofParameter_alike hp _

theorem ofOperation_alike {o o' : Operation} (h : o.Alike sorted o') (tokens : List String) :
    Alike sorted (ofOperation (Reference.join "#" tokens) o)
      (ofOperation (Reference.join "#" tokens) o') := by
  have hresponses :=
    entries_alike ofResponse_below ofResponse_alike h.responses (tokens ++ ["responses"])
  simp only [List.append_assoc, List.singleton_append] at hresponses
  simp only [ofOperation, Reference.join_join]
  exact ((KeyedRel.cons (.operation h) (ofParameters_alike h.parameters tokens)).append
    (ofRequestBody_alike h.requestBody _)).append hresponses

theorem ofPathItem_alike {item item' : Option PathItem}
    (h : Option.Rel (PathItem.Alike sorted) item item') (tokens : List String) :
    Alike sorted (ofPathItem (Reference.join "#" tokens) item)
      (ofPathItem (Reference.join "#" tokens) item') := by
  cases h with
  | none => exact .nil
  | some h =>
    simp only [ofPathItem, Reference.join_join]
    refine (KeyedRel.cons (.pathItem h) (ofParameters_alike h.parameters tokens)).append ?_
    refine KeyedRel.flatMap h.inOrder ?_
    rintro ⟨method, o⟩ ⟨method', o'⟩ ⟨rfl, ho⟩
    exact ofOperation_alike ho _

theorem ofComponents_alike {c c' : Components} (h : c.Alike sorted c') :
    Alike sorted (ofComponents c) (ofComponents c') :=
  (((((entries_alike ofSchema?_below ofSchema?_alike h.schemas _).append
    (entries_alike ofResponse_below ofResponse_alike h.responses _)).append
    (entries_alike ofParameter_below ofParameter_alike h.parameters _)).append
    (entries_alike ofRequestBody_below ofRequestBody_alike h.requestBodies _)).append
    (entries_alike ofHeader_below ofHeader_alike h.headers _)).append
    (entries_alike ofPathItem_below ofPathItem_alike h.pathItems _)

/-- Documents that are alike have, under every pointer, objects that are alike. -/
theorem ofDocument_alike {doc doc' : Document} (h : doc.Alike sorted doc') :
    Alike sorted (ofDocument doc) (ofDocument doc') := by
  have hcomponents {c c' : Option Components} (hc : Option.Rel (Components.Alike sorted) c c') :
      Alike sorted (c.elim [] ofComponents) (c'.elim [] ofComponents) := by
    cases hc with
    | none => exact .nil
    | some hc => exact ofComponents_alike hc
  exact (((hcomponents h.components).append
    (entries_alike ofPathItem_below ofPathItem_alike h.paths _)).append
    (entries_alike ofPathItem_below ofPathItem_alike h.webhooks _)).append
    (entries_alike ofSchema?_below ofSchema?_alike h.defs _)

end Index

/-! References in such documents lead to the same places. -/

theorem at?_rel {R : Object → Object → Prop} {r r' : Resolver} (h : KeyedRel R r.index r'.index)
    (place : String) : Option.Rel R (r.at? place) (r'.at? place) := by
  unfold Resolver.at?
  rw [lookup_eq_head?, lookup_eq_head?, valuesAt_reverse, valuesAt_reverse]
  have hvalues := List.rel_reverse (h place)
  generalize (valuesAt place r.index).reverse = l, (valuesAt place r'.index).reverse = l' at hvalues
  cases hvalues with
  | nil => exact .none
  | cons hab _ => exact .some hab

namespace Source

variable {w w' : Source} {sorted : Bool}

/-- The sources have alike objects under every pointer, and the same way to other documents. -/
structure Alike (sorted : Bool) (w w' : Source) : Prop where
  index : Index.Alike sorted w.resolver.index w'.resolver.index
  external : w.external = w'.external

theorem valuesAt_schemas (w : Source) (place : String) :
    valuesAt place w.schemas =
      (valuesAt place w.resolver.index).filterMap Referable.ofObject? := by
  rw [← valuesAt_filterMap, schemas, Resolver.schemas, Index.schemas]
  congr 2
  funext entry
  obtain ⟨place, o⟩ := entry
  cases o <;> rfl

/-- Under every pointer, the sources have schemas that are alike. -/
theorem schemas_alike (h : w.Alike sorted w') :
    KeyedRel (Schema.Alike sorted) w.schemas w'.schemas := by
  intro place
  rw [valuesAt_schemas, valuesAt_schemas]
  refine List.rel_filterMap (fun o o' ho => ?_) (h.index place)
  cases ho with
  | schema hst => exact .some hst
  | _ => exact .none

theorem schemaAt?_alike (h : w.Alike sorted w') (key : String) :
    Option.Rel (Schema.Alike sorted) (w.schemaAt? key) (w'.schemaAt? key) := by
  have hobject : Option.Rel (Object.Alike sorted)
      (if Reference.isExternal key then w.served? key
        else w.resolver.at? (Reference.canonical key))
      (if Reference.isExternal key then w'.served? key
        else w'.resolver.at? (Reference.canonical key)) := by
    split
    · rw [served?, served?, h.external]
      exact optionRel_refl Object.Alike.refl _
    · exact at?_rel h.index _
  unfold schemaAt?
  generalize (if Reference.isExternal key then w.served? key
      else w.resolver.at? (Reference.canonical key)) = o,
    (if Reference.isExternal key then w'.served? key
      else w'.resolver.at? (Reference.canonical key)) = o' at hobject
  cases hobject with
  | none => exact .none
  | some ho =>
    cases ho with
    | schema hs => exact .some hs
    | _ => exact .none

theorem next?_alike (h : w.Alike sorted w') (key : String) : w.next? key = w'.next? key := by
  have hschema := schemaAt?_alike h key
  unfold next?
  generalize w.schemaAt? key = s, w'.schemaAt? key = t at hschema
  cases hschema with
  | none => rfl
  | @some a b hst =>
    have href := hst.congr Schema.ref fun _ => rfl
    have hisRef := hst.congr Schema.isRef fun _ => rfl
    simp only [Option.filter_some, hisRef]
    cases b.isRef with
    | false => rfl
    | true => exact congrArg (fun ref => some (Reference.canonical ref)) href

theorem chainEnd_alike (h : w.Alike sorted w') (steps : Nat) (visited : List String)
    (key : String) : w.chainEnd steps visited key = w'.chainEnd steps visited key := by
  induction steps generalizing visited key with
  | zero => rfl
  | succ steps ih =>
    rw [chainEnd, chainEnd, next?_alike h]
    have hrest : w.chainEnd steps (key :: visited) = w'.chainEnd steps (key :: visited) :=
      funext fun next => ih _ next
    rw [hrest]

theorem chainBound_alike (h : w.Alike sorted w') :
    w.resolver.chainBound = w'.resolver.chainBound := by
  have hexternal : w.resolver.external = w'.resolver.external := h.external
  rw [Resolver.chainBound, Resolver.chainBound, h.index.length_eq, hexternal]

theorem targetOf_alike (h : w.Alike sorted w') (ref : String) :
    w.targetOf ref = w'.targetOf ref := by
  rw [targetOf_eq, targetOf_eq, chainBound_alike h, chainEnd_alike h]

end Source

end ApiTypes
