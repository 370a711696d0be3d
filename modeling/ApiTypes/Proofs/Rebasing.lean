import ApiTypes.Proofs.FixedLocations
import ApiTypes.Proofs.Places
import ApiTypes.Proofs.SchemaSize
import Mathlib.Data.List.Forall2

/-!
References in what is read from another file. A reference into the file itself is to get the name of
the file, because the object that holds it is looked at from outside.

This is done for schemas: for a schema that is read, and for all those inside a parameter, a header
or a request body. It is not done for references that other objects hold, nor for any below a path
item, nor below the content of a header of a response. There a reference into the file stays as it
is, and outside the file it means something else.
-/

namespace ApiTypes

namespace Reference

/-- A reference into the document that it stands in. -/
def IsLocal (ref : String) : Prop := ref ≠ "" ∧ (split ref).1 = ""

instance : DecidablePred IsLocal := fun _ => inferInstanceAs (Decidable (_ ∧ _))

/-- What starts with the name of a document is not local. -/
theorem not_isLocal_append {file : String} (hfile : '#' ∉ file.toList) (hne : file ≠ "")
    (rest : String) : ¬ IsLocal (file ++ rest) := by
  rintro ⟨-, hsplit⟩
  obtain ⟨c, cs, hcs⟩ := List.exists_cons_of_ne_nil (l := file.toList) (by simpa using hne)
  have hc : c ≠ '#' := by
    rintro rfl
    exact hfile (hcs ▸ List.mem_cons_self)
  unfold split at hsplit
  rw [String.toList_append, hcs, List.cons_append, Text.cutChars, if_neg hc] at hsplit
  split at hsplit
  · rename_i before after hcut
    obtain ⟨⟨b, a⟩, -, heq⟩ := Option.map_eq_some_iff.mp hcut
    cases heq
    have hchars := congrArg String.toList hsplit
    simp at hchars
  · simp [hne] at hsplit

end Reference

open Reference (IsLocal)

theorem rebaseRef_of_isLocal (location : String) {ref : String} (h : IsLocal ref) :
    rebaseRef location ref = location ++ "#" ++ (Reference.split ref).2 := by
  unfold rebaseRef
  rw [if_neg h.1]
  dsimp only
  rw [if_pos h.2]

/-- No reference is local once it is rebased to a file. -/
theorem not_isLocal_rebaseRef {location : String} (hne : location ≠ "")
    (hhash : '#' ∉ location.toList) (ref : String) : ¬ IsLocal (rebaseRef location ref) := by
  unfold rebaseRef
  split
  · exact fun h => h.1 rfl
  · dsimp only
    split
    · rw [String.append_assoc]
      exact Reference.not_isLocal_append hhash hne _
    · rename_i hfile
      split
      · exact fun h => hfile h.2
      · obtain ⟨hfree, hnonempty⟩ := Location.hash_not_mem_relativeTo hhash
          (Reference.hash_not_mem_split ref)
        exact Reference.not_isLocal_append hfree hnonempty _

/-! Objects that stand at the same places. -/

/-- What stands inside two objects stands at the same places, and `Q` holds of what stands at each
place. -/
structure Corresponds (Q : List String → Object → Object → Prop) (d o : Object) : Prop where
  forth : ∀ way m, d.Leads way m → ∃ n, o.Leads way n ∧ Q way m n
  back : ∀ way n, o.Leads way n → ∃ m, d.Leads way m ∧ Q way m n

/-- The same ways, and on each way related objects. -/
def Beside (R : List String → Object → Object → Prop) :
    List (List String × Object) → List (List String × Object) → Prop :=
  List.Forall₂ fun a b => a.1 = b.1 ∧ R a.1 a.2 b.2

theorem Beside.exists_right {R : List String → Object → Object → Prop}
    {list list' : List (List String × Object)} (h : Beside R list list') {way : List String}
    {m : Object} (hmem : (way, m) ∈ list) : ∃ n, (way, n) ∈ list' ∧ R way m n := by
  induction h with
  | nil => cases hmem
  | @cons a b _ _ hab _ ih =>
    rcases List.mem_cons.mp hmem with rfl | hrest
    · obtain ⟨way', n⟩ := b
      obtain ⟨rfl, hR⟩ := hab
      exact ⟨n, List.mem_cons_self, hR⟩
    · obtain ⟨n, hn, hR⟩ := ih hrest
      exact ⟨n, List.mem_cons_of_mem _ hn, hR⟩

theorem Beside.exists_left {R : List String → Object → Object → Prop}
    {list list' : List (List String × Object)} (h : Beside R list list') {way : List String}
    {n : Object} (hmem : (way, n) ∈ list') : ∃ m, (way, m) ∈ list ∧ R way m n := by
  induction h with
  | nil => cases hmem
  | @cons a b _ _ hab _ ih =>
    rcases List.mem_cons.mp hmem with rfl | hrest
    · obtain ⟨way', m⟩ := a
      obtain ⟨rfl, hR⟩ := hab
      exact ⟨m, List.mem_cons_self, hR⟩
    · obtain ⟨m, hm, hR⟩ := ih hrest
      exact ⟨m, List.mem_cons_of_mem _ hm, hR⟩

theorem Beside.append {R : List String → Object → Object → Prop}
    {list list' others others' : List (List String × Object)} (h : Beside R list list')
    (h' : Beside R others others') : Beside R (list ++ others) (list' ++ others') :=
  List.rel_append h h'

/-- Values that are changed one by one stay beside what they were. -/
theorem Beside.present {α : Type} {R : List String → Object → Object → Prop} {wrap : α → Object}
    {f : α → α} {list : List (List String × Option α)}
    (h : ∀ way x, (way, some x) ∈ list → R way (wrap x) (wrap (f x))) :
    Beside R (present wrap list)
      (present wrap (list.map fun entry => (entry.1, entry.2.map f))) := by
  induction list with
  | nil => exact .nil
  | cons entry rest ih =>
    obtain ⟨way, x⟩ := entry
    have hrest := ih fun way x hx => h way x (List.mem_cons_of_mem _ hx)
    cases x with
    | none => exact hrest
    | some x => exact .cons ⟨rfl, h way x List.mem_cons_self⟩ hrest

namespace Corresponds

variable {Q Q' : List String → Object → Object → Prop} {d o : Object}

/-- Objects correspond if they are related and what is on each way out of them corresponds. -/
theorem of_branches (hhere : Q [] d o) (h : Beside (fun way m n =>
    Corresponds (fun rest => Q (way ++ rest)) m n) d.branches o.branches) : Corresponds Q d o where
  forth way m hleads := by
    cases hleads with
    | here => exact ⟨o, .here o, hhere⟩
    | down hnext hrest =>
      obtain ⟨next', hnext', hcorresponds⟩ := h.exists_right hnext
      obtain ⟨n, hn, hQ⟩ := hcorresponds.forth _ _ hrest
      exact ⟨n, .down hnext' hn, hQ⟩
  back way n hleads := by
    cases hleads with
    | here => exact ⟨d, .here d, hhere⟩
    | down hnext hrest =>
      obtain ⟨next', hnext', hcorresponds⟩ := h.exists_left hnext
      obtain ⟨m, hm, hQ⟩ := hcorresponds.back _ _ hrest
      exact ⟨m, .down hnext' hm, hQ⟩

theorem refl (h : ∀ way m, Q way m m) : Corresponds Q d d where
  forth way m hleads := ⟨m, hleads, h way m⟩
  back way n hleads := ⟨n, hleads, h way n⟩

theorem mono (h : Corresponds Q d o) (hQ : ∀ way m n, Q way m n → Q' way m n) :
    Corresponds Q' d o where
  forth way m hleads :=
    have ⟨n, hn, hmn⟩ := h.forth way m hleads
    ⟨n, hn, hQ way m n hmn⟩
  back way n hleads :=
    have ⟨m, hm, hmn⟩ := h.back way n hleads
    ⟨m, hm, hQ way m n hmn⟩

end Corresponds

/-! What is rebased. -/

namespace Schema

theorem keyed_map (keyword : String) (f : Schema → Schema)
    (m : Option (OrderedMap (Option Schema))) :
    keyed keyword (m.map (·.map fun _ s => s.map f)) =
      (keyed keyword m).map fun entry => (entry.1, entry.2.map f) := by
  cases m with
  | none => rfl
  | some m => simp [keyed, entriesOf]

theorem numbered_mapList (keyword : String) (f : Schema → Schema)
    (list : Option (List (Option Schema))) :
    numbered keyword (mapList f list) =
      (numbered keyword list).map fun entry => (entry.1, entry.2.map f) := by
  cases list with
  | none => rfl
  | some list => simp [numbered, mapList, List.zipIdx_map]

theorem itemChildren_map (f : Schema → Schema) (items : Option (Items Schema)) :
    itemChildren (items.map fun items =>
      match items with
      | .single t => .single (f t)
      | .tuple list => .tuple (list.map (·.map f))) =
      (itemChildren items).map fun entry => (entry.1, entry.2.map f) := by
  match items with
  | none => rfl
  | some (.single t) => rfl
  | some (.tuple list) => exact numbered_mapList "items" f (some list)

/-- The schemas below a rebased schema are those that were below it, rebased. -/
theorem children_rebaseWithin (location : String) (steps : Nat) (s : Schema) :
    (s.rebaseWithin location (steps + 1)).children =
      s.children.map fun entry => (entry.1, entry.2.map (rebaseWithin location steps)) := by
  unfold rebaseWithin children
  cases hbool : s.isBool with
  | true =>
    have hafter : ({ s with ref := rebaseRef location s.ref } : Schema).isBool = true := hbool
    simp [hafter]
  | false =>
    have hafter : ({ s with ref := rebaseRef location s.ref } : Schema).isBool = false := hbool
    have hfurther (t : Option Schema) (f : Schema → Schema) :
        (t.map f).toList.map (fun t => (["additionalProperties"], some t)) =
          (t.toList.map fun t => (["additionalProperties"], some t)).map fun entry =>
            (entry.1, entry.2.map f) := by
      cases t <;> rfl
    simp only [hafter, Bool.false_eq_true, if_false, List.map_append, ← keyed_map,
      ← numbered_mapList, ← itemChildren_map, ← hfurther]
    exact if_neg (by simpa [isBool] using hbool)

theorem ref_rebaseWithin (location : String) {steps : Nat} (h : 0 < steps) (s : Schema) :
    (s.rebaseWithin location steps).ref = rebaseRef location s.ref := by
  obtain ⟨steps, rfl⟩ : ∃ rest, steps = rest + 1 := ⟨steps - 1, by omega⟩
  unfold rebaseWithin
  dsimp only
  split <;> rfl

end Schema

namespace Object

def isSchema : Object → Bool
  | .schema _ => true
  | _ => false

/-- Whether the reference of an object that stands at the end of a way down from what is read is
left as it is. -/
def misses : Object → List String → Object → Bool
  | .pathItem _, _, _ | .operation _, _, _ | .mediaType _, _, _ => true
  | .response _, "headers" :: _ :: "content" :: _, _ => true
  | _, _, m => !m.isSchema

/-- What becomes of the reference of an object in a file. -/
structure Rebased (location : String) (missed : Bool) (before after : String) : Prop where
  /-- What is missed stays. -/
  kept : missed = true → after = before
  /-- A reference into the file names it. -/
  named : missed = false → IsLocal before → after = location ++ "#" ++ (Reference.split before).2
  /-- No other reference leads into the document that is looked from. -/
  foreign : missed = false → ¬ IsLocal after

/-- The reference is rebased if a schema holds it. -/
def RebasedSchemas (location : String) (m n : Object) : Prop :=
  n.ref = if m.isSchema then rebaseRef location m.ref else m.ref

variable {location : String}

theorem corresponds_schema (s : Schema) {steps : Nat} (h : s.walk.length ≤ steps) :
    Corresponds (fun _ => RebasedSchemas location) (.schema s)
      (.schema (s.rebaseWithin location steps)) := by
  have hpos : 0 < steps := Nat.lt_of_lt_of_le s.walk_length_pos h
  refine .of_branches (Schema.ref_rebaseWithin location hpos s) ?_
  obtain ⟨steps, rfl⟩ : ∃ rest, steps = rest + 1 := ⟨steps - 1, by omega⟩
  rw [branches, branches, Schema.children_rebaseWithin]
  refine Beside.present fun way child hchild => corresponds_schema child ?_
  exact Nat.le_of_lt_succ (Nat.lt_of_lt_of_le (Schema.walk_length_child hchild) h)
termination_by s
decreasing_by exact Schema.sizeOf_lt_of_mem_children hchild

theorem corresponds_rebase (s : Schema) : Corresponds (fun _ => RebasedSchemas location)
    (.schema s) (.schema (s.rebase location)) :=
  corresponds_schema s (Nat.le_refl _)

section Ways

variable {Q : List String → Object → Object → Prop}

/-- A schema that may be absent is rebased. -/
theorem beside_schema
    (hQ : ∀ rest m n, RebasedSchemas location m n → Q (["schema"] ++ rest) m n)
    (s : Option Schema) : Beside (fun way => Corresponds fun rest => Q (way ++ rest))
      (present .schema [(["schema"], s)])
      (present .schema [(["schema"], s.map (Schema.rebase location))]) := by
  have hrebased : ∀ way x, (way, some x) ∈ [(["schema"], s)] →
      Corresponds (fun rest => Q (way ++ rest)) (.schema x) (.schema (x.rebase location)) := by
    intro way x hmem
    cases List.mem_singleton.mp hmem
    exact (corresponds_rebase x).mono hQ
  exact Beside.present hrebased

theorem named_map {α : Type} (keyword : String) (f : α → α) (m : Option (OrderedMap (Option α))) :
    named keyword (m.map (·.map fun _ x => x.map f)) =
      (named keyword m).map fun entry => (entry.1, entry.2.map f) := by
  cases m with
  | none => rfl
  | some m => simp [named, entriesOf]

theorem beside_content
    (hQ : ∀ name rest m n, RebasedSchemas location m n → Q (["content", name] ++ rest) m n)
    (content : Content) : Beside (fun way => Corresponds fun rest => Q (way ++ rest))
      (present .mediaType (named "content" content))
      (present .mediaType (named "content" (rebaseContent location content))) := by
  rw [rebaseContent, named_map]
  refine Beside.present fun way m hmem => ?_
  obtain ⟨⟨name, _⟩, -, heq⟩ := List.mem_map.mp hmem
  cases heq
  exact .of_branches (hQ name [] _ _ rfl)
    (beside_schema (Q := fun way => Q (["content", name] ++ way))
      (fun rest m n h => hQ name (["schema"] ++ rest) m n h) m.schema)

end Ways

/-- What becomes of the reference of an object that stands at the end of a way. -/
def AsMissed (location : String) (d : Object) (way : List String) (m n : Object) : Prop :=
  n.ref = if d.misses way m then m.ref else rebaseRef location m.ref

theorem asMissed_of_rebased {d : Object} {way : List String} {m n : Object}
    (hmisses : d.misses way m = !m.isSchema) (h : RebasedSchemas location m n) :
    AsMissed location d way m n := by
  rw [AsMissed, hmisses, h]
  cases m.isSchema <;> rfl

/-- In the headers of a response only the schemas are rebased that a header has itself. -/
theorem beside_headers (r : Response) : Beside (fun way => Corresponds fun rest =>
      AsMissed location (.response r) (way ++ rest))
      (present .header (named "headers" r.headers))
      (present .header (named "headers" (r.headers.map (·.map fun _ h =>
        h.map fun h => { h with schema := h.schema.map (Schema.rebase location) })))) := by
  rw [named_map]
  refine Beside.present fun way h hmem => ?_
  obtain ⟨⟨name, _⟩, -, heq⟩ := List.mem_map.mp hmem
  cases heq
  have hcontent : Beside (fun way => Corresponds fun rest =>
      AsMissed location (.response r) (["headers", name] ++ (way ++ rest)))
      (present .mediaType (named "content" h.content))
      (present .mediaType (named "content" h.content)) := by
    refine List.forall₂_same.mpr fun entry hentry => ⟨rfl, .refl fun rest m => ?_⟩
    obtain ⟨⟨way, m'⟩, hnamed, hpresent⟩ := List.mem_flatMap.mp hentry
    obtain ⟨m'', -, rfl⟩ := List.mem_map.mp hpresent
    obtain ⟨⟨mediaType, _⟩, -, heq⟩ := List.mem_map.mp hnamed
    cases heq
    rfl
  have hschema := beside_schema
    (Q := fun way => AsMissed location (.response r) (["headers", name] ++ way))
    (fun _ _ _ hrebased => asMissed_of_rebased rfl hrebased) h.schema
  exact .of_branches rfl (hschema.append hcontent)

/-- What is read from a file corresponds to what stands there. -/
theorem corresponds_object (location : String) (d : Object) :
    Corresponds (AsMissed location d) d (d.rebase location) := by
  cases d with
  | schema s => exact (corresponds_rebase s).mono fun _ _ _ h => asMissed_of_rebased rfl h
  | parameter p =>
    exact .of_branches rfl (.append
      (beside_schema (fun _ _ _ h => asMissed_of_rebased rfl h) p.schema)
      (beside_content (fun _ _ _ _ h => asMissed_of_rebased rfl h) p.content))
  | header h =>
    exact .of_branches rfl (.append
      (beside_schema (fun _ _ _ h => asMissed_of_rebased rfl h) h.schema)
      (beside_content (fun _ _ _ _ h => asMissed_of_rebased rfl h) h.content))
  | requestBody b =>
    exact .of_branches rfl (beside_content (fun _ _ _ _ h => asMissed_of_rebased rfl h) b.content)
  | response r =>
    exact .of_branches rfl ((beside_headers r).append
      (beside_content (fun _ _ _ _ h => asMissed_of_rebased rfl h) r.content))
  | mediaType _ | pathItem _ | operation _ => exact .refl fun _ _ => rfl

end Object

namespace FileResolver

/-- The object that stands in the file that a reference names, as it is there. -/
def Reads (r : FileResolver) (ref : String) (kind : Kind) (d : Object) : Prop :=
  ∃ tree node, r.load (r.locate (Reference.split ref).1) = .ok tree ∧
    lookupFragment ref tree (Reference.split ref).2 = .ok node ∧ decodeObject kind tree node = .ok d

theorem reads_of_resolve {r : FileResolver} {ref : String} {kind : Kind} {o : Object}
    (h : r.resolve ref kind = .ok o) : ∃ d, r.Reads ref kind d ∧
      o = d.rebase (r.locate (Reference.split ref).1) := by
  unfold resolve at h
  dsimp only at h
  split at h
  · cases h
  · cases hload : r.load (r.locate (Reference.split ref).1) with
    | error e => simp [hload, bind, Except.bind] at h
    | ok tree =>
      cases hnode : lookupFragment ref tree (Reference.split ref).2 with
      | error e => simp [hload, hnode, bind, Except.bind] at h
      | ok node =>
        cases hobject : decodeObject kind tree node with
        | error e => simp [hload, hnode, hobject, bind, Except.bind, Except.mapError] at h
        | ok d =>
          simp [hload, hnode, hobject, bind, Except.bind, Except.mapError, pure, Except.pure] at h
          exact ⟨d, ⟨tree, node, hload, hnode, hobject⟩, h.symm⟩

/-- What can be loaded has a location. -/
theorem ne_empty_of_load {r : FileResolver} {location : String} {tree : Yaml.Tree}
    (h : r.load location = .ok tree) : location ≠ "" := by
  rintro rfl
  cases h

open Object (Rebased)

/-- Of the references in an object that is read from another file, those that schemas hold are
rebased, except below a path item and below the content of the headers of a response. All others
stay as they are. -/
theorem resolve_rebased {r : FileResolver} {ref : String} {kind : Kind} {o : Object}
    (hlocation : '#' ∉ (r.locate (Reference.split ref).1).toList)
    (h : r.resolve ref kind = .ok o) :
    ∃ d, r.Reads ref kind d ∧ Corresponds (fun way m n =>
      Rebased (r.locate (Reference.split ref).1) (d.misses way m) m.ref n.ref) d o := by
  obtain ⟨d, hreads, rfl⟩ := reads_of_resolve h
  obtain ⟨tree, -, hload, -⟩ := id hreads
  refine ⟨d, hreads, (Object.corresponds_object _ d).mono fun way m n hmn => ?_⟩
  rw [Object.AsMissed] at hmn
  constructor
  · intro hmissed
    rwa [if_pos hmissed] at hmn
  · intro hmissed hlocal
    rw [if_neg (by simp [hmissed])] at hmn
    rw [hmn, rebaseRef_of_isLocal _ hlocal]
  · intro hmissed
    rw [if_neg (by simp [hmissed])] at hmn
    rw [hmn]
    exact not_isLocal_rebaseRef (ne_empty_of_load hload) hlocation m.ref

/-- A file with a parameter that is another name for a second one. -/
def sharedFiles : FileResolver where
  fs := .ofFiles "/work" [("common.yaml", "Alias: \x7b$ref: '#/Page'\x7d\n" ++
    "Page: \x7bin: query, schema: \x7b$ref: '#/Size'\x7d\x7d\nSize: \x7btype: integer\x7d\n")]
  base := "openapi.yaml"

theorem resolve_rebased_page :
    ∃ o, sharedFiles.resolve "common.yaml#/Page" .parameter = .ok o ∧
      '#' ∉ (sharedFiles.locate (Reference.split "common.yaml#/Page").1).toList ∧
      ∃ d, sharedFiles.Reads "common.yaml#/Page" .parameter d ∧ Corresponds (fun way m n =>
        Rebased (sharedFiles.locate (Reference.split "common.yaml#/Page").1) (d.misses way m)
          m.ref n.ref) d o := by
  have hok : (sharedFiles.resolve "common.yaml#/Page" .parameter).isOk := by decide +kernel
  have hlocation : '#' ∉ (sharedFiles.locate (Reference.split "common.yaml#/Page").1).toList := by
    decide +kernel
  cases hresolve : sharedFiles.resolve "common.yaml#/Page" .parameter with
  | error e =>
    rw [hresolve] at hok
    cases hok
  | ok o => exact ⟨o, rfl, hlocation, resolve_rebased hlocation hresolve⟩

/-- The reference of a parameter stays local: outside the file it leads elsewhere. -/
theorem parameter_ref_stays_local :
    ∃ o, sharedFiles.resolve "common.yaml#/Alias" .parameter = .ok o ∧
      ∃ way n, o.Leads way n ∧ n.ref = "#/Page" ∧ IsLocal n.ref := by
  have hok : (sharedFiles.resolve "common.yaml#/Alias" .parameter).toOption.map Object.ref =
      some "#/Page" := by decide +kernel
  cases hresolve : sharedFiles.resolve "common.yaml#/Alias" .parameter with
  | error e =>
    rw [hresolve] at hok
    cases hok
  | ok o =>
    rw [hresolve] at hok
    have href : o.ref = "#/Page" := Option.some.inj hok
    exact ⟨o, rfl, [], o, .here o, href, href ▸ by decide⟩

end FileResolver

end ApiTypes
