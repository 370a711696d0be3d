import ApiTypes.Proofs.Reach
import Mathlib.Data.List.Flatten

/-!
The number of schemas in a schema. It grows from a schema to one that holds it, and no schema in the
index of a document holds more schemas than the index has entries. Both facts bound how deep a walk
along schemas can go.
-/

namespace ApiTypes.Schema

theorem walk_eq (s : Schema) :
    s.walk = s :: s.children.flatMap fun (_, child) => child.elim [] walk := by
  rw [walk]
  congr 1
  refine (List.flatMap_subtype (l := s.children.attach) (g := fun entry => entry.2.elim [] walk)
    ?_).trans (by rw [List.unattach_attach])
  rintro ⟨path, child⟩ hmem
  cases child <;> rfl

theorem walk_length_pos (s : Schema) : 0 < s.walk.length := by
  rw [walk_eq]
  exact Nat.succ_pos _

theorem length_le_flatMap {α β : Type} {f : α → List β} {list : List α} {x : α} (h : x ∈ list) :
    (f x).length ≤ (list.flatMap f).length := by
  induction list with
  | nil => cases h
  | cons y rest ih =>
    rw [List.flatMap_cons, List.length_append]
    rcases List.mem_cons.mp h with rfl | hrest
    · exact Nat.le_add_right _ _
    · exact Nat.le_trans (ih hrest) (Nat.le_add_left _ _)

/-- A schema holds more schemas than each schema directly below it. -/
theorem walk_length_child {s child : Schema} {path : List String}
    (h : (path, some child) ∈ s.children) : child.walk.length < s.walk.length := by
  rw [walk_eq s, List.length_cons]
  have hle := length_le_flatMap
    (f := fun (entry : List String × Option Schema) => entry.2.elim [] walk) h
  exact Nat.lt_succ_of_le hle

/-- A schema whose children are among those of another holds no more schemas. -/
theorem walk_length_sublist {s t : Schema} (h : s.children.Sublist t.children) :
    s.walk.length ≤ t.walk.length := by
  rw [walk_eq s, walk_eq t, List.length_cons, List.length_cons]
  exact Nat.succ_le_succ (h.flatMap _).length_le

end ApiTypes.Schema

namespace ApiTypes.Index

theorem length_ofSchema (place : String) (s : Schema) :
    (ofSchema place s).length = s.walk.length := by
  rw [ofSchema_eq, Schema.walk_eq, List.length_cons, List.length_cons, List.length_flatMap,
    List.length_flatMap]
  congr 2
  apply List.map_congr_left
  rintro ⟨path, child⟩ hchild
  cases child with
  | none => rfl
  | some child => exact length_ofSchema (Reference.join place path) child
termination_by s
decreasing_by exact Schema.sizeOf_lt_of_mem_children hchild

theorem walk_length_of_mem_ofSchema (s : Schema) (place : String) :
    ∀ entry ∈ ofSchema place s, entry.2.walk.length ≤ s.walk.length := by
  intro entry hentry
  rw [ofSchema_eq] at hentry
  rcases List.mem_cons.mp hentry with rfl | hbelow
  · exact Nat.le_refl _
  · obtain ⟨⟨path, child⟩, hchild, hmem⟩ := List.mem_flatMap.mp hbelow
    cases child with
    | none => cases hmem
    | some child =>
      have hle := walk_length_of_mem_ofSchema child (Reference.join place path) entry hmem
      exact Nat.le_trans hle (Nat.le_of_lt (Schema.walk_length_child hchild))
termination_by s
decreasing_by exact Schema.sizeOf_lt_of_mem_children hchild

/-- No schema of the index holds more schemas than the index has entries. -/
def Roomy (index : Index) : Prop :=
  ∀ key s, (key, Object.schema s) ∈ index → s.walk.length ≤ index.length

theorem Roomy.nil : Roomy [] := by
  intro key s h
  cases h

theorem Roomy.cons {key : String} {o : Object} {index : Index} (ho : ∀ s, o ≠ .schema s)
    (h : Roomy index) : Roomy ((key, o) :: index) := by
  intro key' s hmem
  rcases List.mem_cons.mp hmem with heq | hrest
  · exact absurd (Prod.mk.inj heq).2.symm (ho s)
  · exact Nat.le_succ_of_le (h key' s hrest)

theorem Roomy.append {left right : Index} (hleft : Roomy left) (hright : Roomy right) :
    Roomy (left ++ right) := by
  intro key s hmem
  rw [List.length_append]
  rcases List.mem_append.mp hmem with h | h
  · exact Nat.le_trans (hleft key s h) (Nat.le_add_right _ _)
  · exact Nat.le_trans (hright key s h) (Nat.le_add_left _ _)

theorem Roomy.flatMap {α : Type} {l : List α} {f : α → Index} (h : ∀ x, Roomy (f x)) :
    Roomy (l.flatMap f) := by
  intro key s hmem
  obtain ⟨x, hx, hin⟩ := List.mem_flatMap.mp hmem
  exact Nat.le_trans (h x key s hin) (Schema.length_le_flatMap hx)

theorem roomy_ofSchema? (place : String) (s : Option Schema) : Roomy (ofSchema? place s) := by
  cases s with
  | none => exact Roomy.nil
  | some s =>
    intro key t hmem
    obtain ⟨⟨key', t'⟩, hin, heq⟩ := List.mem_map.mp hmem
    cases heq
    simp only [ofSchema?, Option.elim_some, List.length_map, length_ofSchema]
    exact walk_length_of_mem_ofSchema s place (key, t) hin

theorem roomy_ofContent (place : String) (content : Content) : Roomy (ofContent place content) := by
  apply Roomy.flatMap
  rintro ⟨name, m⟩
  cases m with
  | none => exact Roomy.nil
  | some m => exact Roomy.cons (by simp) (roomy_ofSchema? _ _)

theorem roomy_ofParameter (place : String) (p : Option Parameter) :
    Roomy (ofParameter place p) := by
  cases p with
  | none => exact Roomy.nil
  | some p => exact (Roomy.cons (by simp) (roomy_ofSchema? _ _)).append (roomy_ofContent _ _)

theorem roomy_ofHeader (place : String) (h : Option Header) : Roomy (ofHeader place h) := by
  cases h with
  | none => exact Roomy.nil
  | some h => exact (Roomy.cons (by simp) (roomy_ofSchema? _ _)).append (roomy_ofContent _ _)

theorem roomy_ofRequestBody (place : String) (b : Option RequestBody) :
    Roomy (ofRequestBody place b) := by
  cases b with
  | none => exact Roomy.nil
  | some b => exact Roomy.cons (by simp) (roomy_ofContent _ _)

theorem roomy_ofResponse (place : String) (r : Option Response) : Roomy (ofResponse place r) := by
  cases r with
  | none => exact Roomy.nil
  | some r =>
    have hheaders := Roomy.flatMap (l := entriesOf r.headers)
      (f := fun entry => ofHeader (Reference.join place ["headers", entry.1]) entry.2)
      fun _ => roomy_ofHeader _ _
    exact (Roomy.cons (by simp) hheaders).append (roomy_ofContent _ _)

theorem roomy_ofParameters (place : String) (parameters : Option (List (Option Parameter))) :
    Roomy (ofParameters place parameters) :=
  Roomy.flatMap fun (_, _) => roomy_ofParameter _ _

theorem roomy_ofOperation (place : String) (o : Operation) : Roomy (ofOperation place o) := by
  have hresponses := Roomy.flatMap (l := entriesOf o.responses)
    (f := fun entry => ofResponse (Reference.join place ["responses", entry.1]) entry.2)
    fun _ => roomy_ofResponse _ _
  exact ((Roomy.cons (by simp) (roomy_ofParameters _ _)).append
    (roomy_ofRequestBody _ _)).append hresponses

theorem roomy_ofPathItem (place : String) (item : Option PathItem) :
    Roomy (ofPathItem place item) := by
  cases item with
  | none => exact Roomy.nil
  | some item =>
    have hoperations := Roomy.flatMap (l := item.inOrder)
      (f := fun entry => ofOperation (Reference.join place [entry.1.name]) entry.2)
      fun _ => roomy_ofOperation _ _
    exact (Roomy.cons (by simp) (roomy_ofParameters _ _)).append hoperations

theorem roomy_ofEntries {α : Type} {place : List String} {index : String → Option α → Index}
    {m : Option (OrderedMap (Option α))} (h : ∀ place x, Roomy (index place x)) :
    Roomy (ofEntries place index m) :=
  Roomy.flatMap fun (_, _) => h _ _

theorem roomy_ofComponents (c : Components) : Roomy (ofComponents c) :=
  (((((roomy_ofEntries roomy_ofSchema?).append (roomy_ofEntries roomy_ofResponse)).append
    (roomy_ofEntries roomy_ofParameter)).append (roomy_ofEntries roomy_ofRequestBody)).append
    (roomy_ofEntries roomy_ofHeader)).append (roomy_ofEntries roomy_ofPathItem)

theorem roomy_ofDocument (doc : Document) : Roomy (ofDocument doc) := by
  have hcomponents : Roomy (doc.components.elim [] ofComponents) := by
    cases doc.components with
    | none => exact Roomy.nil
    | some c => exact roomy_ofComponents c
  exact ((hcomponents.append (roomy_ofEntries roomy_ofPathItem)).append
    (roomy_ofEntries roomy_ofPathItem)).append (roomy_ofEntries roomy_ofSchema?)

end ApiTypes.Index
