import ApiTypes.Proofs.Rebasing

/-!
Functions on the references of a schema. A schema with other references is the same schema in all
else; what two functions make of it one after the other, one function does at once; and functions
that agree on its references do the same to it. Rebasing a schema is such a function.
-/

namespace ApiTypes.Schema

/-- Applies a function to the schemas of a map. -/
def mapNamed (f : Schema → Schema) (m : Option (OrderedMap (Option Schema))) :
    Option (OrderedMap (Option Schema)) := m.map (·.map fun _ p => p.map f)

/-- Applies a function to the schemas of the items. -/
def mapItems (f : Schema → Schema) (items : Option (Items Schema)) : Option (Items Schema) :=
  items.map fun items =>
    match items with
    | .single t => .single (f t)
    | .tuple list => .tuple (list.map (·.map f))

/-- Applies a function to the schemas directly below a schema. -/
def mapChildren (f : Schema → Schema) (s : Schema) : Schema :=
  if s.isBool then s
  else
    { s with
      properties := mapNamed f s.properties
      additionalProperties := s.additionalProperties.map f
      defs := mapNamed f s.defs
      items := mapItems f s.items
      prefixItems := mapList f s.prefixItems
      allOf := mapList f s.allOf
      oneOf := mapList f s.oneOf
      anyOf := mapList f s.anyOf }

/-- Applies a function to the references of a schema and of all schemas below it, as far as `steps`
levels. -/
def mapRefsWithin (f : String → String) : Nat → Schema → Schema
  | 0, s => s
  | steps + 1, s => { s.mapChildren (mapRefsWithin f steps) with ref := f s.ref }

theorem mapChildren_of_isBool {s : Schema} (h : s.isBool = true) (f : Schema → Schema) :
    s.mapChildren f = s := if_pos h

theorem isBool_mapChildren (f : Schema → Schema) (s : Schema) :
    (s.mapChildren f).isBool = s.isBool := by
  unfold mapChildren
  split <;> rfl

theorem mapChildren_withRef (f : Schema → Schema) (s : Schema) (ref : String) :
    ({ s with ref } : Schema).mapChildren f = { s.mapChildren f with ref } := by
  cases hbool : s.isBool with
  | true =>
    have hafter : ({ s with ref } : Schema).isBool = true := hbool
    rw [mapChildren_of_isBool hafter]
    exact congrArg (fun t : Schema => { t with ref }) (mapChildren_of_isBool hbool f).symm
  | false =>
    have hafter : ({ s with ref } : Schema).isBool = false := hbool
    unfold mapChildren
    rw [hafter, hbool]
    rfl

theorem rebaseWithin_eq (location : String) (steps : Nat) :
    rebaseWithin location steps = mapRefsWithin (rebaseRef location) steps := by
  induction steps with
  | zero => rfl
  | succ steps ih =>
    funext s
    rw [mapRefsWithin, ← mapChildren_withRef, rebaseWithin, ih]
    rfl

theorem mapChildren_mapChildren (f g : Schema → Schema) (s : Schema) :
    (s.mapChildren f).mapChildren g = s.mapChildren (g ∘ f) := by
  have hnamed (m : Option (OrderedMap (Option Schema))) :
      mapNamed g (mapNamed f m) = mapNamed (g ∘ f) m := by
    cases m <;> simp [mapNamed, OrderedMap.map_map]
  have hitems (items : Option (Items Schema)) :
      mapItems g (mapItems f items) = mapItems (g ∘ f) items := by
    rcases items with _ | t | list <;> simp [mapItems]
  have hlist (list : Option (List (Option Schema))) :
      mapList g (mapList f list) = mapList (g ∘ f) list := by
    cases list <;> simp [mapList]
  cases hbool : s.isBool with
  | true =>
    rw [mapChildren_of_isBool hbool, mapChildren_of_isBool hbool, mapChildren_of_isBool hbool]
  | false =>
    have hafter : (s.mapChildren f).isBool = false := by rwa [isBool_mapChildren]
    rw [mapChildren, hafter, mapChildren, hbool, mapChildren, hbool]
    simp only [Bool.false_eq_true, if_false, hnamed, hitems, hlist, Option.map_map]

theorem mapRefsWithin_mapRefsWithin (f g : String → String) (steps : Nat) (s : Schema) :
    (s.mapRefsWithin f steps).mapRefsWithin g steps = s.mapRefsWithin (g ∘ f) steps := by
  induction steps generalizing s with
  | zero => rfl
  | succ steps ih =>
    have hgo : mapRefsWithin g steps ∘ mapRefsWithin f steps = mapRefsWithin (g ∘ f) steps :=
      funext ih
    rw [mapRefsWithin, mapRefsWithin, mapRefsWithin, mapChildren_withRef, mapChildren_mapChildren,
      hgo]
    rfl

section Congruence

variable {f g : Schema → Schema}

theorem mapNamed_congr {keyword : String} {m : Option (OrderedMap (Option Schema))}
    (h : ∀ path child, (path, some child) ∈ keyed keyword m → f child = g child) :
    mapNamed f m = mapNamed g m := by
  cases m with
  | none => rfl
  | some m =>
    refine congrArg some (OrderedMap.map_congr fun name child hentry => ?_)
    cases child with
    | none => rfl
    | some child => exact congrArg some (h _ child (List.mem_map.mpr ⟨_, hentry, rfl⟩))

theorem mapList_congr {keyword : String} {list : Option (List (Option Schema))}
    (h : ∀ path child, (path, some child) ∈ numbered keyword list → f child = g child) :
    mapList f list = mapList g list := by
  cases list with
  | none => rfl
  | some list =>
    refine congrArg some (List.map_congr_left fun child hchild => ?_)
    obtain ⟨i, hi⟩ := List.mem_iff_getElem?.mp hchild
    cases child with
    | none => rfl
    | some child =>
      exact congrArg some (h _ child
        (List.mem_map.mpr ⟨(some child, i), List.mem_zipIdx_iff_getElem?.mpr hi, rfl⟩))

theorem mapItems_congr {items : Option (Items Schema)}
    (h : ∀ path child, (path, some child) ∈ itemChildren items → f child = g child) :
    mapItems f items = mapItems g items := by
  match items with
  | none => rfl
  | some (.single t) => exact congrArg (some <| Items.single ·) (h _ t List.mem_cons_self)
  | some (.tuple list) =>
    have hlist := @mapList_congr f g "items" (some list) h
    exact congrArg (some <| Items.tuple ·) (Option.some.inj hlist)

/-- Functions that agree on the schemas directly below a schema do the same to it. -/
theorem mapChildren_congr {s : Schema}
    (h : ∀ path child, (path, some child) ∈ s.children → f child = g child) :
    s.mapChildren f = s.mapChildren g := by
  cases hbool : s.isBool with
  | true => rw [mapChildren_of_isBool hbool, mapChildren_of_isBool hbool]
  | false =>
    rw [children, hbool, if_neg (by decide)] at h
    simp only [List.mem_append, or_imp, forall_and] at h
    obtain ⟨⟨⟨⟨⟨⟨⟨hproperties, hfurther⟩, hdefs⟩, hitems⟩, hprefix⟩, hall⟩, hone⟩, hany⟩ := h
    have hadditional : s.additionalProperties.map f = s.additionalProperties.map g :=
      Option.map_congr fun t ht => hfurther ["additionalProperties"] t (by simp [ht])
    unfold mapChildren
    rw [hbool, if_neg (by decide), mapNamed_congr hproperties, hadditional, mapNamed_congr hdefs,
      mapItems_congr hitems, mapList_congr hprefix, mapList_congr hall, mapList_congr hone,
      mapList_congr hany]
    rfl

end Congruence

/-- Functions that agree on the references of a schema do the same to it. -/
theorem mapRefsWithin_congr {f g : String → String} {s : Schema} (steps : Nat)
    (h : ∀ t ∈ s.walk, f t.ref = g t.ref) : s.mapRefsWithin f steps = s.mapRefsWithin g steps := by
  induction steps generalizing s with
  | zero => rfl
  | succ steps ih =>
    rw [walk_eq] at h
    have hchildren :
        s.mapChildren (mapRefsWithin f steps) = s.mapChildren (mapRefsWithin g steps) :=
      mapChildren_congr fun path child hchild => ih fun t ht =>
        h t (List.mem_cons_of_mem _ (List.mem_flatMap.mpr ⟨_, hchild, ht⟩))
    rw [mapRefsWithin, mapRefsWithin, hchildren, h s List.mem_cons_self]

/-- The references of a rebased schema are those of the schema, rebased. -/
theorem refs_rebaseWithin (location : String) (s : Schema) {steps : Nat}
    (h : s.walk.length ≤ steps) : (s.rebaseWithin location steps).walk.map (·.ref) =
      s.walk.map fun t => rebaseRef location t.ref := by
  obtain ⟨steps, rfl⟩ : ∃ rest, steps = rest + 1 :=
    ⟨steps - 1, by have := s.walk_length_pos; omega⟩
  rw [walk_eq s, walk_eq (rebaseWithin _ _ _), List.map_cons, List.map_cons,
    ref_rebaseWithin location (Nat.succ_pos _), children_rebaseWithin, List.flatMap_map,
    List.map_flatMap, List.map_flatMap]
  congr 1
  refine List.flatMap_congr fun entry hentry => ?_
  obtain ⟨path, child⟩ := entry
  cases child with
  | none => rfl
  | some child =>
    exact refs_rebaseWithin location child
      (Nat.le_of_lt_succ (Nat.lt_of_lt_of_le (walk_length_child hentry) h))
termination_by s
decreasing_by exact sizeOf_lt_of_mem_children hentry

/-- Applies a function to all references of a schema. -/
def mapRefs (f : String → String) (s : Schema) : Schema := s.mapRefsWithin f s.walk.length

/-- All that a schema says apart from its references. -/
def withoutRefs : Schema → Schema := mapRefs fun _ => ""

section rebase

variable (location : String) (s : Schema)

theorem rebase_eq : s.rebase location = s.mapRefs (rebaseRef location) := by
  rw [rebase, rebaseWithin_eq]
  rfl

theorem refs_rebase :
    (s.rebase location).walk.map (·.ref) = s.walk.map fun t => rebaseRef location t.ref :=
  refs_rebaseWithin location s (Nat.le_refl _)

/-- A function on the references of a rebased schema is one on those that it had. -/
theorem mapRefs_rebase (f : String → String) :
    (s.rebase location).mapRefs f = s.mapRefs (f ∘ rebaseRef location) := by
  have hlength : (s.rebase location).walk.length = s.walk.length := by
    simpa using congrArg List.length (refs_rebase location s)
  rw [mapRefs, hlength, rebase_eq]
  exact mapRefsWithin_mapRefsWithin _ _ _ s

theorem withoutRefs_rebase : (s.rebase location).withoutRefs = s.withoutRefs :=
  mapRefs_rebase location s _

/-- A schema is rebased once, if this is so for its references. -/
theorem rebase_rebase
    (h : ∀ t ∈ s.walk, rebaseRef location (rebaseRef location t.ref) = rebaseRef location t.ref) :
    (s.rebase location).rebase location = s.rebase location := by
  rw [rebase_eq location (s.rebase location), mapRefs_rebase, rebase_eq]
  exact mapRefsWithin_congr _ h

end rebase

end ApiTypes.Schema
