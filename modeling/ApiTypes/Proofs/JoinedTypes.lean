import ApiTypes.Proofs.Composition
import ApiTypes.Proofs.WellFormed

/-!
Types that are put together by an operator, a union or an intersection. It makes no difference
whether some of them were put together before, wherever they stand in the list: taking a type apart
again, dropping what reads like an earlier member and giving a single member without the operator
fit together.
-/

namespace ApiTypes.TypeExpr

/-! Dropping what reads like an earlier member. -/

/-- The texts by which simple types are told apart. -/
def texts (types : List TypeExpr) : List String := (types.filter isSimple).map render

theorem mem_texts {types : List TypeExpr} {s : String} :
    s ∈ texts types ↔ ∃ t ∈ types, t.isSimple = true ∧ t.render = s := by
  simp [texts, and_assoc]

/-- Whether a type reads like one of those before it, both being simple. -/
def repeats (before : List TypeExpr) (t : TypeExpr) : Bool :=
  t.isSimple && (texts before).contains t.render

/-- The types of a list that do not repeat one before them. -/
def withoutRepeats (types : List TypeExpr) : List TypeExpr :=
  types.zipIdx.filterMap fun (t, i) => if repeats (types.take i) t then none else some t

variable {seen seen' : List String} {types before after : List TypeExpr}

/-- What is dropped depends on which texts have been seen, not on their order. -/
theorem dedupe_congr (h : ∀ s, s ∈ seen ↔ s ∈ seen') (types : List TypeExpr) :
    dedupe seen types = dedupe seen' types := by
  induction types generalizing seen seen' with
  | nil => rfl
  | cons t rest ih =>
    have hseen : seen.contains t.render = seen'.contains t.render := by simp [h]
    have hmore : dedupe (t.render :: seen) rest = dedupe (t.render :: seen') rest :=
      ih fun s => by simp [h]
    simp only [dedupe, hseen, hmore, ih h]

theorem dedupe_append (seen : List String) (before after : List TypeExpr) :
    dedupe seen (before ++ after) = dedupe seen before ++ dedupe (texts before ++ seen) after := by
  induction before generalizing seen with
  | nil => rfl
  | cons t rest ih =>
    by_cases hsimple : t.isSimple = true
    · have htexts : texts (t :: rest) = t.render :: texts rest := by simp [texts, hsimple]
      by_cases hseen : t.render ∈ seen
      · have hsame : dedupe (texts rest ++ seen) after = dedupe (texts (t :: rest) ++ seen) after :=
          dedupe_congr (fun s => by simp [htexts]; grind) after
        simp [dedupe, hsimple, hseen, ih, hsame]
      · have hsame : dedupe (texts rest ++ t.render :: seen) after =
            dedupe (texts (t :: rest) ++ seen) after :=
          dedupe_congr (fun s => by simp [htexts]; grind) after
        simp [dedupe, hsimple, hseen, ih, hsame]
    · have htexts : texts (t :: rest) = texts rest := by simp [texts, hsimple]
      simp [dedupe, hsimple, ih, htexts]

/-- Dropping twice drops what has been seen on either occasion. -/
theorem dedupe_dedupe (seen seen' : List String) (types : List TypeExpr) :
    dedupe seen (dedupe seen' types) = dedupe (seen ++ seen') types := by
  induction types generalizing seen seen' with
  | nil => rfl
  | cons t rest ih =>
    by_cases hsimple : t.isSimple = true
    · by_cases hold : t.render ∈ seen'
      · simp [dedupe, hsimple, hold, ih]
      · by_cases hseen : t.render ∈ seen
        · have hsame : dedupe (seen ++ t.render :: seen') rest = dedupe (seen ++ seen') rest :=
            dedupe_congr (fun s => by simp; grind) rest
          simp [dedupe, hsimple, hold, hseen, ih, hsame]
        · have hsame : dedupe (t.render :: seen ++ t.render :: seen') rest =
              dedupe (t.render :: (seen ++ seen')) rest :=
            dedupe_congr (fun s => by simp; grind) rest
          simp [dedupe, hsimple, hold, hseen, ih, ← hsame]
    · simp [dedupe, hsimple, ih]

/-- No text goes lost where repetitions are dropped. -/
theorem mem_texts_dedupe (types : List TypeExpr) (s : String) :
    s ∈ texts (dedupe [] types) ↔ s ∈ texts types := by
  simp only [mem_texts]
  constructor
  · rintro ⟨t, ht, htext⟩
    exact ⟨t, (dedupe_sublist [] types).subset ht, htext⟩
  · rintro ⟨t, ht, hsimple, rfl⟩
    exact (exists_mem_dedupe hsimple [] ht).resolve_left nofun

theorem dedupe_ne_nil (h : types ≠ []) : dedupe [] types ≠ [] := by
  cases types with
  | nil => exact absurd rfl h
  | cons t rest =>
    by_cases hsimple : t.isSimple = true <;> simp [dedupe, hsimple]

/-- It makes no difference whether repetitions are dropped from a part of a list before. -/
theorem dedupe_append_dedupe (before types after : List TypeExpr) :
    dedupe [] (before ++ dedupe [] types ++ after) = dedupe [] (before ++ types ++ after) := by
  have htexts (s) : s ∈ texts (before ++ dedupe [] types) ++ [] ↔
      s ∈ texts (before ++ types) ++ [] := by
    have hpart := mem_texts_dedupe types s
    simp only [texts, List.filter_append, List.map_append, List.append_nil, List.mem_append]
      at hpart ⊢
    rw [hpart]
  rw [dedupe_append, dedupe_append, dedupe_dedupe, dedupe_congr htexts after,
    dedupe_append [] (before ++ types), dedupe_append [] before types, List.append_nil]

/-- What is left of a list behind another are the types that repeat none before them. -/
theorem dedupe_texts (before after : List TypeExpr) :
    dedupe (texts before) after = (after.zipIdx before.length).filterMap fun (t, i) =>
      if repeats ((before ++ after).take i) t then none else some t := by
  induction after generalizing before with
  | nil => rfl
  | cons t rest ih =>
    have hseen (s) : s ∈ texts (before ++ [t]) ↔
        s ∈ (if t.isSimple then t.render :: texts before else texts before) := by
      by_cases hsimple : t.isSimple = true <;> simp [texts, hsimple, or_comm]
    have hrest := ih (before ++ [t])
    rw [dedupe_congr hseen, List.append_assoc, List.length_append, List.length_singleton,
      List.singleton_append] at hrest
    rw [List.zipIdx_cons, List.filterMap_cons, ← hrest, dedupe]
    by_cases hsimple : t.isSimple = true
    · by_cases hold : t.render ∈ texts before
      · have hsame : dedupe (t.render :: texts before) rest = dedupe (texts before) rest :=
          dedupe_congr (fun s => by simp; grind) rest
        simp [repeats, hsimple, hold, hsame]
      · simp [repeats, hsimple, hold]
    · simp [repeats, hsimple]

theorem dedupe_eq_withoutRepeats (types : List TypeExpr) :
    dedupe [] types = withoutRepeats types := dedupe_texts [] types

/-! The operators. -/

/-- How an operator puts types together: those of its own kind are taken apart to their members,
and the operator stands only where two members or more are left. -/
structure Operates (operator : List TypeExpr → TypeExpr) (members : TypeExpr → List TypeExpr)
    (join : List TypeExpr → TypeExpr) : Prop where
  members_operator : ∀ parts, members (operator parts) = parts
  members_other : ∀ t, (∀ parts, t ≠ operator parts) → members t = [t]
  join_eq : ∀ types, join types =
    match dedupe [] (types.flatMap members) with
    | [] => never
    | [t] => t
    | kept => operator kept

theorem operates_unionOf : Operates .union unionMembers unionOf where
  members_operator _ := rfl
  members_other t h := by
    cases t with
    | union parts => exact absurd rfl (h parts)
    | _ => rfl
  join_eq _ := rfl

theorem operates_intersectionOf : Operates .intersection intersectionMembers intersectionOf where
  members_operator _ := rfl
  members_other t h := by
    cases t with
    | intersection parts => exact absurd rfl (h parts)
    | _ => rfl
  join_eq _ := rfl

/-- If the operator stands at the head of the type, then it joins two members or more, none of
which has the operator at its head. Nothing is said about what stands deeper. -/
def Flat (operator : List TypeExpr → TypeExpr) (t : TypeExpr) : Prop :=
  ∀ parts, t = operator parts →
    2 ≤ parts.length ∧ ∀ part ∈ parts, ∀ inner, part ≠ operator inner

/-- What becomes of some types under an operator. -/
structure Normalized (operator : List TypeExpr → TypeExpr) (members : TypeExpr → List TypeExpr)
    (join : List TypeExpr → TypeExpr) (types : List TypeExpr) : Prop where
  /-- Joined types can stand in a longer list, at any place, for the types they are made of. -/
  nested : ∀ before after, join (before ++ join types :: after) = join (before ++ types ++ after)
  /-- Joining once more changes nothing. -/
  again : join [join types] = join types
  /-- The result needs no further flattening. -/
  flat : (join types).Flat operator
  /-- Its members are those of the types in their order, less the repetitions. -/
  members_eq : members (join types) = withoutRepeats (types.flatMap members)

namespace Operates

variable {operator join : List TypeExpr → TypeExpr} {members : TypeExpr → List TypeExpr}
  {t : TypeExpr} {parts : List TypeExpr}

section

variable (h : Operates operator members join)

include h

/-- A type that is flat has members, and each of them is its own only member. -/
theorem members_of_flat (ht : t.Flat operator) :
    members t ≠ [] ∧ ∀ part ∈ members t, ∀ inner, part ≠ operator inner := by
  by_cases hhead : ∃ parts, t = operator parts
  · obtain ⟨parts, rfl⟩ := hhead
    obtain ⟨hlength, hparts⟩ := ht parts rfl
    rw [h.members_operator]
    exact ⟨fun hnil => by simp [hnil] at hlength, hparts⟩
  · have hother (parts) : t ≠ operator parts := fun heq => hhead ⟨parts, heq⟩
    rw [h.members_other t hother]
    simpa using hother

/-- The members of some flat types. -/
theorem flatMap_members_of_flat (hne : types ≠ []) (hflat : ∀ t ∈ types, t.Flat operator) :
    types.flatMap members ≠ [] ∧
      ∀ part ∈ types.flatMap members, ∀ inner, part ≠ operator inner := by
  constructor
  · obtain ⟨t, ht⟩ := List.exists_mem_of_ne_nil types hne
    obtain ⟨part, hpart⟩ := List.exists_mem_of_ne_nil _ (h.members_of_flat (hflat t ht)).1
    exact List.ne_nil_of_mem (List.mem_flatMap.mpr ⟨t, ht, hpart⟩)
  · intro part hpart
    obtain ⟨t, ht, hmem⟩ := List.mem_flatMap.mp hpart
    exact (h.members_of_flat (hflat t ht)).2 part hmem

/-- The members of what is put together from flat types, which is flat again. -/
theorem members_join (hne : types ≠ []) (hflat : ∀ t ∈ types, t.Flat operator) :
    members (join types) = dedupe [] (types.flatMap members) ∧ (join types).Flat operator := by
  obtain ⟨hmembers, hplain⟩ := h.flatMap_members_of_flat hne hflat
  have hkept (part) (hpart : part ∈ dedupe [] (types.flatMap members)) :=
    hplain part ((dedupe_sublist [] _).subset hpart)
  rw [h.join_eq]
  split
  · rename_i hnil
    exact absurd hnil (dedupe_ne_nil hmembers)
  · rename_i t hsingle
    have ht := hkept t (by simp [hsingle])
    exact ⟨by rw [hsingle, h.members_other t ht], fun parts heq => absurd heq (ht parts)⟩
  · rename_i hnil hsingle
    refine ⟨h.members_operator _, fun parts heq => ?_⟩
    have hparts : parts = dedupe [] (types.flatMap members) := by
      rw [← h.members_operator parts, ← heq, h.members_operator]
    rw [hparts]
    exact ⟨two_le_length hnil hsingle, hkept⟩

/-- What comes out is settled by the members that are kept. -/
theorem join_congr {types' : List TypeExpr}
    (hkept : dedupe [] (types.flatMap members) = dedupe [] (types'.flatMap members)) :
    join types = join types' := by
  rw [h.join_eq, h.join_eq, hkept]

theorem normalized (hne : types ≠ []) (hflat : ∀ t ∈ types, t.Flat operator) :
    Normalized operator members join types := by
  obtain ⟨hmembers, hjoin⟩ := h.members_join hne hflat
  have hnested (before after) :
      join (before ++ join types :: after) = join (before ++ types ++ after) := by
    apply h.join_congr
    rw [List.flatMap_append, List.flatMap_cons, hmembers, ← List.append_assoc,
      dedupe_append_dedupe, List.flatMap_append, List.flatMap_append]
  refine ⟨hnested, ?_, hjoin, ?_⟩
  · simpa using hnested [] []
  · rw [hmembers, dedupe_eq_withoutRepeats]

end

end Operates

/-- Unions and intersections are associative and idempotent up to their normal form. -/
theorem joins_normalized {types : List TypeExpr} (hne : types ≠ []) :
    ((∀ t ∈ types, t.Flat .union) → Normalized .union unionMembers unionOf types) ∧
      ((∀ t ∈ types, t.Flat .intersection) →
        Normalized .intersection intersectionMembers intersectionOf types) :=
  ⟨operates_unionOf.normalized hne, operates_intersectionOf.normalized hne⟩

/-- A nullable text, two records in one and null once more. -/
def nullableTypes : List TypeExpr :=
  [.union [string, null], .intersection [named "Pet", named "Owner"], null]

theorem joins_normalized_nullableTypes :
    nullableTypes ≠ [] ∧ (∀ t ∈ nullableTypes, t.Flat .union) ∧
      (∀ t ∈ nullableTypes, t.Flat .intersection) ∧
      Normalized .union unionMembers unionOf nullableTypes ∧
      Normalized .intersection intersectionMembers intersectionOf nullableTypes := by
  have hne : nullableTypes ≠ [] := List.cons_ne_nil _ _
  have hunion (t) (ht : t ∈ nullableTypes) : t.Flat .union := by
    simp only [nullableTypes, List.mem_cons, List.not_mem_nil, or_false] at ht
    rintro parts hparts
    rcases ht with rfl | rfl | rfl
    · cases hparts
      simp [string, null]
    · cases hparts
    · cases hparts
  have hintersection (t) (ht : t ∈ nullableTypes) : t.Flat .intersection := by
    simp only [nullableTypes, List.mem_cons, List.not_mem_nil, or_false] at ht
    rintro parts hparts
    rcases ht with rfl | rfl | rfl
    · cases hparts
    · cases hparts
      simp [named]
    · cases hparts
  have hboth := joins_normalized hne
  exact ⟨hne, hunion, hintersection, hboth.1 hunion, hboth.2 hintersection⟩

end ApiTypes.TypeExpr
