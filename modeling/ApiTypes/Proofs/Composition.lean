import ApiTypes.Proofs.Uses

/-!
What is left of the members of a union or an intersection when it is put together. A member that is
told apart by its text can give way to an earlier one of the same text, any other member stays. So
two members of one intersection, one of each kind, stay together in whatever is made of it by
further unions and intersections.
-/

namespace ApiTypes.TypeExpr

theorem mem_dedupe_of_not_simple {t : TypeExpr} (hcomplex : t.isSimple = false)
    (seen : List String) {types : List TypeExpr} (h : t ∈ types) : t ∈ dedupe seen types := by
  induction types generalizing seen with
  | nil => cases h
  | cons first rest ih =>
    rw [dedupe]
    rcases List.mem_cons.mp h with rfl | hrest
    · rw [if_neg (by simp [hcomplex])]
      exact List.mem_cons_self
    · split
      · split
        · exact ih seen hrest
        · exact List.mem_cons_of_mem _ (ih _ hrest)
      · exact List.mem_cons_of_mem _ (ih seen hrest)

/-- A member that is told apart by its text leaves a member of this text. -/
theorem exists_mem_dedupe {t : TypeExpr} (hsimple : t.isSimple = true) (seen : List String)
    {types : List TypeExpr} (h : t ∈ types) :
    t.render ∈ seen ∨ ∃ u ∈ dedupe seen types, u.isSimple = true ∧ u.render = t.render := by
  induction types generalizing seen with
  | nil => cases h
  | cons first rest ih =>
    rw [dedupe]
    rcases List.mem_cons.mp h with rfl | hrest
    · rw [if_pos hsimple]
      split
      · rename_i hseen
        exact .inl (by simpa using hseen)
      · exact .inr ⟨_, List.mem_cons_self, hsimple, rfl⟩
    · split
      · rename_i hfirst
        split
        · exact ih seen hrest
        · rcases ih (first.render :: seen) hrest with hseen | ⟨u, hu, hkept⟩
          · rcases List.mem_cons.mp hseen with heq | hold
            · exact .inr ⟨first, List.mem_cons_self, hfirst, heq.symm⟩
            · exact .inl hold
          · exact .inr ⟨u, List.mem_cons_of_mem _ hu, hkept⟩
      · rcases ih seen hrest with hseen | ⟨u, hu, hkept⟩
        · exact .inl hseen
        · exact .inr ⟨u, List.mem_cons_of_mem _ hu, hkept⟩

/-- One type stands in another: it is that type, or stands in a member of a union or an
intersection. -/
inductive Inside (inner : TypeExpr) : TypeExpr → Prop where
  | refl : Inside inner inner
  | union {t : TypeExpr} {types : List TypeExpr} : t ∈ types → Inside inner t →
    Inside inner (.union types)
  | intersection {t : TypeExpr} {types : List TypeExpr} : t ∈ types → Inside inner t →
    Inside inner (.intersection types)

variable {parts types : List TypeExpr} {t o u : TypeExpr}

theorem Inside.not_simple (h : Inside (.intersection parts) t) : t.isSimple = false := by
  cases h <;> rfl

/-- An intersection that stands in a type stands in each union that this type is put into. -/
theorem Inside.unionOf (h : Inside (.intersection parts) t) (ht : t ∈ types) :
    Inside (.intersection parts) (unionOf types) := by
  obtain ⟨m, hm, hinside⟩ : ∃ m ∈ t.unionMembers, Inside (.intersection parts) m := by
    cases h with
    | refl => exact ⟨_, List.mem_singleton_self _, .refl⟩
    | union hmem hinner => exact ⟨_, hmem, hinner⟩
    | intersection hmem hinner => exact ⟨_, List.mem_singleton_self _, .intersection hmem hinner⟩
  have hkept : m ∈ dedupe [] (types.flatMap unionMembers) :=
    mem_dedupe_of_not_simple hinside.not_simple [] (List.mem_flatMap.mpr ⟨t, ht, hm⟩)
  unfold TypeExpr.unionOf joinUnion
  split
  · rename_i hnil
    rw [hnil] at hkept
    cases hkept
  · rename_i single hsingle
    rw [hsingle, List.mem_singleton] at hkept
    exact hkept ▸ hinside
  · exact .union hkept hinside

/-- A member that stays as it is and one that is told apart by its text keep an intersection from
being a single type. -/
theorem joinIntersection_eq {flat : List TypeExpr} (ho : o ∈ flat) (hcomplex : o.isSimple = false)
    (hu : u ∈ flat) (hsimple : u.isSimple = true) :
    joinIntersection flat = .intersection (dedupe [] flat) := by
  have hoKept : o ∈ dedupe [] flat := mem_dedupe_of_not_simple hcomplex [] ho
  obtain ⟨u', huKept, hsimple', -⟩ := (exists_mem_dedupe hsimple [] hu).resolve_left nofun
  unfold joinIntersection
  split
  · rename_i hnil
    rw [hnil] at hoKept
    cases hoKept
  · rename_i single hsingle
    rw [hsingle, List.mem_singleton] at hoKept huKept
    rw [huKept, ← hoKept, hcomplex] at hsimple'
    cases hsimple'
  · rfl

/-- In some intersection inside `t`, the type `o` is a member beside one with the text of `u`. -/
def Together (o u t : TypeExpr) : Prop :=
  ∃ parts, Inside (.intersection parts) t ∧ o ∈ parts ∧
    ∃ u' ∈ parts, u'.isSimple = true ∧ u'.render = u.render

theorem together_joinIntersection {flat : List TypeExpr} (ho : o ∈ flat)
    (hcomplex : o.isSimple = false) (hu : u ∈ flat) (hsimple : u.isSimple = true) :
    Together o u (joinIntersection flat) := by
  rw [joinIntersection_eq ho hcomplex hu hsimple]
  exact ⟨_, .refl, mem_dedupe_of_not_simple hcomplex [] ho,
    (exists_mem_dedupe hsimple [] hu).resolve_left nofun⟩

theorem Together.unionOf (h : Together o u t) (ht : t ∈ types) :
    Together o u (unionOf types) := by
  obtain ⟨parts, hinside, htogether⟩ := h
  exact ⟨parts, hinside.unionOf ht, htogether⟩

/-- Members of an intersection stay together when it is taken apart for a larger one. -/
theorem Together.intersectionOf (h : Together o u t) (hcomplex : o.isSimple = false)
    (ht : t ∈ types) : Together o u (intersectionOf types) := by
  obtain ⟨parts, hinside, ho, u', hu', hsimple, hrender⟩ := h
  have hflat : ∀ m ∈ t.intersectionMembers, m ∈ types.flatMap intersectionMembers :=
    fun m hm => List.mem_flatMap.mpr ⟨t, ht, hm⟩
  -- What stands deeper in a member stays inside that member, which is never left out.
  have hdeeper (m : TypeExpr) (hm : m ∈ t.intersectionMembers)
      (hinner : Inside (.intersection parts) m) :
      Together o u (TypeExpr.intersectionOf types) := by
    refine ⟨parts, ?_, ho, u', hu', hsimple, hrender⟩
    have hkept : m ∈ dedupe [] (types.flatMap intersectionMembers) :=
      mem_dedupe_of_not_simple hinner.not_simple [] (hflat m hm)
    unfold TypeExpr.intersectionOf joinIntersection
    split
    · rename_i hnil
      rw [hnil] at hkept
      cases hkept
    · rename_i single hsingle
      rw [hsingle, List.mem_singleton] at hkept
      exact hkept ▸ hinner
    · exact .intersection hkept hinner
  cases hinside with
  | refl =>
    obtain ⟨parts', hinside', ho', u'', hu'', hsimple'', hrender'⟩ :=
      together_joinIntersection (hflat o ho) hcomplex (hflat u' hu') hsimple
    exact ⟨parts', hinside', ho', u'', hu'', hsimple'', hrender'.trans hrender⟩
  | union hmem hinner => exact hdeeper _ (List.mem_singleton_self _) (.union hmem hinner)
  | intersection hmem hinner => exact hdeeper _ hmem hinner

end ApiTypes.TypeExpr
