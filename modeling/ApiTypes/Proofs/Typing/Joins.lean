import ApiTypes.Typing.Schema

/-!
How the type of a schema is joined from its parts. The joins are unions, intersections, and types
without some of their keys, so a property of types that these keep goes from the parts to the whole.
-/

namespace ApiTypes

/-- A property of types that goes from types to whatever is joined from them. -/
structure TypeExpr.Joinable (Good : TypeExpr → Prop) : Prop where
  keyword : ∀ name, Good (.keyword name)
  emptyRecord : Good (.record .string .never)
  unionOf : ∀ types, (∀ t ∈ types, Good t) → Good (.unionOf types)
  intersectionOf : ∀ types, (∀ t ∈ types, Good t) → Good (.intersectionOf types)
  without : ∀ t keys, Good t → Good (t.without keys)

namespace TypeExpr.Joinable

variable {Good : TypeExpr → Prop} (hGood : Joinable Good)

include hGood

theorem withNull {t : TypeExpr} (ht : Good t) : Good (.unionOf [t, .null]) :=
  hGood.unionOf _ (by simp [ht, TypeExpr.null, hGood.keyword])

theorem compose {base : Option TypeExpr} {alternatives : List TypeExpr}
    (hbase : ∀ t ∈ base, Good t) (halternatives : ∀ t ∈ alternatives, Good t) :
    ∀ t ∈ Typing.compose base alternatives, Good t := by
  have hunion := hGood.unionOf alternatives halternatives
  unfold Typing.compose
  split
  · exact hbase
  · rintro _ ⟨⟩
    exact hunion
  · rename_i t _
    have ht : Good t := hbase t rfl
    split
    · rintro _ ⟨⟩
      exact hGood.unionOf _ (List.forall_mem_cons.mpr ⟨ht, halternatives⟩)
    · rintro _ ⟨⟩
      exact hGood.intersectionOf _ (by simp [ht, hunion])

theorem bareType (options : Options) (s : Schema) : Good (Typing.bareType options s) := by
  unfold Typing.bareType
  split
  · exact hGood.keyword _
  · exact hGood.emptyRecord

theorem written {part : Typing.Part} (h : Good part.type) : Good part.written := by
  unfold Typing.Part.written
  split
  · exact h
  · exact hGood.without _ _ h

theorem types {c : Typing.Composition} (hcore : ∀ t ∈ c.core, Good t)
    (hparts : ∀ part ∈ c.parts, Good part.type) : ∀ t ∈ c.types, Good t := by
  intro t ht
  rcases List.mem_append.mp ht with hmem | hmem
  · exact hcore t (Option.mem_toList.mp hmem)
  · obtain ⟨part, hpart, rfl⟩ := List.mem_map.mp hmem
    exact hGood.written (hparts part hpart)

theorem whole {c : Typing.Composition} (htypes : ∀ t ∈ c.types, Good t) :
    ∀ t ∈ c.whole, Good t := by
  unfold Typing.Composition.whole
  split
  · nofun
  · rintro _ ⟨⟩
    exact hGood.intersectionOf _ htypes

/-- What a schema is put together from, with its alternatives and what stands for nothing. -/
theorem composed {whole : Option TypeExpr} {anyOf oneOf : List TypeExpr}
    (hwhole : ∀ t ∈ whole, Good t) (hanyOf : ∀ t ∈ anyOf, Good t) (honeOf : ∀ t ∈ oneOf, Good t)
    (options : Options) (s : Schema) :
    Good ((Typing.compose (Typing.compose whole anyOf) oneOf).getD
      (Typing.bareType options s)) := by
  cases hfound : Typing.compose (Typing.compose whole anyOf) oneOf with
  | none => exact hGood.bareType options s
  | some t => exact hGood.compose (hGood.compose hwhole hanyOf) honeOf t hfound

/-- The type of a list of values, with null if it is admitted. -/
theorem values {types : List TypeExpr} (htypes : ∀ t ∈ types, Good t) (admitsNull : Bool) :
    Good (.unionOf (types ++ if admitsNull then [.null] else [])) := by
  apply hGood.unionOf
  intro t ht
  rcases List.mem_append.mp ht with hmem | hmem
  · exact htypes t hmem
  · cases admitsNull with
    | false => cases hmem
    | true =>
      rw [List.mem_singleton.mp hmem]
      exact hGood.keyword _

end TypeExpr.Joinable

end ApiTypes
