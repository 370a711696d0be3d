import ApiTypes.Proofs.Typing.DocumentCourse

/-!
A null in a document is passed over wherever it stands, but for one place. Whether a type name is
left to the alternatives of a schema is found out by looking at each of them, and there a null ends
the run. So a run ends this way only if a schema of the document, or of a target that is written out
in place, has several type names beside a null among its alternatives.
-/

namespace ApiTypes.Typing

/-- The look at the alternatives fails exactly if it comes to a null before one that has the type
name. -/
theorem exec_isAlternative_error_iff (name : String) (members : List (Option Schema)) (σ : Setting)
    (p : Progress) :
    (exec (isAlternative name members) σ p).1 = .error .nullAlternative ↔
      ∃ (others : List Schema) (rest : List (Option Schema)),
        members = others.map some ++ none :: rest ∧ ∀ s ∈ others, s.singleType? ≠ some name := by
  induction members with
  | nil =>
    constructor
    · intro herror
      cases herror
    · rintro ⟨others, rest, hmembers, -⟩
      cases others <;> cases hmembers
  | cons member more ih =>
    cases member with
    | none => exact ⟨fun _ => ⟨[], more, rfl, List.forall_mem_nil _⟩, fun _ => rfl⟩
    | some s =>
      rw [isAlternative]
      split
      · rename_i hname
        constructor
        · intro herror
          cases herror
        · rintro ⟨others, rest, hmembers, hothers⟩
          cases others with
          | nil => cases hmembers
          | cons t others =>
            cases hmembers
            exact absurd hname (hothers s List.mem_cons_self)
      · rename_i hname
        rw [ih]
        constructor
        · rintro ⟨others, rest, rfl, hothers⟩
          exact ⟨s :: others, rest, rfl, List.forall_mem_cons.mpr ⟨hname, hothers⟩⟩
        · rintro ⟨others, rest, hmembers, hothers⟩
          cases others with
          | nil => cases hmembers
          | cons t others =>
            cases hmembers
            exact ⟨others, rest, rfl, (List.forall_mem_cons.mp hothers).2⟩

/-- If a run ends at a null, then a schema that is met has several type names beside a null among
its alternatives: one of the document, or one of a target that is written out in place. -/
theorem mixesNull_of_generate {doc : Document} {request : Request}
    (hrun : generate doc request = .error (.typing .nullAlternative)) :
    ∃ inl s, Source.Meets ⟨doc, request.external⟩ inl (.schema s) ∧ s.MixesNull :=
  (along_document doc request none).fails .nullAlternative (exec_of_generate_error hrun)

/-- Whether a run has ended at a null. -/
def endsAtNull : Except Failure Output → Bool
  | .error (.typing .nullAlternative) => true
  | _ => false

theorem eq_of_endsAtNull {result : Except Failure Output} (h : endsAtNull result = true) :
    result = .error (.typing .nullAlternative) := by
  unfold endsAtNull at h
  split at h
  · rfl
  · cases h

/-- Nulls in most places: among the schemas, parameters, responses and alternatives. -/
def nullDocument (types : List String) : Document where
  openapi := "3.1.0"
  paths := some (.ofList [("/pets", some { parameters := some [none] }), ("/none", none)])
  components := some {
    schemas := some (.ofList [
      ("Pet", some {
        types := some types
        oneOf := some [none, some { types := some ["string"] }]
        allOf := some [none]
        properties := some (.ofList [("name", none)]) }),
      ("Nothing", none)])
    responses := some (.ofList [("Lost", none)]) }

/-- With one type name nothing is wrong, with two the null is met. -/
theorem mixesNull_of_generate_pets :
    (generate (nullDocument ["object"]) {}).toOption.isSome ∧
    generate (nullDocument ["string", "integer"]) {} = .error (.typing .nullAlternative) ∧
    ∃ inl s, Source.Meets ⟨nullDocument ["string", "integer"], none⟩ inl (.schema s) ∧
      s.MixesNull := by
  have hrun : generate (nullDocument ["string", "integer"]) {} =
      .error (.typing .nullAlternative) := eq_of_endsAtNull (by decide +kernel)
  exact ⟨by decide +kernel, hrun, mixesNull_of_generate hrun⟩

end ApiTypes.Typing
