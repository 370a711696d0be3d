import ApiTypes.Proofs.Composition
import ApiTypes.Proofs.Reading.Lexemes
import ApiTypes.Proofs.Typing.Run

/-!
The flag that admits null. It is looked at where a list of values is typed and where a type is put
together from its parts, and there it reaches the type. The type of a constant is finished before
the flag is looked at, so that it admits null only if the constant is null itself.
-/

namespace ApiTypes

namespace Binary64

/-- No digit is this letter of the keyword for null. -/
theorem not_mem_toDigits (n : Nat) : 'u' ∉ Nat.toDigits 10 n := fun h =>
  absurd (Nat.isDigit_of_mem_toDigits (by decide) (by decide) h) (by decide)

theorem not_mem_positional (d : Digits) : 'u' ∉ d.positional.toList := by
  have hdigits := not_mem_toDigits d.digits
  unfold Digits.positional
  extract_lets ds places
  split
  · simp [ds, hdigits]
  · split
    · have htake : 'u' ∉ ds.take (ds.length - places) := fun h => hdigits (List.mem_of_mem_take h)
      have hdrop : 'u' ∉ ds.drop (ds.length - places) := fun h => hdigits (List.mem_of_mem_drop h)
      simp [htake, hdrop]
    · simp [ds, hdigits]

theorem not_mem_scientific (d : Digits) : 'u' ∉ d.scientific.toList := by
  have hdigits := not_mem_toDigits d.digits
  unfold Digits.scientific
  extract_lets power body size padded
  have hbody : 'u' ∉ body := by
    dsimp only [body]
    split
    · exact List.not_mem_nil
    · rename_i hds
      exact hds ▸ hdigits
    · rename_i hds
      rw [hds] at hdigits
      simpa using hdigits
  have hpadded : 'u' ∉ padded := by
    dsimp only [padded, size]
    split
    · simp [not_mem_toDigits]
    · exact not_mem_toDigits _
  have hsign : 'u' ≠ if power < 0 then '-' else '+' := by split <;> decide
  simp [hbody, hpadded, hsign]

/-- So no written number reads like that keyword. -/
theorem not_mem_render (layout : Layout) (x : Binary64) : 'u' ∉ (x.render layout).toList := by
  cases x with
  | nan => simp [render]
  | infinite negative => cases negative <;> simp [render]
  | finite negative m e =>
    have hsigned {body : String} (hbody : 'u' ∉ body.toList) :
        'u' ∉ (if negative then "-" ++ body else body).toList := by
      split <;> simp [hbody]
    refine hsigned ?_
    split
    · decide
    · dsimp only
      split
      · exact not_mem_scientific _
      · exact not_mem_positional _

end Binary64

theorem Literal.print_eq_null_iff (v : Literal) : v.print = "null" ↔ v = .null := by
  refine ⟨fun h => ?_, fun h => h ▸ rfl⟩
  have hletter : 'u' ∈ v.print.toList := h ▸ by decide
  cases v with
  | null => rfl
  | text s =>
    rw [print, Text.quote] at h
    have hhead := congrArg (fun s => s.toList.head?) h
    simp at hhead
  | bool b => cases b <;> simp [print] at h
  | int n =>
    rw [print] at hletter
    exact absurd (Reader.isNumberChar_toString hletter) (by decide)
  | number x => exact absurd hletter (Binary64.not_mem_render _ x)

namespace TypeExpr

/-- The type is null itself or a union with null among its members. Members of a union that are
simple are told apart by their text. -/
def AdmitsNull (t : TypeExpr) : Prop :=
  ∃ u ∈ t.unionMembers, u.isSimple = true ∧ u.render = "null"

theorem admitsNull_null : null.AdmitsNull := ⟨null, List.mem_singleton_self _, rfl, rfl⟩

/-- The union of some types admits null if one of them does. -/
theorem AdmitsNull.unionOf {t : TypeExpr} {types : List TypeExpr} (h : t.AdmitsNull)
    (ht : t ∈ types) : (unionOf types).AdmitsNull := by
  obtain ⟨u, hu, hsimple, hnull⟩ := h
  have hflat : u ∈ types.flatMap unionMembers := List.mem_flatMap.mpr ⟨t, ht, hu⟩
  obtain ⟨kept, hkept, hsimple, hsame⟩ := (exists_mem_dedupe hsimple [] hflat).resolve_left nofun
  refine ⟨kept, ?_, hsimple, hsame.trans hnull⟩
  unfold TypeExpr.unionOf joinUnion
  split
  · rename_i hnil
    rw [hnil] at hkept
    cases hkept
  · rename_i single hsingle
    rw [hsingle, List.mem_singleton] at hkept
    subst hkept
    cases kept with
    | union => cases hsimple
    | _ => exact List.mem_singleton_self _
  · exact hkept

/-- The type of a constant admits null exactly if the constant is null. -/
theorem admitsNull_ofValue_iff (v : Yaml.Value) : (ofValue v).AdmitsNull ↔ v = .null := by
  have hliteral (value : Literal) : (literal value).AdmitsNull ↔ value = .null := by
    rw [← Literal.print_eq_null_iff]
    constructor
    · rintro ⟨u, hu, -, hnull⟩
      rw [List.mem_singleton.mp hu] at hnull
      exact hnull
    · exact fun hnull => ⟨_, List.mem_singleton_self _, rfl, hnull⟩
  cases v with
  | dict entries =>
    rw [ofValue]
    refine iff_of_false ?_ nofun
    rintro ⟨u, hu, hsimple, -⟩
    rw [List.mem_singleton.mp hu] at hsimple
    cases hsimple
  | list items =>
    rw [ofValue]
    refine iff_of_false ?_ nofun
    rintro ⟨u, hu, hsimple, -⟩
    rw [List.mem_singleton.mp hu] at hsimple
    cases hsimple
  | _ =>
    rw [ofValue, hliteral, Literal.ofValue]
    all_goals simp

end TypeExpr

open TypeExpr

namespace Typing

variable {σ : Setting} {body : SchemaBody} {s : Schema} {place : String}

/-- The type of a list of values admits null, whether the list is declared as an enum or not. -/
theorem enumType_admitsNull (hnullable : s.nullable = true) :
    Gives σ (enumType s place) AdmitsNull := by
  refine Gives.options_bind ?_
  dsimp only
  rw [hnullable, Bool.true_or]
  split
  · refine Gives.get_bind fun p => ?_
    rcases p.enums.hoist place s with ⟨name, enums⟩
    refine (Gives.any _).bind fun _ _ => .pure ?_
    rw [Bool.true_or, if_pos rfl]
    exact admitsNull_null.unionOf (by simp)
  · exact .pure (admitsNull_null.unionOf (by simp))

/-- So does a type that is put together, unless a default keeps null out of it. -/
theorem withAlternatives_admitsNull (hnullable : s.nullable = true)
    (hdefault : (s.hasDefault && σ.options.defaultNonNullable) = false)
    (whole : Option TypeExpr) : Gives σ (withAlternatives body s place whole) AdmitsNull := by
  refine (Gives.any _).bind fun anyOf _ => ?_
  refine (Gives.any _).bind fun oneOf _ => ?_
  refine Gives.options_bind (.pure ?_)
  rw [hnullable, hdefault, Bool.not_false, Bool.true_and, if_pos rfl]
  exact admitsNull_null.unionOf (by simp)

/-- A constant is typed as it is, so the flag reaches the type of a schema exactly if the schema
is a list of values, has no constant, or has null for one. -/
theorem bodyStep_admitsNull_iff (hbool : s.bool = none) (href : s.isRef = false)
    (hnullable : s.nullable = true)
    (hdefault : (s.hasDefault && σ.options.defaultNonNullable) = false) :
    Gives σ (bodyStep body (some s) place) fun t =>
      t.AdmitsNull ↔ isEnumSchema s = true ∨ s.hasConst = false ∨ s.const = .null := by
  dsimp only [bodyStep]
  rw [hbool]
  dsimp only
  rw [if_neg (by simp [href])]
  split
  · rename_i henum
    exact (enumType_admitsNull hnullable).weaken fun t ht => iff_of_true ht (.inl henum)
  · rename_i hplain
    split
    · rename_i hconst
      refine .pure ?_
      rw [admitsNull_ofValue_iff, or_iff_right hplain, or_iff_right (by simp [hconst])]
    · rename_i hfree
      refine (Gives.any _).bind fun c _ => ?_
      refine (withAlternatives_admitsNull hnullable hdefault c.whole).weaken fun t ht => ?_
      exact iff_of_true ht (.inr (.inl (by simpa using hfree)))

/-- Without hooks, a schema that admits null has a type that does, unless it stands for a constant
other than null. -/
theorem schemaType_admitsNull_iff (hσ : HookFree σ) (hbool : s.bool = none)
    (href : s.isRef = false) (hnullable : s.nullable = true)
    (hdefault : s.hasDefault = false ∨ σ.options.defaultNonNullable = false) {t : TypeExpr}
    {p q : Progress} (hrun : exec (schemaType (some s) place) σ p = (.ok t, q)) :
    t.AdmitsNull ↔ isEnumSchema s = true ∨ s.hasConst = false ∨ s.const = .null := by
  have hdefault : (s.hasDefault && σ.options.defaultNonNullable) = false := by
    rcases hdefault with h | h <;> simp [h]
  have hbody (steps : Nat) : Gives σ (schemaBody steps (some s) place) fun t =>
      t.AdmitsNull ↔ isEnumSchema s = true ∨ s.hasConst = false ∨ s.const = .null := by
    cases steps with
    | zero => exact .throw
    | succ steps => exact bodyStep_admitsNull_iff hbool href hnullable hdefault
  have htype : Gives σ (schemaType (some s) place) fun t =>
      t.AdmitsNull ↔ isEnumSchema s = true ∨ s.hasConst = false ∨ s.const = .null := by
    refine (Gives.any (unfoldings (some s))).bind fun steps _ => ?_
    exact Gives.congr (fun p => exec_typeWith hσ (schemaBody steps) (some s) place p) (hbody steps)
  exact htype.result p t q hrun

/-- A text or null. -/
theorem schemaType_admitsNull_iff_text :
    let s : Schema := { types := some ["string"], nullable := true }
    s.bool = none ∧ s.isRef = false ∧ s.nullable = true ∧ s.hasDefault = false ∧
    ∃ t q, exec (schemaType (some s) "#") {} {} = (.ok t, q) ∧ t.AdmitsNull := by
  intro s
  obtain ⟨steps, hsteps⟩ := exists_exec_schemaType s "#" {} {}
  have hrun : exec (schemaType (some s) "#") {} {} = (.ok (.union [.string, .null]), {}) :=
    hsteps.trans rfl
  exact ⟨rfl, rfl, rfl, rfl, _, _, hrun,
    (schemaType_admitsNull_iff ⟨rfl, rfl⟩ rfl rfl rfl (.inl rfl) hrun).mpr (.inr (.inl rfl))⟩

/-- A constant has no other value, whatever the flag says. -/
theorem constant_admits_no_null :
    let s : Schema := { const := .int 1, hasConst := true, nullable := true }
    exec (schemaType (some s) "#") {} {} = (.ok (.literal (.int 1)), {}) ∧
      ¬ (TypeExpr.literal (.int 1)).AdmitsNull := by
  intro s
  obtain ⟨steps, hsteps⟩ := exists_exec_schemaType s "#" {} {}
  exact ⟨hsteps.trans rfl, fun h => nomatch (admitsNull_ofValue_iff (.int 1)).mp h⟩

end Typing

end ApiTypes
