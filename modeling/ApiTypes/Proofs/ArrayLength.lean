import ApiTypes.Typing.Array

/-!
Arrays with bounds on their length. The number of elements that all tuples between the bounds have
together is computed modulo the size of a machine word, so a small result does not mean that the
tuples are short. Expanding the bounds fails exactly if one of the tuples, or the list of them,
would be longer than a list can be.
-/

namespace ApiTypes

/-- The bounds admit few elements by the computed number, and yet a tuple between them, or the list
of tuples, is too long for a list. -/
def Schema.Oversized (s : Schema) : Prop :=
  ∃ low high, lengthBounds s = (low, some high) ∧ expandedSize low (some high) < 30 ∧
    (lengthLimit < high ∨ low ≠ high ∧ lengthLimit < high - low + 1)

theorem repeatedTuple_eq (item : TypeExpr) (immutable : Bool) (n : Int) :
    repeatedTuple item immutable n =
      if lengthLimit < n then .error .oversizedTuple
      else .ok (tupleOf immutable (List.replicate n.toNat item)) := by
  unfold repeatedTuple repeated
  split <;> rfl

/-- One tuple for each of some lengths, unless one of these is too long. -/
theorem mapM_repeatedTuple (item : TypeExpr) (immutable : Bool) (lengths : List Int) :
    lengths.mapM (repeatedTuple item immutable) =
      if ∃ n ∈ lengths, lengthLimit < n then .error .oversizedTuple
      else .ok (lengths.map fun n => tupleOf immutable (List.replicate n.toNat item)) := by
  induction lengths with
  | nil => simp [pure, Except.pure]
  | cons n rest ih =>
    rw [List.mapM_cons, ih, repeatedTuple_eq]
    by_cases hn : lengthLimit < n
    · have hmem : ∃ m ∈ n :: rest, lengthLimit < m := ⟨n, List.mem_cons_self, hn⟩
      rw [if_pos hmem, if_pos hn]
      rfl
    · rw [if_neg hn]
      by_cases hrest : ∃ m ∈ rest, lengthLimit < m
      · have hmem : ∃ m ∈ n :: rest, lengthLimit < m := by
          obtain ⟨m, hm, hlong⟩ := hrest
          exact ⟨m, List.mem_cons_of_mem n hm, hlong⟩
        rw [if_pos hmem, if_pos hrest]
        rfl
      · have hnone : ¬ ∃ m ∈ n :: rest, lengthLimit < m := by
          rintro ⟨m, hm, hlong⟩
          rcases List.mem_cons.mp hm with rfl | hmem
          · exact hn hlong
          · exact hrest ⟨m, hmem, hlong⟩
        rw [if_neg hnone, if_neg hrest]
        rfl

/-- The upper bound that counts is not below the lower one, and neither is negative. -/
theorem lengthBounds_le {s : Schema} {low high : Int} (h : lengthBounds s = (low, some high)) :
    0 ≤ low ∧ low ≤ high := by
  have hlow : 0 ≤ (s.minItems.filter (0 ≤ ·)).getD 0 := by
    cases hmin : s.minItems.filter (0 ≤ ·) with
    | none => exact Int.le_refl 0
    | some n => simpa using (Option.filter_eq_some_iff.mp hmin).2
  simp only [lengthBounds, Prod.mk.injEq] at h
  obtain ⟨rfl, hhigh⟩ := h
  have hfilter := (Option.filter_eq_some_iff.mp hhigh).2
  simp only [Bool.and_eq_true, decide_eq_true_eq] at hfilter
  exact ⟨hlow, hfilter.2⟩

theorem mem_lengthsBetween {low high n : Int} :
    n ∈ lengthsBetween low high ↔ low ≤ n ∧ n ≤ high := by
  simp only [lengthsBetween, List.mem_map, List.mem_range]
  constructor
  · rintro ⟨i, hi, rfl⟩
    simp only [Int.ofNat_eq_natCast]
    omega
  · intro h
    exact ⟨(n - low).toNat, by omega, by simp only [Int.ofNat_eq_natCast]; omega⟩

/-- One tuple for each length up to an upper bound fails for a tuple or a list that is too long. -/
theorem tuplesBetween_some (item : TypeExpr) (immutable : Bool) {low high : Int}
    (hle : low ≤ high) :
    tuplesBetween item immutable low (some high) =
      if lengthLimit < high ∨ low ≠ high ∧ lengthLimit < high - low + 1 then
        .error .oversizedTuple
      else if low = high then .ok (tupleOf immutable (List.replicate low.toNat item))
      else .ok (.unionOf ((lengthsBetween low high).map fun n =>
        tupleOf immutable (List.replicate n.toNat item))) := by
  unfold tuplesBetween
  dsimp only
  by_cases heq : low = high
  · subst heq
    rw [if_pos rfl, repeatedTuple_eq]
    simp
  · have hlong : (∃ n ∈ lengthsBetween low high, lengthLimit < n) ↔ lengthLimit < high := by
      constructor
      · rintro ⟨n, hn, h⟩
        have hbetween := mem_lengthsBetween.mp hn
        omega
      · intro h
        exact ⟨high, mem_lengthsBetween.mpr ⟨hle, Int.le_refl high⟩, h⟩
    rw [if_neg heq, if_neg heq, mapM_repeatedTuple]
    by_cases hmany : lengthLimit < high - low + 1
    · rw [if_pos hmany, if_pos (.inr ⟨heq, hmany⟩)]
    · rw [if_neg hmany]
      by_cases hhigh : lengthLimit < high
      · rw [if_pos (hlong.mpr hhigh), if_pos (.inl hhigh)]
        rfl
      · rw [if_neg (fun h => hhigh (hlong.mp h)), if_neg (by simp [hhigh, hmany])]
        rfl

/-- One tuple with an open end is short if the number of its elements is small. -/
theorem tuplesBetween_none (item : TypeExpr) (immutable : Bool) {low : Int} (h : low < 30) :
    tuplesBetween item immutable low none =
      .ok (tupleOf immutable (List.replicate low.toNat item ++ [.spread (.array item)])) := by
  have hshort : ¬ lengthLimit < low := by
    have hlimit : (30 : Int) ≤ lengthLimit := by decide
    omega
  unfold tuplesBetween repeated
  rw [if_neg hshort]
  rfl

/-- Expanding bounds fails exactly if they are too large in spite of the computed number. -/
theorem fixedLength_error_iff (s : Schema) (item : TypeExpr) (immutable : Bool) (e : TypingError) :
    fixedLength s item immutable = .error e ↔ e = .oversizedTuple ∧ s.Oversized := by
  unfold fixedLength Schema.Oversized
  cases hbounds : lengthBounds s with
  | mk low high =>
    dsimp only
    cases high with
    | none =>
      have hnever : ¬ ∃ low' high', (low, (none : Option Int)) = (low', some high') ∧
          expandedSize low' (some high') < 30 ∧
          (lengthLimit < high' ∨ low' ≠ high' ∧ lengthLimit < high' - low' + 1) := by
        rintro ⟨low', high', heq, -⟩
        cases heq
      split
      · constructor
        · rintro ⟨⟩
        · rintro ⟨-, h⟩
          exact absurd h hnever
      · rename_i hsmall
        have hlow : low < 30 := by
          apply Int.not_le.mp
          intro hlarge
          exact hsmall (by simp [expandedSize, hlarge])
        rw [tuplesBetween_none item immutable hlow]
        constructor
        · rintro ⟨⟩
        · rintro ⟨-, h⟩
          exact absurd h hnever
    | some high =>
      have hle := (lengthBounds_le hbounds).2
      rw [tuplesBetween_some item immutable hle]
      by_cases hsize : 30 ≤ expandedSize low (some high)
      · rw [if_pos (by simp [hsize])]
        constructor
        · rintro ⟨⟩
        · rintro ⟨-, low', high', heq, hlow', -⟩
          cases heq
          omega
      · rw [if_neg (by simp [hsize])]
        by_cases hlong : lengthLimit < high ∨ low ≠ high ∧ lengthLimit < high - low + 1
        · rw [if_pos hlong]
          constructor
          · rintro ⟨⟩
            exact ⟨rfl, low, high, rfl, by omega, hlong⟩
          · rintro ⟨rfl, -⟩
            rfl
        · rw [if_neg hlong]
          constructor
          · intro h
            split at h <;> cases h
          · rintro ⟨-, low', high', heq, -, hlong'⟩
            cases heq
            exact absurd hlong' hlong

/-- The type of an array fails exactly if its bounds are to be expanded and cannot be. -/
theorem arrayType_error_iff (s : Schema) (item : TypeExpr) (options : Options) (e : TypingError) :
    arrayType s item options = .error e ↔
      e = .oversizedTuple ∧ options.arrayLength = true ∧ s.Oversized := by
  unfold arrayType
  cases hexpand : options.arrayLength with
  | false =>
    constructor
    · rintro ⟨⟩
    · rintro ⟨-, h, -⟩
      cases h
  | true =>
    have hfixed := fixedLength_error_iff s item options.immutable e
    cases hrun : fixedLength s item options.immutable with
    | error e' =>
      rw [hrun] at hfixed
      simp only [if_true, true_and]
      change Except.error e' = Except.error e ↔ _
      rw [← hfixed, Except.error.injEq, Except.error.injEq]
    | ok found =>
      rw [hrun] at hfixed
      have hnot : ¬ (e = .oversizedTuple ∧ s.Oversized) := fun h => by cases hfixed.mpr h
      constructor
      · cases found <;> rintro ⟨⟩
      · rintro ⟨he, -, hs⟩
        exact absurd ⟨he, hs⟩ hnot

/-- The ways in which the elements of an array are written: without bounds, as one tuple of items
with or without an open end, or as a union of tuples of items. -/
inductive ArrayForm (item : TypeExpr) (immutable : Bool) : TypeExpr → Prop where
  | plain : ArrayForm item immutable (plainArray item immutable)
  | tuple (n : Nat) : ArrayForm item immutable (tupleOf immutable (List.replicate n item))
  | openTuple (n : Nat) : ArrayForm item immutable
    (tupleOf immutable (List.replicate n item ++ [.spread (.array item)]))
  | union (lengths : List Int) : ArrayForm item immutable
    (.unionOf (lengths.map fun n => tupleOf immutable (List.replicate n.toNat item)))

theorem fixedLength_form {s : Schema} {item t : TypeExpr} {immutable : Bool}
    (h : fixedLength s item immutable = .ok (some t)) : ArrayForm item immutable t := by
  unfold fixedLength at h
  cases hbounds : lengthBounds s with
  | mk low high =>
    rw [hbounds] at h
    dsimp only at h
    split at h
    · cases h
    · rename_i hsmall
      cases high with
      | none =>
        have hlow : low < 30 := by
          apply Int.not_le.mp
          intro hlarge
          exact hsmall (by simp [expandedSize, hlarge])
        rw [tuplesBetween_none item immutable hlow] at h
        cases h
        exact .openTuple _
      | some high =>
        rw [tuplesBetween_some item immutable (lengthBounds_le hbounds).2] at h
        split at h
        · cases h
        · split at h
          · cases h
            exact .tuple _
          · cases h
            exact .union _

/-- The type of an array has one of these forms. -/
theorem arrayType_form {s : Schema} {item t : TypeExpr} {options : Options}
    (h : arrayType s item options = .ok t) : ArrayForm item options.immutable t := by
  unfold arrayType at h
  cases hexpand : options.arrayLength with
  | false =>
    rw [hexpand] at h
    cases Except.ok.inj h
    exact .plain
  | true =>
    rw [hexpand] at h
    cases hfixed : fixedLength s item options.immutable with
    | error e =>
      rw [hfixed] at h
      cases h
    | ok found =>
      rw [hfixed] at h
      cases found with
      | none =>
        cases Except.ok.inj h
        exact .plain
      | some expanded =>
        cases Except.ok.inj h
        exact fixedLength_form hfixed

end ApiTypes
