import ApiTypes.Proofs.ArrayItems
import ApiTypes.Proofs.TupleLengths

/-!
Arrays with items by position. Their types make one tuple, which is the array itself unless bounds
on the number of items are expanded. The expansion takes that tuple for the type of every item, so
that in the tuples between the bounds it stands at each position.
-/

namespace ApiTypes

namespace Schema

/-- The schemas for the first items, and the keyword they stand under. -/
def positional? (s : Schema) : Option (String × List (Option Schema)) :=
  match s.prefixItems, s.items with
  | some schemas, _ => some ("prefixItems", schemas)
  | none, some (.tuple schemas) => some ("items", schemas)
  | none, _ => none

end Schema

namespace TypeExpr

/-- Where a tuple in the type has an element for one of the positions of `types`, it is that one. -/
def KeepsPrefix (t : TypeExpr) (types : List TypeExpr) : Prop :=
  ∀ elems ∈ t.tuples, ∀ (i : Nat) (e first : TypeExpr), elems[i]? = some e →
    types[i]? = some first → e = first

theorem tuples_tupleOf (immutable : Bool) (elems : List TypeExpr) :
    (tupleOf immutable elems).tuples = [elems] := by
  simp [tuples, unionMembers_tupleOf, asTuple?_tupleOf]

theorem ne_tuple_of_mem {t : TypeExpr} {types : List TypeExpr} (h : t ∈ types) :
    t ≠ .tuple types := by
  rintro rfl
  have hsize := List.sizeOf_lt_of_mem h
  simp only [tuple.sizeOf_spec] at hsize
  omega

end TypeExpr

open TypeExpr

/-- There is a tuple with a first element between the bounds, unless they admit only the empty
list. -/
theorem exists_cons_tupleLists {s : Schema} (hsome : lengthBounds s ≠ (0, none))
    (hlong : lengthBounds s ≠ (0, some 0)) (item : TypeExpr) :
    ∃ rest, item :: rest ∈ tupleLists item (lengthBounds s).1 (lengthBounds s).2 := by
  cases hbounds : lengthBounds s with
  | mk low high =>
    rw [hbounds] at hsome hlong
    have hlow := nonneg_of_lengthBounds hbounds
    cases high with
    | none =>
      have hpos : low.toNat = (low.toNat - 1) + 1 := by
        have hne : low ≠ 0 := fun heq => hsome (by rw [heq])
        omega
      refine ⟨List.replicate (low.toNat - 1) item ++ [.spread (.array item)], ?_⟩
      rw [tupleLists, hpos, List.replicate_succ]
      exact List.mem_singleton_self _
    | some high =>
      have hle := (lengthBounds_le hbounds).2
      have hpos : high.toNat = (high.toNat - 1) + 1 := by
        have hne : ¬ (low = 0 ∧ high = 0) := fun h => hlong (by rw [h.1, h.2])
        omega
      refine ⟨List.replicate (high.toNat - 1) item, ?_⟩
      rw [← List.replicate_succ, ← hpos]
      exact List.mem_map_of_mem (f := fun n : Int => List.replicate n.toNat item)
        (mem_lengthsBetween.mpr ⟨hle, Int.le_refl high⟩)

/-- How an array is written whose first items have the types `types`. -/
structure WrittenFrom (s : Schema) (types : List TypeExpr) (options : Options) (core : TypeExpr) :
    Prop where
  /-- Without expansion it is the tuple of them. -/
  plain : ¬ (options.arrayLength = true ∧ s.IsExpanded) → core = tupleOf options.immutable types
  /-- The expansion repeats that tuple. -/
  expanded : options.arrayLength = true ∧ s.IsExpanded →
    core.tuples = tupleLists (.tuple types) (lengthBounds s).1 (lengthBounds s).2
  /-- So the types keep their positions only where there is nothing to repeat. -/
  kept : core.KeepsPrefix types ↔
    ¬ (options.arrayLength = true ∧ s.IsExpanded) ∨ types = [] ∨ lengthBounds s = (0, some 0)

theorem writtenFrom_plain {s : Schema} {options : Options}
    (h : ¬ (options.arrayLength = true ∧ s.IsExpanded)) (types : List TypeExpr) :
    WrittenFrom s types options (tupleOf options.immutable types) := by
  refine ⟨fun _ => rfl, fun hexpanded => absurd hexpanded h, iff_of_true ?_ (.inl h)⟩
  intro elems helems i e first he hfirst
  rw [tuples_tupleOf, List.mem_singleton] at helems
  subst helems
  exact Option.some.inj (he.symm.trans hfirst)

theorem writtenFrom_expanded {s : Schema} {options : Options}
    (h : options.arrayLength = true ∧ s.IsExpanded) {types : List TypeExpr} {core : TypeExpr}
    (hcore : core.tuples = tupleLists (.tuple types) (lengthBounds s).1 (lengthBounds s).2) :
    WrittenFrom s types options core := by
  refine ⟨fun hplain => absurd h hplain, fun _ => hcore, ?_⟩
  constructor
  · intro hkept
    refine .inr (Classical.or_iff_not_imp_right.mpr fun hlong => ?_)
    obtain ⟨rest, hrest⟩ := exists_cons_tupleLists h.2.1 hlong (.tuple types)
    rw [← hcore] at hrest
    cases types with
    | nil => rfl
    | cons first others =>
      have heq := hkept _ hrest 0 _ first rfl rfl
      exact absurd heq.symm (ne_tuple_of_mem List.mem_cons_self)
  · rintro (hplain | rfl | hempty)
    · exact absurd h hplain
    · rintro elems - i e first - ⟨⟩
    · intro elems helems i e first he
      rw [hcore, hempty] at helems
      have hnil : elems = [] := by simpa [tupleLists, lengthsBetween] using helems
      subst hnil
      cases he

/-- The array is written so, unless its bounds are to be expanded and cannot be. -/
theorem arrayType_tuple (s : Schema) (types : List TypeExpr) (options : Options)
    (h : ¬ (options.arrayLength = true ∧ s.Oversized)) :
    ∃ core, arrayType s (.tuple types) options = .ok core ∧ WrittenFrom s types options core := by
  cases hrun : arrayType s (.tuple types) options with
  | error e => exact absurd ((arrayType_error_iff s _ options e).mp hrun).2 h
  | ok core =>
    refine ⟨core, rfl, ?_⟩
    unfold arrayType at hrun
    by_cases hexpanded : options.arrayLength = true ∧ s.IsExpanded
    · obtain ⟨hlength, hbounds⟩ := hexpanded
      rw [hlength] at hrun
      cases hfixed : fixedLength s (.tuple types) options.immutable with
      | error e =>
        rw [hfixed] at hrun
        cases hrun
      | ok found =>
        rw [hfixed] at hrun
        cases found with
        | none =>
          rw [fixedLength_of_expanded hbounds] at hfixed
          cases htuples : tuplesBetween (.tuple types) options.immutable (lengthBounds s).1
            (lengthBounds s).2 <;> rw [htuples] at hfixed <;> cases hfixed
        | some t =>
          cases hrun
          apply writtenFrom_expanded ⟨hlength, hbounds⟩
          rw [(fixedLength_some hfixed).2, tuples_unionOf]
    · have hplain : core = tupleOf options.immutable types := by
        cases hlength : options.arrayLength with
        | false =>
          rw [hlength] at hrun
          cases hrun
          rfl
        | true =>
          rw [hlength, fixedLength_of_not_expanded fun hbounds => hexpanded ⟨hlength, hbounds⟩]
            at hrun
          cases hrun
          rfl
      rw [hplain]
      exact writtenFrom_plain hexpanded types

namespace Typing

variable {σ : Setting}

theorem exec_itemType_positional {s : Schema} {keyword : String} {schemas : List (Option Schema)}
    (h : s.positional? = some (keyword, schemas)) (body : SchemaBody) (place : String)
    (p : Progress) :
    exec (itemType body s place) σ p =
      exec (TypeExpr.tuple <$> typesAt body (Reference.join place [keyword]) schemas.zipIdx)
        σ p := by
  unfold Schema.positional? at h
  unfold itemType
  split at h
  · rename_i schemas' heq
    cases h
    rw [heq]
  · rename_i schemas' hnone heq
    cases h
    rw [hnone, heq]
  · cases h

/-- An array with items by position is made from their types. -/
theorem exec_coreType?_positional {s : Schema} (htypes : s.types = some ["array"])
    {keyword : String} {schemas : List (Option Schema)}
    (hpositional : s.positional? = some (keyword, schemas)) {body : SchemaBody} {place : String}
    {p q : Progress} {types : List TypeExpr}
    (hrun : exec (typesAt body (Reference.join place [keyword]) schemas.zipIdx) σ p =
      (.ok types, q)) :
    exec (coreType? body s place) σ p =
      ((arrayType s (.tuple types) σ.options).map some, q) := by
  unfold coreType?
  rw [htypes]
  simp only [Option.getD_some]
  rw [exec_bind, exec_itemType_positional hpositional, exec_map, hrun]
  change exec (some <$> ofExcept (arrayType s (.tuple types) σ.options)) σ q = _
  rw [exec_map]
  cases arrayType s (.tuple types) σ.options <;> rfl

/-- Whatever its first items are, an array is written from their types: it fails where its bounds
cannot be expanded, and keeps the types in their positions where that has no effect. -/
theorem coreType?_writtenFrom {s : Schema} (htypes : s.types = some ["array"])
    {keyword : String} {schemas : List (Option Schema)}
    (hpositional : s.positional? = some (keyword, schemas)) {body : SchemaBody} {place : String}
    {p q : Progress} {types : List TypeExpr}
    (hrun : exec (typesAt body (Reference.join place [keyword]) schemas.zipIdx) σ p =
      (.ok types, q)) :
    (σ.options.arrayLength = true ∧ s.Oversized →
      exec (coreType? body s place) σ p = (.error .oversizedTuple, q)) ∧
    (¬ (σ.options.arrayLength = true ∧ s.Oversized) →
      ∃ core, exec (coreType? body s place) σ p = (.ok (some core), q) ∧
        WrittenFrom s types σ.options core) := by
  rw [exec_coreType?_positional htypes hpositional hrun]
  constructor
  · intro hlong
    rw [(arrayType_error_iff s (.tuple types) σ.options .oversizedTuple).mpr ⟨rfl, hlong⟩]
    rfl
  · intro hshort
    obtain ⟨core, hcore, hwritten⟩ := arrayType_tuple s types σ.options hshort
    exact ⟨core, by rw [hcore]; rfl, hwritten⟩

/-- Pairs of one or two items, with bounds that are expanded. -/
def boundedPair : Schema := { pairSchema with minItems := some 1, maxItems := some 2 }

theorem coreType?_writtenFrom_pair :
    exec (typesAt (schemaBody 2) "#/prefixItems"
      [(some { types := some ["string"] }, 0), (some { types := some ["number"] }, 1)])
      { options := { arrayLength := true } } {} = (.ok [.string, .number], {}) ∧
    ∃ core, exec (coreType? (schemaBody 2) boundedPair "#")
        { options := { arrayLength := true } } {} = (.ok (some core), {}) ∧
      WrittenFrom boundedPair [.string, .number] { arrayLength := true } core := by
  have hfits : ¬ boundedPair.Oversized := by
    rintro ⟨low, high, hbounds, -, hlong⟩
    cases hbounds
    revert hlong
    decide
  exact ⟨rfl, (coreType?_writtenFrom (s := boundedPair) rfl rfl rfl).2 fun h => hfits h.2⟩

/-- A pair of exactly two items is written as two pairs. -/
theorem pair_of_pairs :
    exec (coreType? (schemaBody 2) { pairSchema with minItems := some 2, maxItems := some 2 } "#")
      { options := { arrayLength := true } } {} =
        (.ok (some (.tuple [.tuple [.string, .number], .tuple [.string, .number]])), {}) ∧
    ¬ (TypeExpr.tuple [.tuple [.string, .number], .tuple [.string, .number]]).KeepsPrefix
      [.string, .number] := by
  refine ⟨rfl, fun hkept => ?_⟩
  cases hkept _ (List.mem_singleton_self _) 0 _ _ rfl rfl

end Typing

end ApiTypes
