import ApiTypes.Proofs.ArrayLength

/-!
The lengths of tuples. A type that is written for bounds on the number of items describes lists of
exactly the lengths within the bounds, however large these are. Its tuples have few elements
together as long as the number computed for them does not wrap around; once it does, they have at
least as many as half the numbers of a machine word, and often the tuples cannot be built at all.
-/

namespace ApiTypes

namespace TypeExpr

def isSpread : TypeExpr → Bool
  | .spread _ => true
  | _ => false

mutual

/-- The type describes some list of `n` items. -/
inductive AdmitsLength : TypeExpr → Nat → Prop where
  | array (elem : TypeExpr) (n : Nat) : AdmitsLength (.array elem) n
  | tuple {elems : List TypeExpr} {n : Nat} : Fill elems n → AdmitsLength (.tuple elems) n
  | readonly {t : TypeExpr} {n : Nat} : AdmitsLength t n → AdmitsLength (.readonly t) n
  | union {types : List TypeExpr} {t : TypeExpr} {n : Nat} :
    t ∈ types → AdmitsLength t n → AdmitsLength (.union types) n

/-- Some `n` items fill the places of a tuple; an open end takes a list of its own. -/
inductive Fill : List TypeExpr → Nat → Prop where
  | nil : Fill [] 0
  | elem {e : TypeExpr} {rest : List TypeExpr} {n : Nat} :
    e.isSpread = false → Fill rest n → Fill (e :: rest) (n + 1)
  | spread {t : TypeExpr} {rest : List TypeExpr} {m n : Nat} :
    AdmitsLength t m → Fill rest n → Fill (.spread t :: rest) (m + n)

end

/-- The elements of a tuple type, read-only or not. -/
def asTuple? : TypeExpr → Option (List TypeExpr)
  | .tuple elems => some elems
  | .readonly (.tuple elems) => some elems
  | _ => none

/-- The tuples that a type is the union of. -/
def tuples (t : TypeExpr) : List (List TypeExpr) := t.unionMembers.filterMap asTuple?

/-- How many elements these have together, open ends not counted. -/
def elementCount (t : TypeExpr) : Nat := (t.tuples.flatMap (·.filter (!·.isSpread))).length

theorem fill_replicate_append {item : TypeExpr} (hitem : item.isSpread = false)
    (rest : List TypeExpr) (k n : Nat) :
    Fill (List.replicate k item ++ rest) n ↔ ∃ m, n = k + m ∧ Fill rest m := by
  induction k generalizing n with
  | zero =>
    rw [List.replicate_zero, List.nil_append]
    constructor
    · intro h
      exact ⟨n, by omega, h⟩
    · rintro ⟨m, hm, h⟩
      rwa [show n = m by omega]
  | succ k ih =>
    rw [List.replicate_succ, List.cons_append]
    constructor
    · intro h
      cases h with
      | elem _ hrest =>
        obtain ⟨m, rfl, hm⟩ := (ih _).mp hrest
        exact ⟨m, by omega, hm⟩
      | spread => cases hitem
    · rintro ⟨m, rfl, hm⟩
      rw [show k + 1 + m = k + m + 1 by omega]
      exact .elem hitem ((ih _).mpr ⟨m, rfl, hm⟩)

theorem fill_nil (n : Nat) : Fill [] n ↔ n = 0 := by
  constructor
  · rintro ⟨⟩
    rfl
  · rintro rfl
    exact .nil

theorem admitsLength_tupleOf (immutable : Bool) (elems : List TypeExpr) (n : Nat) :
    (tupleOf immutable elems).AdmitsLength n ↔ Fill elems n := by
  cases immutable with
  | false =>
    constructor
    · rintro ⟨⟩
      assumption
    · exact .tuple
  | true =>
    constructor
    · rintro (_ | _ | ⟨⟨⟩⟩)
      assumption
    · exact fun h => .readonly (.tuple h)

theorem admitsLength_union (types : List TypeExpr) (n : Nat) :
    (TypeExpr.union types).AdmitsLength n ↔ ∃ t ∈ types, t.AdmitsLength n := by
  constructor
  · rintro (_ | _ | _ | ⟨hmem, ht⟩)
    exact ⟨_, hmem, ht⟩
  · rintro ⟨t, hmem, ht⟩
    exact .union hmem ht

theorem isSimple_tupleOf (immutable : Bool) (elems : List TypeExpr) :
    (tupleOf immutable elems).isSimple = false := by
  cases immutable <;> rfl

theorem unionMembers_tupleOf (immutable : Bool) (elems : List TypeExpr) :
    (tupleOf immutable elems).unionMembers = [tupleOf immutable elems] := by
  cases immutable <;> rfl

theorem asTuple?_tupleOf (immutable : Bool) (elems : List TypeExpr) :
    (tupleOf immutable elems).asTuple? = some elems := by
  cases immutable <;> rfl

theorem dedupe_eq_self {types : List TypeExpr} (h : ∀ t ∈ types, t.isSimple = false)
    (seen : List String) : dedupe seen types = types := by
  induction types with
  | nil => rfl
  | cons t rest ih =>
    obtain ⟨ht, hrest⟩ := List.forall_mem_cons.mp h
    rw [dedupe, if_neg (by simp [ht]), ih hrest]

theorem unionOf_tuples (immutable : Bool) (lists : List (List TypeExpr)) :
    unionOf (lists.map (tupleOf immutable)) =
      match lists with
      | [] => never
      | [elems] => tupleOf immutable elems
      | lists => .union (lists.map (tupleOf immutable)) := by
  have hflat : (lists.map (tupleOf immutable)).flatMap unionMembers =
      lists.map (tupleOf immutable) := by
    rw [List.flatMap_map]
    simp only [unionMembers_tupleOf, List.map_eq_flatMap]
  have hkept : dedupe [] (lists.map (tupleOf immutable)) = lists.map (tupleOf immutable) := by
    apply dedupe_eq_self
    intro t ht
    obtain ⟨elems, -, rfl⟩ := List.mem_map.mp ht
    exact isSimple_tupleOf immutable elems
  rw [unionOf, hflat, joinUnion, hkept]
  match lists with
  | [] => rfl
  | [_] => rfl
  | _ :: _ :: _ => rfl

theorem filterMap_tupleOf (immutable : Bool) (lists : List (List TypeExpr)) :
    (lists.map (tupleOf immutable)).filterMap asTuple? = lists := by
  induction lists with
  | nil => rfl
  | cons elems rest ih => rw [List.map_cons, List.filterMap_cons_some (asTuple?_tupleOf ..), ih]

/-- A union keeps all the tuples that it is made of. -/
theorem tuples_unionOf (immutable : Bool) (lists : List (List TypeExpr)) :
    (unionOf (lists.map (tupleOf immutable))).tuples = lists := by
  rw [unionOf_tuples]
  match lists with
  | [] => rfl
  | [elems] => simp [tuples, unionMembers_tupleOf, asTuple?_tupleOf]
  | _ :: _ :: _ =>
    exact filterMap_tupleOf immutable _

theorem admitsLength_unionOf (immutable : Bool) (lists : List (List TypeExpr)) (n : Nat) :
    (unionOf (lists.map (tupleOf immutable))).AdmitsLength n ↔ ∃ elems ∈ lists, Fill elems n := by
  rw [unionOf_tuples]
  match lists with
  | [] =>
    constructor
    · nofun
    · rintro ⟨_, ⟨⟩, -⟩
  | [elems] => simp [admitsLength_tupleOf]
  | _ :: _ :: _ =>
    rw [admitsLength_union]
    constructor
    · rintro ⟨_, hmem, hn⟩
      obtain ⟨elems, helems, rfl⟩ := List.mem_map.mp hmem
      exact ⟨elems, helems, (admitsLength_tupleOf immutable elems n).mp hn⟩
    · rintro ⟨elems, helems, hn⟩
      exact ⟨_, List.mem_map_of_mem helems, (admitsLength_tupleOf immutable elems n).mpr hn⟩

end TypeExpr

open TypeExpr

namespace Schema

/-- The least number of items; a negative bound counts for nothing. -/
def fewest (s : Schema) : Int := max 0 (s.minItems.getD 0)

/-- A list of `n` items is within the bounds. An upper bound below the lower one counts for
nothing. -/
def AllowsLength (s : Schema) (n : Nat) : Prop :=
  s.fewest ≤ n ∧ ∀ high ∈ s.maxItems, s.fewest ≤ high → n ≤ high

/-- How many elements the tuples between the bounds have together, in unbounded arithmetic. -/
def elementsBetween (s : Schema) : Int :=
  match lengthBounds s with
  | (low, none) => low
  | (low, some high) => (high * (high + 1) - low * (low - 1)) / 2

/-- There are bounds that count, and the number computed for them is small. -/
def IsExpanded (s : Schema) : Prop :=
  lengthBounds s ≠ (0, none) ∧ expandedSize (lengthBounds s).1 (lengthBounds s).2 < 30

/-- Twice the number of elements is more than a machine word can hold. -/
def CountOverflows (s : Schema) : Prop :=
  ∃ low high, lengthBounds s = (low, some high) ∧
    (twoTo 63 : Int) ≤ high * (high + 1) - low * (low - 1)

end Schema

theorem lengthBounds_low (s : Schema) : (lengthBounds s).1 = s.fewest := by
  unfold lengthBounds Schema.fewest
  cases s.minItems with
  | none => rfl
  | some low =>
    change (Option.filter (fun x => decide (0 ≤ x)) (some low)).getD 0 = max 0 low
    by_cases hlow : 0 ≤ low
    · rw [Int.max_eq_right hlow]
      simp [Option.filter, hlow]
    · rw [Int.max_eq_left (Int.le_of_lt (Int.not_le.mp hlow))]
      simp [Option.filter, hlow]

theorem nonneg_of_lengthBounds {s : Schema} {low : Int} {high : Option Int}
    (h : lengthBounds s = (low, high)) : 0 ≤ low := by
  have hlow : low = s.fewest := by rw [← lengthBounds_low, h]
  rw [hlow]
  exact Int.le_max_left _ _

theorem allowsLength_iff {s : Schema} {low : Int} {high : Option Int}
    (h : lengthBounds s = (low, high)) (n : Nat) :
    s.AllowsLength n ↔ low ≤ n ∧ ∀ most ∈ high, n ≤ most := by
  have hlow : s.fewest = low := by rw [← lengthBounds_low, h]
  have hhigh : s.maxItems.filter (fun most => 0 ≤ most && low ≤ most) = high := by
    rw [← hlow, ← lengthBounds_low]
    exact congrArg Prod.snd h
  have hfewest : 0 ≤ low := nonneg_of_lengthBounds h
  unfold Schema.AllowsLength
  rw [hlow, ← hhigh]
  cases s.maxItems with
  | none => simp
  | some most =>
    by_cases hmost : low ≤ most
    · simp [Option.filter, hmost, Int.le_trans hfewest hmost]
    · simp [Option.filter, hmost]

/-- Everything is within the bounds only if there are none that count. -/
theorem allowsLength_all_iff {s : Schema} {low : Int} {high : Option Int}
    (h : lengthBounds s = (low, high)) :
    (∀ n, s.AllowsLength n) ↔ low = 0 ∧ high = none := by
  simp only [allowsLength_iff h]
  constructor
  · intro hall
    have hlow : 0 ≤ low := nonneg_of_lengthBounds h
    refine ⟨by have := (hall 0).1; omega, ?_⟩
    cases high with
    | none => rfl
    | some most =>
      have hnext := (hall (most + 1).toNat).2 most rfl
      omega
  · rintro ⟨rfl, rfl⟩ n
    exact ⟨by omega, nofun⟩

/-- The number of elements of the tuples between two bounds is at least the longest length. -/
theorem longest_le_elements {low high : Int} (hlow : 0 ≤ low) (hle : low ≤ high) :
    high ≤ high * (high + 1) - low * (low - 1) := by
  have hfactor : high * (high + 1) - low * (low - 1) =
      (high - low) * (high + low) + high + low := by
    simp only [Int.mul_add, Int.mul_sub, Int.sub_mul, Int.mul_one, Int.mul_comm high low]
    omega
  have hnonneg : 0 ≤ (high - low) * (high + low) := Int.mul_nonneg (by omega) (by omega)
  omega

/-- The closed formula for the number of elements, by induction on the number of tuples. -/
theorem length_flatMap_replicate (item : TypeExpr) {low : Int} (hlow : 0 ≤ low) (k : Nat) :
    2 * (((List.range k).flatMap fun i : Nat =>
      List.replicate (low + Int.ofNat i).toNat item).length : Int) =
      (low + k - 1) * (low + k) - low * (low - 1) := by
  induction k with
  | zero => simp [Int.mul_comm]
  | succ k ih =>
    rw [List.range_succ, List.flatMap_append, List.length_append, Int.natCast_add, Int.mul_add, ih]
    simp only [List.flatMap_cons, List.flatMap_nil, List.append_nil, List.length_replicate]
    have hstep : (low + ↑(k + 1) - 1) * (low + ↑(k + 1)) =
        (low + k - 1) * (low + k) + 2 * (low + k) := by
      rw [show low + ((k + 1 : Nat) : Int) - 1 = low + k by omega,
        show low + ((k + 1 : Nat) : Int) = low + k + 1 by omega, Int.sub_mul, Int.mul_add]
      omega
    rw [hstep]
    simp only [Int.ofNat_eq_natCast]
    omega

/-- The elements of the tuples between two bounds. -/
def tupleLists (item : TypeExpr) (low : Int) : Option Int → List (List TypeExpr)
  | none => [List.replicate low.toNat item ++ [.spread (.array item)]]
  | some high => (lengthsBetween low high).map fun n => List.replicate n.toNat item

/-- The type between two bounds is the union of these tuples. -/
theorem tuplesBetween_eq {item t : TypeExpr} {immutable : Bool} {low : Int} {high : Option Int}
    (hle : ∀ most ∈ high, low ≤ most) (h : tuplesBetween item immutable low high = .ok t) :
    t = unionOf ((tupleLists item low high).map (tupleOf immutable)) := by
  cases high with
  | none =>
    unfold tuplesBetween repeated at h
    dsimp only at h
    by_cases hlong : lengthLimit < low
    · rw [if_pos hlong] at h
      cases h
    · rw [if_neg hlong] at h
      cases h
      rw [tupleLists, unionOf_tuples]
  | some high =>
    rw [tuplesBetween_some item immutable (hle high rfl)] at h
    split at h
    · cases h
    · split at h
      · rename_i heq
        cases h
        subst heq
        have hone : lengthsBetween low low = [low] := by
          simp [lengthsBetween]
        rw [tupleLists, hone, unionOf_tuples]
        rfl
      · cases h
        rw [tupleLists, List.map_map]
        rfl

/-- They are filled by the numbers of items between the bounds. -/
theorem fill_tupleLists {item : TypeExpr} (hitem : item.isSpread = false) {low : Int}
    (hlow : 0 ≤ low) (high : Option Int) (n : Nat) :
    (∃ elems ∈ tupleLists item low high, Fill elems n) ↔ low ≤ n ∧ ∀ most ∈ high, n ≤ most := by
  cases high with
  | none =>
    simp only [tupleLists, List.mem_singleton, exists_eq_left, fill_replicate_append hitem]
    constructor
    · rintro ⟨m, rfl, -⟩
      exact ⟨by omega, nofun⟩
    · rintro ⟨hn, -⟩
      exact ⟨n - low.toNat, by omega, .spread (.array item _) .nil⟩
  | some high =>
    have hfill (k : Int) : Fill (List.replicate k.toNat item) n ↔ n = k.toNat := by
      have h := fill_replicate_append hitem [] k.toNat n
      rw [List.append_nil] at h
      simp [h, fill_nil]
    simp only [tupleLists, List.mem_map, mem_lengthsBetween, Option.mem_some_iff, forall_eq']
    constructor
    · rintro ⟨_, ⟨k, hk, rfl⟩, hn⟩
      rw [hfill] at hn
      omega
    · intro hn
      exact ⟨_, ⟨n, hn, rfl⟩, (hfill n).mpr (by omega)⟩

/-- How the tuples between the bounds are written. -/
structure Covers (s : Schema) (t : TypeExpr) : Prop where
  /-- They describe the lists of the lengths within the bounds. -/
  lengths : ∀ n, t.AdmitsLength n ↔ s.AllowsLength n
  /-- They have as many elements as the bounds ask for. -/
  count : (t.elementCount : Int) = s.elementsBetween
  /-- These are few unless the number of them wraps around. -/
  few : t.elementCount < 30 ↔ ¬ s.CountOverflows

theorem elementsBetween_some {s : Schema} {low high : Int}
    (h : lengthBounds s = (low, some high)) :
    s.elementsBetween = (high * (high + 1) - low * (low - 1)) / 2 := by
  rw [Schema.elementsBetween, h]

theorem countOverflows_iff {s : Schema} {low high : Int}
    (h : lengthBounds s = (low, some high)) :
    s.CountOverflows ↔ (twoTo 63 : Int) ≤ high * (high + 1) - low * (low - 1) := by
  constructor
  · rintro ⟨low', high', heq, hlarge⟩
    rw [h] at heq
    cases heq
    exact hlarge
  · exact fun hlarge => ⟨low, high, h, hlarge⟩

theorem bmod_word {n : Int} (h : 0 ≤ n) (hword : n < (twoTo 63 : Int)) :
    Int.bmod n (twoTo 64) = n := by
  simp only [twoTo, Nat.pow_eq] at hword ⊢
  exact Int.bmod_eq_of_le (by omega) (by omega)

/-- The computed number is right as long as it does not wrap around. -/
theorem expandedSize_eq {s : Schema} (hfew : ¬ s.CountOverflows) :
    expandedSize (lengthBounds s).1 (lengthBounds s).2 = s.elementsBetween := by
  cases hbounds : lengthBounds s with
  | mk low high =>
    cases high with
    | none =>
      rw [Schema.elementsBetween, hbounds]
      rfl
    | some high =>
      obtain ⟨hlow, hle⟩ := lengthBounds_le hbounds
      have hlongest := longest_le_elements hlow hle
      rw [countOverflows_iff hbounds, Int.not_le] at hfew
      rw [elementsBetween_some hbounds, expandedSize, bmod_word (by omega) hfew,
        Int.tdiv_eq_ediv_of_nonneg (by omega)]

/-- A small computed number is right exactly if it did not wrap around. -/
theorem elementsBetween_lt_iff {s : Schema}
    (hsize : expandedSize (lengthBounds s).1 (lengthBounds s).2 < 30) :
    s.elementsBetween < 30 ↔ ¬ s.CountOverflows := by
  constructor
  · rintro hfew ⟨low, high, hbounds, hword⟩
    rw [elementsBetween_some hbounds] at hfew
    simp only [twoTo, Nat.pow_eq] at hword
    omega
  · intro hfew
    rwa [← expandedSize_eq hfew]

theorem length_tupleLists {s : Schema} {low : Int} {high : Option Int}
    (h : lengthBounds s = (low, high)) {item : TypeExpr} (hitem : item.isSpread = false) :
    (((tupleLists item low high).flatMap (·.filter (!·.isSpread))).length : Int) =
      s.elementsBetween := by
  have hlow := nonneg_of_lengthBounds h
  cases high with
  | none =>
    have hopen : (TypeExpr.spread (.array item)).isSpread = true := rfl
    rw [Schema.elementsBetween, h]
    simp [tupleLists, hitem, hopen, Int.max_eq_left hlow]
  | some high =>
    have hle := (lengthBounds_le h).2
    have hformula := length_flatMap_replicate item hlow (high - low + 1).toNat
    rw [show low + ((high - low + 1).toNat : Int) - 1 = high by omega,
      show low + ((high - low + 1).toNat : Int) = high + 1 by omega] at hformula
    rw [elementsBetween_some h, ← hformula, tupleLists, lengthsBetween, List.map_map,
      List.flatMap_map]
    simp [hitem]

theorem covers_unionOf {s : Schema} {low : Int} {high : Option Int}
    (h : lengthBounds s = (low, high)) (hsize : expandedSize low high < 30) {item : TypeExpr}
    (hitem : item.isSpread = false) (immutable : Bool) :
    Covers s (unionOf ((tupleLists item low high).map (tupleOf immutable))) := by
  have hcount :
      ((unionOf ((tupleLists item low high).map (tupleOf immutable))).elementCount : Int) =
        s.elementsBetween := by
    rw [elementCount, tuples_unionOf, length_tupleLists h hitem]
  refine ⟨fun n => ?_, hcount, ?_⟩
  · rw [admitsLength_unionOf, fill_tupleLists hitem (nonneg_of_lengthBounds h), allowsLength_iff h]
  · have hfew : s.elementsBetween < 30 ↔ ¬ s.CountOverflows :=
      elementsBetween_lt_iff (by rw [h]; exact hsize)
    rw [← hfew, ← hcount]
    omega

theorem fixedLength_of_not_expanded {s : Schema} (h : ¬ s.IsExpanded) (item : TypeExpr)
    (immutable : Bool) : fixedLength s item immutable = .ok none := by
  unfold fixedLength Schema.IsExpanded at *
  cases hbounds : lengthBounds s with
  | mk low high =>
    rw [hbounds] at h
    dsimp only at h ⊢
    rw [if_pos]
    by_cases hnone : low = 0 ∧ high = none
    · simp [hnone]
    · have hlarge : 30 ≤ expandedSize low high := by
        apply Int.not_lt.mp
        exact fun hsmall => h ⟨fun heq => hnone (by simpa using heq), hsmall⟩
      simp [hlarge]

theorem fixedLength_of_expanded {s : Schema} (h : s.IsExpanded) (item : TypeExpr)
    (immutable : Bool) :
    fixedLength s item immutable =
      some <$> tuplesBetween item immutable (lengthBounds s).1 (lengthBounds s).2 := by
  unfold fixedLength
  obtain ⟨hsome, hsmall⟩ := h
  cases hbounds : lengthBounds s with
  | mk low high =>
    rw [hbounds] at hsome hsmall
    dsimp only at hsmall ⊢
    rw [if_neg]
    have hnone : ¬ (low = 0 ∧ high = none) := fun ⟨hl, hh⟩ => hsome (by rw [hl, hh])
    simpa [hsmall] using fun hl hh => hnone ⟨hl, hh⟩

/-- Only expanded bounds give a type, the union of the tuples between them. -/
theorem fixedLength_some {s : Schema} {item t : TypeExpr} {immutable : Bool}
    (h : fixedLength s item immutable = .ok (some t)) :
    s.IsExpanded ∧
      t = unionOf ((tupleLists item (lengthBounds s).1 (lengthBounds s).2).map
        (tupleOf immutable)) := by
  by_cases hexpanded : s.IsExpanded
  · rw [fixedLength_of_expanded hexpanded] at h
    refine ⟨hexpanded, ?_⟩
    cases htuples : tuplesBetween item immutable (lengthBounds s).1 (lengthBounds s).2 with
    | error e =>
      rw [htuples] at h
      cases h
    | ok found =>
      rw [htuples] at h
      cases h
      exact tuplesBetween_eq (fun most hmost => (lengthBounds_le (Prod.ext rfl hmost)).2) htuples
  · rw [fixedLength_of_not_expanded hexpanded] at h
    cases h

/-- As long as the number of elements does not wrap around, no tuple is too long. -/
theorem not_oversized {s : Schema} (h : ¬ s.CountOverflows) : ¬ s.Oversized := by
  rintro ⟨low, high, hbounds, hsize, hlong⟩
  have hcomputed := expandedSize_eq h
  rw [hbounds, elementsBetween_some hbounds] at hcomputed
  have hlongest := longest_le_elements (nonneg_of_lengthBounds hbounds) (lengthBounds_le hbounds).2
  have hlow := nonneg_of_lengthBounds hbounds
  rw [show lengthLimit = (17592186044416 : Int) by decide] at hlong
  dsimp only at hcomputed
  omega

/-- Expanding bounds covers them exactly. It gives a type just for bounds with few elements, if the
number of these can be computed; otherwise it may fail, and what it gives is never small. -/
theorem fixedLength_exact {item : TypeExpr} (hitem : item.isSpread = false) (s : Schema)
    (immutable : Bool) :
    (¬ s.CountOverflows → ∃ found, fixedLength s item immutable = .ok found ∧
      (found.isSome ↔ (∃ n, ¬ s.AllowsLength n) ∧ s.elementsBetween < 30)) ∧
    ∀ t, fixedLength s item immutable = .ok (some t) → Covers s t := by
  constructor
  · intro hfew
    have hexpanded : s.IsExpanded ↔ (∃ n, ¬ s.AllowsLength n) ∧ s.elementsBetween < 30 := by
      rw [Schema.IsExpanded, expandedSize_eq hfew, ← Classical.not_forall,
        allowsLength_all_iff (s := s) rfl, ← Prod.mk.injEq]
      rfl
    rw [← hexpanded]
    by_cases hsmall : s.IsExpanded
    · have hrun := fixedLength_of_expanded hsmall item immutable
      cases htuples : tuplesBetween item immutable (lengthBounds s).1 (lengthBounds s).2 with
      | error e =>
        rw [htuples] at hrun
        exact absurd ((fixedLength_error_iff s item immutable e).mp hrun).2 (not_oversized hfew)
      | ok t =>
        rw [htuples] at hrun
        exact ⟨some t, hrun, iff_of_true rfl hsmall⟩
    · exact ⟨none, fixedLength_of_not_expanded hsmall item immutable, iff_of_false nofun hsmall⟩
  · intro t h
    obtain ⟨⟨-, hsize⟩, rfl⟩ := fixedLength_some h
    exact covers_unionOf rfl hsize hitem immutable

/-- One or two texts. -/
theorem fixedLength_exact_one_or_two :
    let s : Schema := { minItems := some 1, maxItems := some 2 }
    isSpread .string = false ∧ ¬ s.CountOverflows ∧
      fixedLength s .string false =
        .ok (some (.union [.tuple [.string], .tuple [.string, .string]])) ∧
      Covers s (.union [.tuple [.string], .tuple [.string, .string]]) := by
  intro s
  have hfew : ¬ s.CountOverflows := by
    have hbounds : lengthBounds s = (1, some 2) := rfl
    rw [countOverflows_iff hbounds]
    decide
  exact ⟨rfl, hfew, rfl, (fixedLength_exact rfl s false).2 _ rfl⟩

/-- The number computed for up to four billion texts wraps around, so that all the tuples are
written out; more still, and they cannot even be built. -/
theorem fixedLength_not_bounded :
    (∃ t, fixedLength { maxItems := some 4000000000 } .string false = .ok (some t) ∧
      30 ≤ t.elementCount) ∧
    fixedLength { maxItems := some 9223372036854775807 } .string false =
      .error .oversizedTuple := by
  constructor
  · have hbounds : lengthBounds { maxItems := some 4000000000 } = (0, some 4000000000) := rfl
    obtain ⟨t, ht⟩ : ∃ t, tuplesBetween .string false 0 (some 4000000000) = .ok t := by
      rw [tuplesBetween_some .string false (by decide), if_neg (by decide), if_neg (by decide)]
      exact ⟨_, rfl⟩
    have hsize : expandedSize 0 (some 4000000000) < 30 := by decide
    have hrun : fixedLength { maxItems := some 4000000000 } .string false = .ok (some t) := by
      have hexpanded : Schema.IsExpanded { maxItems := some 4000000000 } :=
        ⟨by rw [hbounds]; nofun, hsize⟩
      rw [fixedLength_of_expanded hexpanded, hbounds]
      exact congrArg (some <$> ·) ht
    have heq := tuplesBetween_eq (by decide) ht
    refine ⟨t, hrun, ?_⟩
    have hitem : isSpread .string = false := rfl
    have hcovers := covers_unionOf hbounds hsize hitem false
    rw [← heq] at hcovers
    rw [← Nat.not_lt, hcovers.few, Classical.not_not, countOverflows_iff hbounds]
    decide
  · rw [fixedLength_error_iff]
    exact ⟨rfl, 0, 9223372036854775807, rfl, by decide, .inl (by decide)⟩

end ApiTypes
