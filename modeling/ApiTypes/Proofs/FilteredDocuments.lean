import ApiTypes.TagFilter
import Mathlib.Data.Option.Basic

/-!
What a filter by tags leaves of a document. Null and references to path items stay, and so do path
items with an operation that is kept, without the operations that are not. All that stays keeps its
order, and all but the paths and the webhooks is left alone.

Filtering twice is filtering by what both filters keep. So nothing changes the second time, and a
filter can be split into what it includes and what it excludes.
-/

namespace ApiTypes

namespace TagFilter

variable {f g both : TagFilter}

/-- An operation is kept if one of its tags is included, unless there are no conditions for that,
and none is excluded. -/
theorem keeps_iff (f : TagFilter) (tags : List String) : f.keeps tags = true ↔
    (f.including = [] ∨ ∃ tag ∈ tags, ∃ holds ∈ f.including, holds tag = true) ∧
      ∀ tag ∈ tags, ∀ holds ∈ f.excluding, holds tag = false := by
  unfold keeps
  rw [Bool.and_eq_true, Bool.or_eq_true, List.isEmpty_iff]
  refine and_congr (or_congr_right (by simp [List.any_eq_true])) ?_
  rw [Bool.not_eq_true', List.any_eq_false]
  exact forall₂_congr fun tag _ => by simp

/-- The path item without the operations that are not kept. -/
structure Trims (f : TagFilter) (item item' : PathItem) : Prop where
  operation? : ∀ method,
    item'.operation? method = (item.operation? method).filter f.keepsOperation
  others : { item' with operation? := item.operation? } = item

/-- Some operation of the path item is kept. -/
def KeepsSome (f : TagFilter) (item : PathItem) : Prop :=
  ∃ method o, item.operation? method = some o ∧ f.keepsOperation o = true

/-- What is left of the entries of a map, in their order. -/
inductive Leaves (f : TagFilter) :
    List (String × Option PathItem) → List (String × Option PathItem) → Prop where
  | nil : Leaves f [] []
  | null {key : String} {rest rest' : List (String × Option PathItem)} : Leaves f rest rest' →
    Leaves f ((key, none) :: rest) ((key, none) :: rest')
  | reference {key : String} {item : PathItem} {rest rest' : List (String × Option PathItem)} :
    item.ref ≠ "" → Leaves f rest rest' →
    Leaves f ((key, some item) :: rest) ((key, some item) :: rest')
  | trimmed {key : String} {item item' : PathItem}
    {rest rest' : List (String × Option PathItem)} :
    item.ref = "" → f.KeepsSome item → f.Trims item item' → Leaves f rest rest' →
    Leaves f ((key, some item) :: rest) ((key, some item') :: rest')
  | dropped {key : String} {item : PathItem} {rest rest' : List (String × Option PathItem)} :
    item.ref = "" → ¬ f.KeepsSome item → Leaves f rest rest' →
    Leaves f ((key, some item) :: rest) rest'

/-- What is left of a document. A map that is absent stays absent, and no other does. -/
structure LeavesOf (f : TagFilter) (doc doc' : Document) : Prop where
  paths : Option.Rel (fun m m' => f.Leaves m.toList m'.toList) doc.paths doc'.paths
  webhooks : Option.Rel (fun m m' => f.Leaves m.toList m'.toList) doc.webhooks doc'.webhooks
  others : { doc' with paths := doc.paths, webhooks := doc.webhooks } = doc

theorem trims_trim (f : TagFilter) (item : PathItem) : f.Trims item (f.trim item) :=
  ⟨fun _ => rfl, rfl⟩

theorem keepsSome_iff {item : PathItem} :
    f.KeepsSome item ↔ (f.trim item).inOrder.isEmpty = false := by
  rw [List.isEmpty_eq_false_iff_exists_mem]
  constructor
  · rintro ⟨method, o, ho, hkept⟩
    exact ⟨(method, o), PathItem.mem_inOrder.mpr (Option.filter_eq_some_iff.mpr ⟨ho, hkept⟩)⟩
  · rintro ⟨⟨method, o⟩, hmem⟩
    exact ⟨method, o, Option.filter_eq_some_iff.mp (PathItem.mem_inOrder.mp hmem)⟩

/-- What becomes of a path item. -/
theorem applyToItem_some (f : TagFilter) (item : PathItem) : f.applyToItem (some item) =
    if item.ref ≠ "" then some (some item)
    else if (f.trim item).inOrder.isEmpty then none
    else some (some (f.trim item)) := rfl

theorem leaves_applyToItems (f : TagFilter) (items : PathItems) :
    f.Leaves items.toList (f.applyToItems items).toList := by
  rw [applyToItems, OrderedMap.toList_filterMap]
  induction items.toList with
  | nil => exact .nil
  | cons entry rest ih =>
    obtain ⟨key, item⟩ := entry
    cases item with
    | none => exact .null ih
    | some item =>
      rw [List.filterMap_cons]
      dsimp only
      rw [applyToItem_some]
      by_cases href : item.ref = ""
      · rw [if_neg (not_not_intro href)]
        by_cases hkept : f.KeepsSome item
        · rw [if_neg (by rw [keepsSome_iff.mp hkept]; decide)]
          exact .trimmed href hkept (f.trims_trim item) ih
        · have hempty := mt keepsSome_iff.mpr hkept
          rw [if_pos (by simpa using hempty)]
          exact .dropped href hkept ih
      · rw [if_pos href]
        exact .reference href ih

/-- Nothing is filtered without conditions. -/
def IsVacuous (f : TagFilter) : Prop := f.including = [] ∧ f.excluding = []

theorem apply_of_vacuous (h : f.IsVacuous) (doc : Document) : f.apply doc = doc := by
  rw [apply, h.1, h.2]
  rfl

theorem apply_of_not_vacuous (h : ¬ f.IsVacuous) (doc : Document) : f.apply doc =
    { doc with
      paths := doc.paths.map f.applyToItems
      webhooks := doc.webhooks.map f.applyToItems } := by
  rw [apply, if_neg]
  simpa [IsVacuous] using h

/-- What a filter leaves of a document. -/
theorem leavesOf_apply (h : ¬ f.IsVacuous) (doc : Document) : f.LeavesOf doc (f.apply doc) := by
  have hleaves (items : Option PathItems) :
      Option.Rel (fun m m' => f.Leaves m.toList m'.toList) items (items.map f.applyToItems) := by
    cases items with
    | none => exact .none
    | some items => exact .some (f.leaves_applyToItems items)
  rw [apply_of_not_vacuous h]
  exact ⟨hleaves doc.paths, hleaves doc.webhooks, rfl⟩

/-! One filter after another. -/

/-- The third filter keeps what both others keep. -/
def Meets (f g both : TagFilter) : Prop :=
  ∀ tags, both.keeps tags = (f.keeps tags && g.keeps tags)

theorem Meets.trim (h : Meets f g both) (item : PathItem) :
    g.trim (f.trim item) = both.trim item := by
  have hkeeps : (fun o => f.keepsOperation o && g.keepsOperation o) = both.keepsOperation :=
    funext fun _ => (h _).symm
  simp only [TagFilter.trim, Option.filter_filter, hkeeps]

/-- Where nothing is kept, nothing is left to be kept by another filter. -/
theorem trim_of_isEmpty {item : PathItem} (h : (f.trim item).inOrder.isEmpty = true)
    (g : TagFilter) : (g.trim (f.trim item)).inOrder.isEmpty = true := by
  rw [List.isEmpty_iff, List.eq_nil_iff_forall_not_mem] at h ⊢
  rintro ⟨method, o⟩ hmem
  exact h (method, o)
    (PathItem.mem_inOrder.mpr (Option.filter_eq_some_iff.mp (PathItem.mem_inOrder.mp hmem)).1)

theorem Meets.applyToItem (h : Meets f g both) (item : Option PathItem) :
    (f.applyToItem item).bind g.applyToItem = both.applyToItem item := by
  cases item with
  | none => rfl
  | some item =>
    rw [applyToItem_some, applyToItem_some, ← h.trim]
    by_cases href : item.ref = ""
    · rw [if_neg (not_not_intro href), if_neg (not_not_intro href)]
      cases hempty : (f.trim item).inOrder.isEmpty with
      | true =>
        rw [trim_of_isEmpty hempty]
        rfl
      | false =>
        rw [if_neg (by decide), Option.bind_some, applyToItem_some]
        exact if_neg (not_not_intro href)
    · rw [if_pos href, if_pos href, Option.bind_some, applyToItem_some, if_pos href]

theorem Meets.applyToItems (h : Meets f g both) (items : PathItems) :
    g.applyToItems (f.applyToItems items) = both.applyToItems items := by
  refine OrderedMap.ext_toList ?_
  simp only [TagFilter.applyToItems, OrderedMap.toList_filterMap, List.filterMap_filterMap]
  congr 1
  funext ⟨key, item⟩
  dsimp only
  rw [← h.applyToItem]
  cases f.applyToItem item <;> rfl

/-- Two filters one after the other leave what a filter leaves that keeps what both keep. -/
theorem Meets.apply (h : Meets f g both) (hf : ¬ f.IsVacuous) (hg : ¬ g.IsVacuous)
    (hboth : ¬ both.IsVacuous) (doc : Document) : g.apply (f.apply doc) = both.apply doc := by
  rw [apply_of_not_vacuous hf, apply_of_not_vacuous hg, apply_of_not_vacuous hboth]
  simp only [Option.map_map, Function.comp_def, h.applyToItems]

theorem apply_apply (f : TagFilter) (doc : Document) : f.apply (f.apply doc) = f.apply doc := by
  by_cases h : f.IsVacuous
  · rw [apply_of_vacuous h, apply_of_vacuous h]
  · exact Meets.apply (fun _ => (Bool.and_self _).symm) h h h doc

theorem apply_excluding_including (including excluding : List (String → Bool)) (doc : Document) :
    apply ⟨[], excluding⟩ (apply ⟨including, []⟩ doc) = apply ⟨including, excluding⟩ doc := by
  have hmeets : Meets ⟨including, []⟩ ⟨[], excluding⟩ ⟨including, excluding⟩ := by
    intro tags
    have hnone : (tags.any fun _ => false) = false := List.any_eq_false.mpr fun _ _ => nofun
    simp only [keeps, List.any_nil, hnone, List.isEmpty_nil, Bool.true_or, Bool.not_false,
      Bool.and_true, Bool.true_and]
  have hvacuous : (⟨[], []⟩ : TagFilter).IsVacuous := ⟨rfl, rfl⟩
  cases including with
  | nil => rw [apply_of_vacuous hvacuous]
  | cons =>
    cases excluding with
    | nil => rw [apply_of_vacuous hvacuous]
    | cons => exact hmeets.apply nofun nofun nofun doc

end TagFilter

end ApiTypes
