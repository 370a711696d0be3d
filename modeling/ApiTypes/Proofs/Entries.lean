import ApiTypes.Schema.Basic
import Mathlib.Data.List.Forall2

/-!
Entries of maps up to their order. What a map says is what values it has under each key. Two lists
of entries with the same values under each key are the same list once they are sorted, because
sorting keeps the values of a key in their order.
-/

namespace ApiTypes

variable {α β γ : Type}

/-- The values of a key in a list of entries. -/
def valuesAt (key : String) (entries : List (String × α)) : List α :=
  (entries.filter (·.1 = key)).map (·.2)

@[simp] theorem valuesAt_append (key : String) (l l' : List (String × α)) :
    valuesAt key (l ++ l') = valuesAt key l ++ valuesAt key l' := by
  simp only [valuesAt, List.filter_append, List.map_append]

theorem valuesAt_cons (key : String) (entry : String × α) (l : List (String × α)) :
    valuesAt key (entry :: l) =
      if entry.1 = key then entry.2 :: valuesAt key l else valuesAt key l := by
  unfold valuesAt
  rw [List.filter_cons]
  split <;> simp_all

theorem valuesAt_flatMap (key : String) (list : List β) (f : β → List (String × α)) :
    valuesAt key (list.flatMap f) = list.flatMap fun x => valuesAt key (f x) := by
  simp only [valuesAt, List.filter_flatMap, List.map_flatMap]

theorem mem_valuesAt {key : String} {x : α} {l : List (String × α)} :
    x ∈ valuesAt key l ↔ (key, x) ∈ l := by
  simp only [valuesAt, List.mem_map, List.mem_filter, decide_eq_true_eq]
  constructor
  · rintro ⟨⟨key', x'⟩, ⟨hmem, rfl⟩, rfl⟩
    exact hmem
  · exact fun h => ⟨(key, x), ⟨h, rfl⟩, rfl⟩

/-- Looking up a key gives the first of its values. -/
theorem lookup_eq_head? (key : String) (l : List (String × α)) :
    l.lookup key = (valuesAt key l).head? := by
  induction l with
  | nil => rfl
  | cons entry rest ih =>
    rw [List.lookup_cons, valuesAt_cons]
    by_cases h : entry.1 = key
    · rw [if_pos h, ← h, beq_self_eq_true]
      rfl
    · rw [if_neg h, beq_false_of_ne (Ne.symm h)]
      exact ih

theorem valuesAt_reverse (key : String) (l : List (String × α)) :
    valuesAt key l.reverse = (valuesAt key l).reverse := by
  simp only [valuesAt, List.filter_reverse, List.map_reverse]

/-- What is read off each value keeps its key. -/
theorem valuesAt_filterMap (f : α → Option β) (key : String)
    (l : List (String × α)) :
    valuesAt key (l.filterMap fun entry => (f entry.2).map (entry.1, ·)) =
      (valuesAt key l).filterMap f := by
  induction l with
  | nil => rfl
  | cons entry rest ih =>
    rw [List.filterMap_cons, valuesAt_cons]
    cases hf : f entry.2 with
    | none =>
      simp only [Option.map_none, ih]
      split <;> simp [hf]
    | some y =>
      simp only [Option.map_some, valuesAt_cons, ih]
      split <;> simp [hf]

theorem count_keys (key : String) (l : List (String × α)) :
    (l.map (·.1)).count key = (valuesAt key l).length := by
  rw [List.count, List.countP_map, List.countP_eq_length_filter, valuesAt, List.length_map]
  rfl

/-- As many entries under each key are as many entries. -/
theorem length_eq_of_valuesAt {l : List (String × α)} {l' : List (String × β)}
    (h : ∀ key, (valuesAt key l).length = (valuesAt key l').length) : l.length = l'.length := by
  have hperm : (l.map (·.1)).Perm (l'.map (·.1)) := by
    rw [List.perm_iff_count]
    intro key
    rw [count_keys, count_keys, h]
  simpa only [List.length_map] using hperm.length_eq

theorem forall₂_mono {R S : α → β → Prop} {l : List α} {l' : List β} (h : List.Forall₂ R l l')
    (hRS : ∀ x y, x ∈ l → R x y → S x y) : List.Forall₂ S l l' := by
  induction h with
  | nil => exact .nil
  | @cons a b l l' hab _ ih =>
    exact .cons (hRS a b List.mem_cons_self hab)
      (ih fun x y hx => hRS x y (List.mem_cons_of_mem a hx))

theorem optionRel_mono {R S : α → β → Prop} {o : Option α} {o' : Option β}
    (h : Option.Rel R o o') (hRS : ∀ x y, o = some x → R x y → S x y) : Option.Rel S o o' := by
  cases h with
  | none => exact .none
  | some h => exact .some (hRS _ _ rfl h)

/-- Related values under each key, in whatever order the keys come. -/
def KeyedRel (R : α → β → Prop) (l : List (String × α)) (l' : List (String × β)) : Prop :=
  ∀ key, List.Forall₂ R (valuesAt key l) (valuesAt key l')

namespace KeyedRel

variable {R : α → β → Prop}

theorem refl (l : List (String × α)) : KeyedRel Eq l l :=
  fun _ => List.forall₂_same.mpr fun _ _ => rfl

theorem nil : KeyedRel R [] [] := fun _ => .nil

theorem append {l m : List (String × α)} {l' m' : List (String × β)} (h : KeyedRel R l l')
    (h' : KeyedRel R m m') : KeyedRel R (l ++ m) (l' ++ m') := by
  intro key
  rw [valuesAt_append, valuesAt_append]
  exact List.rel_append (h key) (h' key)

theorem cons {key : String} {x : α} {y : β} {l : List (String × α)} {l' : List (String × β)}
    (hxy : R x y) (h : KeyedRel R l l') : KeyedRel R ((key, x) :: l) ((key, y) :: l') := by
  intro key'
  rw [valuesAt_cons, valuesAt_cons]
  split
  · exact .cons hxy (h key')
  · exact h key'

theorem flatMap {γ δ : Type} {S : γ → δ → Prop} {list : List γ} {list' : List δ}
    {f : γ → List (String × α)} {g : δ → List (String × β)} (hlist : List.Forall₂ S list list')
    (hfg : ∀ x y, S x y → KeyedRel R (f x) (g y)) :
    KeyedRel R (list.flatMap f) (list'.flatMap g) := by
  intro key
  rw [valuesAt_flatMap, valuesAt_flatMap]
  exact List.rel_flatMap hlist fun x y hxy => hfg x y hxy key

theorem length_eq {l : List (String × α)} {l' : List (String × β)} (h : KeyedRel R l l') :
    l.length = l'.length := length_eq_of_valuesAt fun key => (h key).length_eq

end KeyedRel

/-- Two entries with one key and related values. -/
def EntryRel (R : α → β → Prop) (a : String × α) (b : String × β) : Prop := a.1 = b.1 ∧ R a.2 b.2

theorem EntryRel.split {R : α → β → Prop} {a : String × α} {b : String × β} (h : EntryRel R a b) :
    ∃ key x y, a = (key, x) ∧ b = (key, y) ∧ R x y :=
  ⟨a.1, a.2, b.2, rfl, Prod.ext h.1.symm rfl, h.2⟩

theorem KeyedRel.of_forall₂ {R : α → β → Prop} {l : List (String × α)} {l' : List (String × β)}
    (h : List.Forall₂ (EntryRel R) l l') : KeyedRel R l l' := by
  induction h with
  | nil => exact .nil
  | @cons a b l l' hab _ ih =>
    intro key
    rw [valuesAt_cons, valuesAt_cons, hab.1]
    split
    · exact .cons hab.2 (ih key)
    · exact ih key

/-- The order of keys. -/
def keyLE (a b : String × α) : Bool := a.1 ≤ b.1

theorem keyLE_trans (a b c : String × α) (h : keyLE a b = true) (h' : keyLE b c = true) :
    keyLE a c = true :=
  decide_eq_true (String.le_trans (of_decide_eq_true h) (of_decide_eq_true h'))

theorem keyLE_total (a b : String × α) : (keyLE a b || keyLE b a) = true := by
  simpa only [keyLE, Bool.or_eq_true, decide_eq_true_eq] using String.le_total a.1 b.1

/-- Sorting is stable: it keeps the values of a key in their order. -/
theorem valuesAt_mergeSort (key : String) (l : List (String × α)) :
    valuesAt key (l.mergeSort keyLE) = valuesAt key l := by
  unfold valuesAt
  congr 1
  have hequal : (l.filter (·.1 = key)).Pairwise fun a b => keyLE a b = true := by
    refine List.pairwise_of_forall_mem_list fun a ha b hb => ?_
    have ha' : a.1 = key := of_decide_eq_true (List.mem_filter.mp ha).2
    have hb' : b.1 = key := of_decide_eq_true (List.mem_filter.mp hb).2
    simp only [keyLE, ha', hb', String.le_refl, decide_true]
  have hsub : (l.filter (·.1 = key)).Sublist ((l.mergeSort keyLE).filter (·.1 = key)) := by
    have hin := (List.sublist_mergeSort keyLE_trans keyLE_total hequal
      List.filter_sublist).filter fun entry => decide (entry.1 = key)
    rwa [List.filter_filter, show (fun a : String × α => decide (a.1 = key) && decide (a.1 = key)) =
      fun a => decide (a.1 = key) by simp] at hin
  have hperm := (List.mergeSort_perm l keyLE).filter fun entry => decide (entry.1 = key)
  exact (hsub.eq_of_length hperm.length_eq.symm).symm

/-- In a sorted list the first key is the least. -/
theorem head_le_of_mem {key : String} {x : α} {entry : String × α} {l : List (String × α)}
    (hl : (entry :: l).Pairwise fun a b => keyLE a b = true) (h : x ∈ valuesAt key (entry :: l)) :
    entry.1 ≤ key := by
  rcases List.mem_cons.mp (mem_valuesAt.mp h) with rfl | hmem
  · exact String.le_refl _
  · exact of_decide_eq_true ((List.pairwise_cons.mp hl).1 _ hmem)

theorem exists_rel_of_mem {R : α → β → Prop} {l : List α} {l' : List β} (h : List.Forall₂ R l l')
    {x : α} (hx : x ∈ l) : ∃ y ∈ l', R x y := by
  induction h with
  | nil => cases hx
  | @cons a b l l' hab _ ih =>
    rcases List.mem_cons.mp hx with rfl | hx
    · exact ⟨b, List.mem_cons_self, hab⟩
    · obtain ⟨y, hy, hxy⟩ := ih hx
      exact ⟨y, List.mem_cons_of_mem b hy, hxy⟩

theorem mem_valuesAt_head (entry : String × α) (l : List (String × α)) :
    entry.2 ∈ valuesAt entry.1 (entry :: l) := mem_valuesAt.mpr List.mem_cons_self

/-- Sorted lists with related values under each key are related entry by entry. -/
theorem forall₂_of_sorted {R : α → β → Prop} {l : List (String × α)} {l' : List (String × β)}
    (hl : l.Pairwise fun a b => keyLE a b = true) (hl' : l'.Pairwise fun a b => keyLE a b = true)
    (h : KeyedRel R l l') : List.Forall₂ (EntryRel R) l l' := by
  induction l generalizing l' with
  | nil =>
    cases l' with
    | nil => exact .nil
    | cons b rest' =>
      obtain ⟨x, hx, -⟩ := exists_rel_of_mem (h b.1).flip (mem_valuesAt_head b rest')
      cases hx
  | cons a rest ih =>
    cases l' with
    | nil =>
      obtain ⟨y, hy, -⟩ := exists_rel_of_mem (h a.1) (mem_valuesAt_head a rest)
      cases hy
    | cons b rest' =>
      -- each head has the least key of its list, and that key is in the other list too
      have hkey : a.1 = b.1 := by
        obtain ⟨x, hx, -⟩ := exists_rel_of_mem (h b.1).flip (mem_valuesAt_head b rest')
        obtain ⟨y, hy, -⟩ := exists_rel_of_mem (h a.1) (mem_valuesAt_head a rest)
        exact String.le_antisymm (head_le_of_mem hl hx) (head_le_of_mem hl' hy)
      have hvalues := fun key => h key
      simp only [valuesAt_cons, ← hkey] at hvalues
      refine .cons ⟨hkey, ?_⟩ (ih hl.of_cons hl'.of_cons fun key => ?_)
      · have hhead := hvalues a.1
        simp only [if_true] at hhead
        cases hhead with
        | cons hab _ => exact hab
      · have hrest := hvalues key
        split at hrest
        · cases hrest with
          | cons _ hrest => exact hrest
        · exact hrest

/-- Entries with related values: under each key, if the order of the keys does not count, and entry
by entry otherwise. -/
def EntriesRel (sorted : Bool) (R : α → β → Prop) (l : List (String × α)) (l' : List (String × β)) :
    Prop :=
  if sorted then KeyedRel R l l' else List.Forall₂ (EntryRel R) l l'

namespace EntriesRel

variable {sorted : Bool} {R : α → β → Prop} {l : List (String × α)} {l' : List (String × β)}

theorem of_forall₂ (h : List.Forall₂ (EntryRel R) l l') : EntriesRel sorted R l l' := by
  unfold EntriesRel
  split
  · exact .of_forall₂ h
  · exact h

theorem keyed (h : EntriesRel sorted R l l') : KeyedRel R l l' := by
  unfold EntriesRel at h
  split at h
  · exact h
  · exact .of_forall₂ h

theorem isEmpty_eq (h : EntriesRel sorted R l l') : l.isEmpty = l'.isEmpty := by
  have hlength := h.keyed.length_eq
  cases l <;> cases l' <;> simp_all

/-- Once they are sorted, if they need to be, the entries match one by one. -/
theorem inOrder (h : EntriesRel sorted R l l') :
    List.Forall₂ (EntryRel R) (if sorted then l.mergeSort keyLE else l)
      (if sorted then l'.mergeSort keyLE else l') := by
  cases sorted with
  | false => exact h
  | true =>
    apply forall₂_of_sorted (List.pairwise_mergeSort keyLE_trans keyLE_total l)
      (List.pairwise_mergeSort keyLE_trans keyLE_total l')
    intro key
    rw [valuesAt_mergeSort, valuesAt_mergeSort]
    exact h.keyed key

theorem refl {R : α → α → Prop} (hR : ∀ x, R x x) (l : List (String × α)) :
    EntriesRel sorted R l l :=
  of_forall₂ (List.forall₂_same.mpr fun entry _ => ⟨rfl, hR entry.2⟩)

theorem mono {S : α → β → Prop} (h : EntriesRel sorted R l l')
    (hRS : ∀ key x y, (key, x) ∈ l → R x y → S x y) : EntriesRel sorted S l l' := by
  unfold EntriesRel at h ⊢
  split
  · rename_i hsorted
    rw [if_pos hsorted] at h
    exact fun key => forall₂_mono (h key) fun x y hx => hRS key x y (mem_valuesAt.mp hx)
  · rename_i hsorted
    rw [if_neg hsorted] at h
    exact forall₂_mono h fun a b ha hab => ⟨hab.1, hRS a.1 a.2 b.2 ha hab.2⟩

/-- Entries in another order are the same entries, if no key repeats. -/
theorem of_perm {l l' : List (String × α)} (h : l.Perm l') (hkeys : (l.map (·.1)).Nodup) :
    EntriesRel true Eq l l' := by
  intro key
  have hperm : (valuesAt key l).Perm (valuesAt key l') := (h.filter _).map _
  have hone : (valuesAt key l).length ≤ 1 := by
    rw [← count_keys]
    exact List.nodup_iff_count.mp hkeys key
  rw [List.forall₂_eq_eq_eq]
  match hvalues : valuesAt key l with
  | [] =>
    rw [hvalues] at hperm
    exact hperm.nil_eq
  | [x] =>
    rw [hvalues] at hperm
    exact hperm.singleton_eq
  | _ :: _ :: _ =>
    rw [hvalues] at hone
    simp at hone

end EntriesRel

end ApiTypes
