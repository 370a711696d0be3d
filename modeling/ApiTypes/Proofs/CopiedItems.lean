import ApiTypes.Proofs.Entries
import ApiTypes.Proofs.FilteredDocuments

/-!
Filtering a document in memory. Path items, and the maps that hold them, lie in memory, and a
document has the addresses of its maps. The filter makes new maps. It copies a path item before it
takes operations out, one method after the other, and takes them out of the copy. So all that was
in memory stays as it was, and the new maps hold what the filter leaves of the document.
-/

namespace ApiTypes

/-- Path items, and maps in which a key has the address of one or null. -/
structure Memory where
  items : List PathItem
  maps : List (OrderedMap (Option Nat))

/-- The addresses of the paths and the webhooks of a document, where it has them. -/
structure Roots where
  paths : Option Nat
  webhooks : Option Nat

abbrev InMemory := StateM Memory

namespace Memory

def itemAt (address : Nat) : InMemory PathItem := fun μ => (μ.items[address]?.getD {}, μ)

def newItem (item : PathItem) : InMemory Nat := fun μ =>
  (μ.items.length, { μ with items := μ.items ++ [item] })

def changeItem (address : Nat) (change : PathItem → PathItem) : InMemory Unit := fun μ =>
  ((), { μ with items := μ.items.modify address change })

def mapAt (address : Nat) : InMemory (OrderedMap (Option Nat)) := fun μ =>
  (μ.maps[address]?.getD .empty, μ)

def newMap : InMemory Nat := fun μ => (μ.maps.length, { μ with maps := μ.maps ++ [.empty] })

def enter (address : Nat) (key : String) (item : Option Nat) : InMemory Unit := fun μ =>
  ((), { μ with maps := μ.maps.modify address (·.set key item) })

end Memory

open Memory

namespace TagFilter

variable (f : TagFilter)

/-- An operation that is kept is counted, and one that is not is taken out of the copy. -/
def visitMethod (address copy kept : Nat) (method : Method) : InMemory Nat := do
  match (← itemAt address).operation? method with
  | none => return kept
  | some o =>
    if f.keepsOperation o then return kept + 1
    changeItem copy (·.setOperation method none)
    return kept

/-- A copy of a path item without what is not kept, and how many operations are kept. -/
def copyItem (address : Nat) (item : PathItem) : InMemory (Nat × Nat) := do
  let copy ← newItem item
  return (copy, ← Method.all.foldlM (f.visitMethod address copy) 0)

/-- Null and references are entered as they are, anything else as a copy that has operations. -/
def visitEntry (target : Nat) : String × Option Nat → InMemory Unit
  | (key, none) => enter target key none
  | (key, some address) => do
    let item ← itemAt address
    if item.ref ≠ "" then enter target key (some address)
    else
      let (copy, kept) ← f.copyItem address item
      if 0 < kept then enter target key (some copy)

def visitMap : Option Nat → InMemory (Option Nat)
  | none => return none
  | some address => do
    let target ← newMap
    forM (← mapAt address).toList (f.visitEntry target)
    return some target

/-- Filters the maps of a document. Without conditions they are the maps of the result. -/
def visitRoots (roots : Roots) : InMemory Roots := do
  if f.including.isEmpty && f.excluding.isEmpty then return roots
  return ⟨← f.visitMap roots.paths, ← f.visitMap roots.webhooks⟩

end TagFilter

/-! What memory shows. -/

/-- The addresses in a map are those of the path items. -/
def EntriesShown (items : List PathItem) (addresses : List (String × Option Nat))
    (entries : List (String × Option PathItem)) : Prop :=
  List.Forall₂ (fun a e => a.1 = e.1 ∧
    Option.Rel (fun address item => items[address]? = some item) a.2 e.2) addresses entries

namespace Memory

/-- The address is that of the map, and no map has none. -/
def Shows (μ : Memory) : Option Nat → Option PathItems → Prop :=
  Option.Rel fun address m => ∃ addresses, μ.maps[address]? = some addresses ∧
    EntriesShown μ.items addresses.toList m.toList

/-- The memory holds a document at its roots. -/
structure Holds (μ : Memory) (roots : Roots) (doc : Document) : Prop where
  paths : μ.Shows roots.paths doc.paths
  webhooks : μ.Shows roots.webhooks doc.webhooks

/-- All that was in memory is still there. -/
structure Grows (μ μ' : Memory) : Prop where
  items : μ.items <+: μ'.items
  maps : μ.maps <+: μ'.maps

end Memory

/-! Growing. -/

theorem getElem?_of_grown {α : Type} {list list' : List α} (h : list <+: list') {i : Nat} {x : α}
    (hx : list[i]? = some x) : list'[i]? = some x := by
  obtain ⟨more, rfl⟩ := h
  rw [List.getElem?_append_left (List.getElem?_eq_some_iff.mp hx).1]
  exact hx

theorem EntriesShown.mono {items items' : List PathItem} (hgrow : items <+: items')
    {addresses : List (String × Option Nat)} {entries : List (String × Option PathItem)}
    (h : EntriesShown items addresses entries) : EntriesShown items' addresses entries :=
  h.imp fun _ _ ⟨hkey, hitem⟩ =>
    ⟨hkey, optionRel_mono hitem fun _ _ _ => getElem?_of_grown hgrow⟩

theorem EntriesShown.keys {items : List PathItem} {addresses : List (String × Option Nat)}
    {entries : List (String × Option PathItem)} (h : EntriesShown items addresses entries) :
    addresses.map (·.1) = entries.map (·.1) := by
  induction h with
  | nil => rfl
  | cons hfirst _ ih => rw [List.map_cons, List.map_cons, hfirst.1, ih]

namespace Memory

variable {μ μ' μ'' : Memory}

theorem Grows.refl (μ : Memory) : μ.Grows μ := ⟨List.prefix_rfl, List.prefix_rfl⟩

theorem Grows.trans (h : μ.Grows μ') (h' : μ'.Grows μ'') : μ.Grows μ'' :=
  ⟨h.items.trans h'.items, h.maps.trans h'.maps⟩

theorem Shows.mono (hgrow : μ.Grows μ') {address : Option Nat} {m : Option PathItems}
    (h : μ.Shows address m) : μ'.Shows address m :=
  optionRel_mono h fun _ _ _ ⟨addresses, hmap, hentries⟩ =>
    ⟨addresses, getElem?_of_grown hgrow.maps hmap, hentries.mono hgrow.items⟩

/-- What is held stays held. -/
theorem Holds.mono (hgrow : μ.Grows μ') {roots : Roots} {doc : Document}
    (h : μ.Holds roots doc) : μ'.Holds roots doc :=
  ⟨h.paths.mono hgrow, h.webhooks.mono hgrow⟩

theorem bind_apply {α β : Type} (first : InMemory α) (next : α → InMemory β) (μ : Memory) :
    (first >>= next) μ = next (first μ).1 (first μ).2 := rfl

theorem itemAt_of_grown {items : List PathItem} (h : items <+: μ.items) {address : Nat}
    {item : PathItem} (hitem : items[address]? = some item) : itemAt address μ = (item, μ) := by
  rw [itemAt, getElem?_of_grown h hitem]
  rfl

theorem changeItem_last (before : List PathItem) (item : PathItem)
    (maps : List (OrderedMap (Option Nat))) (change : PathItem → PathItem) :
    changeItem before.length change ⟨before ++ [item], maps⟩ =
      ((), ⟨before ++ [change item], maps⟩) := by
  simp [changeItem, List.modify_eq_set_getElem?]

theorem enter_last (items : List PathItem) (base : List (OrderedMap (Option Nat)))
    (m : OrderedMap (Option Nat)) (key : String) (item : Option Nat) :
    enter base.length key item ⟨items, base ++ [m]⟩ =
      ((), ⟨items, base ++ [m.set key item]⟩) := by
  simp [enter, List.modify_eq_set_getElem?]

end Memory

/-! One path item. -/

/-- A path item with some of its operations. -/
def PathItem.only (item : PathItem) (p : Method → Operation → Bool) : PathItem :=
  { item with operation? := fun method => (item.operation? method).filter (p method) }

theorem PathItem.only_congr {item : PathItem} {p p' : Method → Operation → Bool}
    (h : ∀ method o, item.operation? method = some o → p method o = p' method o) :
    item.only p = item.only p' := by
  have hoperation (method : Method) : (item.operation? method).filter (p method) =
      (item.operation? method).filter (p' method) := by
    cases ho : item.operation? method with
    | none => rfl
    | some o => rw [Option.filter_some, Option.filter_some, h method o ho]
  simp only [only, hoperation]

theorem PathItem.only_true (item : PathItem) : item.only (fun _ _ => true) = item := by
  have hall (o : Option Operation) : o.filter (fun _ => true) = o := by cases o <;> rfl
  simp only [only, hall]

theorem PathItem.setOperation_only_none (item : PathItem) (p : Method → Operation → Bool)
    (method : Method) : (item.only p).setOperation method none =
      item.only fun other o => other ≠ method && p other o := by
  simp only [setOperation, only]
  congr 1
  funext other
  by_cases hother : other = method <;> simp [hother]

variable {f : TagFilter} {before : List PathItem} {item : PathItem} {address : Nat}

namespace TagFilter

/-- The operations that one step leaves: those for other methods, and what is kept. -/
def passes (f : TagFilter) (methods : List Method) (method : Method) (o : Operation) : Bool :=
  method ∉ methods || f.keepsOperation o

theorem only_of_kept {method : Method}
    (h : (item.operation? method).all f.keepsOperation = true) (p : Method → Operation → Bool) :
    item.only (fun other o => f.passes [method] other o && p other o) = item.only p := by
  refine PathItem.only_congr fun other o ho => ?_
  by_cases hmethod : other = method
  · subst hmethod
    rw [ho] at h
    simp [passes, show f.keepsOperation o = true from h]
  · simp [passes, hmethod]

theorem only_of_lost {method : Method} {o : Operation} (ho : item.operation? method = some o)
    (hlost : f.keepsOperation o = false) (p : Method → Operation → Bool) :
    item.only (fun other o => f.passes [method] other o && p other o) =
      (item.only p).setOperation method none := by
  rw [PathItem.setOperation_only_none]
  refine PathItem.only_congr fun other o' ho' => ?_
  by_cases hmethod : other = method
  · subst hmethod
    obtain rfl := Option.some.inj (ho'.symm.trans ho)
    simp [passes, hlost]
  · simp [passes, hmethod]

/-- The copy loses the operation for a method if that is not kept, and nothing else. -/
theorem visitMethod_run (hitem : before[address]? = some item) (method : Method) (kept : Nat)
    (p : Method → Operation → Bool) (maps : List (OrderedMap (Option Nat))) :
    f.visitMethod address before.length kept method ⟨before ++ [item.only p], maps⟩ =
      (kept + if (item.operation? method).any f.keepsOperation then 1 else 0,
        ⟨before ++ [item.only fun other o => f.passes [method] other o && p other o], maps⟩) := by
  rw [visitMethod, bind_apply, itemAt_of_grown (List.prefix_append _ _) hitem]
  dsimp only
  cases ho : item.operation? method with
  | none =>
    rw [only_of_kept (by rw [ho]; rfl)]
    rfl
  | some o =>
    dsimp only [Option.any_some]
    by_cases hkeeps : f.keepsOperation o = true
    · rw [only_of_kept (by rw [ho]; exact hkeeps), if_pos hkeeps, if_pos hkeeps]
      rfl
    · rw [only_of_lost ho (Bool.not_eq_true _ ▸ hkeeps), if_neg hkeeps,
        if_neg hkeeps, bind_apply, changeItem_last]
      rfl

theorem visitMethods_run (hitem : before[address]? = some item)
    (maps : List (OrderedMap (Option Nat))) (methods : List Method) (kept : Nat)
    (p : Method → Operation → Bool) :
    methods.foldlM (f.visitMethod address before.length) kept ⟨before ++ [item.only p], maps⟩ =
      (kept + methods.countP fun method => (item.operation? method).any f.keepsOperation,
        ⟨before ++ [item.only fun method o => f.passes methods method o && p method o], maps⟩) := by
  induction methods generalizing kept p with
  | nil =>
    have hall : (fun method o => f.passes [] method o && p method o) = p := by
      funext method o
      rfl
    rw [hall]
    rfl
  | cons method rest ih =>
    have hboth :
        (fun other o => f.passes rest other o && (f.passes [method] other o && p other o)) =
        fun other o => f.passes (method :: rest) other o && p other o := by
      funext other o
      simp only [passes, List.mem_cons, not_or, List.not_mem_nil, or_false, Bool.decide_and]
      cases f.keepsOperation o <;> simp [Bool.and_assoc, Bool.and_comm]
    rw [List.foldlM_cons, bind_apply, visitMethod_run hitem, ih, hboth, List.countP_cons]
    congr 1
    omega

theorem only_passes_all (f : TagFilter) (item : PathItem) :
    (item.only fun method o => f.passes Method.all method o && true) = f.trim item := by
  have hall (method : Method) :
      (fun o => f.passes Method.all method o && true) = f.keepsOperation := by
    funext o
    simp [passes, method.mem_all]
  simp only [PathItem.only, hall, trim]

/-- How many operations of the path item are kept. -/
def keptCount (f : TagFilter) (item : PathItem) : Nat :=
  Method.all.countP fun method => (item.operation? method).any f.keepsOperation

theorem keptCount_pos_iff (f : TagFilter) (item : PathItem) :
    0 < f.keptCount item ↔ f.KeepsSome item := by
  simp [keptCount, List.countP_pos_iff, KeepsSome, Method.mem_all, Option.any_eq_true]

theorem copyItem_run {μ : Memory} (hitem : μ.items[address]? = some item) :
    f.copyItem address item μ = ((μ.items.length, f.keptCount item),
      { μ with items := μ.items ++ [f.trim item] }) := by
  have hrun := visitMethods_run (f := f) hitem μ.maps Method.all 0 fun _ _ => true
  rw [only_passes_all, PathItem.only_true, Nat.zero_add] at hrun
  rw [copyItem, bind_apply, newItem, bind_apply, hrun]
  rfl

end TagFilter

/-! The entries of a map, one after the other. -/

theorem OrderedMap.toList_set_of_notMem {α : Type} {m : OrderedMap α} {key : String}
    (h : key ∉ m.keys) (value : α) : (m.set key value).toList = m.toList ++ [(key, value)] := by
  rw [keys_eq] at h
  rw [toList_set]
  generalize m.toList = entries at h
  induction entries with
  | nil => rfl
  | cons first rest ih =>
    rw [List.map_cons, List.mem_cons, not_or] at h
    rw [setEntry, if_neg (Ne.symm h.1), ih h.2]
    rfl

/-- The last map of the memory holds the entries. -/
def Memory.Collects (μ : Memory) (base : List (OrderedMap (Option Nat)))
    (entries : List (String × Option PathItem)) : Prop :=
  ∃ m, μ.maps = base ++ [m] ∧ EntriesShown μ.items m.toList entries

variable {μ : Memory} {base : List (OrderedMap (Option Nat))}
  {entries : List (String × Option PathItem)}

namespace Memory

theorem Collects.withItems (h : μ.Collects base entries) {items : List PathItem}
    (hgrow : μ.items <+: items) : { μ with items := items }.Collects base entries := by
  obtain ⟨m, hmaps, hshown⟩ := h
  exact ⟨m, hmaps, hshown.mono hgrow⟩

theorem Collects.enter (h : μ.Collects base entries) {key : String}
    (hkey : key ∉ entries.map (·.1)) {address : Option Nat} {item : Option PathItem}
    (hitem : Option.Rel (fun address item => μ.items[address]? = some item) address item) :
    ∃ μ', Memory.enter base.length key address μ = ((), μ') ∧ μ'.items = μ.items ∧
      μ'.Collects base (entries ++ [(key, item)]) := by
  obtain ⟨items, maps⟩ := μ
  obtain ⟨m, rfl, hshown⟩ := h
  refine ⟨_, enter_last items base m key address, rfl, _, rfl, ?_⟩
  rw [OrderedMap.toList_set_of_notMem (by rw [OrderedMap.keys_eq, hshown.keys]; exact hkey)]
  exact List.rel_append hshown (.cons ⟨rfl, hitem⟩ .nil)

end Memory

namespace TagFilter

/-- What becomes of an entry. -/
def applyToEntry (f : TagFilter) (entry : String × Option PathItem) :
    Option (String × Option PathItem) := (f.applyToItem entry.2).map (entry.1, ·)

theorem visitEntry_run (h : μ.Collects base entries) {key : String}
    (hkey : key ∉ entries.map (·.1)) {address : Option Nat} {item : Option PathItem}
    (hitem : Option.Rel (fun address item => μ.items[address]? = some item) address item) :
    ∃ μ', f.visitEntry base.length (key, address) μ = ((), μ') ∧ μ.items <+: μ'.items ∧
      μ'.Collects base (entries ++ (f.applyToEntry (key, item)).toList) := by
  cases hitem with
  | none =>
    obtain ⟨μ', hrun, hitems, hcollects⟩ := h.enter hkey .none
    exact ⟨μ', hrun, hitems ▸ List.prefix_rfl, hcollects⟩
  | @some address item hitem =>
    rw [visitEntry, bind_apply, itemAt_of_grown List.prefix_rfl hitem]
    dsimp only
    by_cases href : item.ref ≠ ""
    · obtain ⟨μ', hrun, hitems, hcollects⟩ := h.enter hkey (.some hitem)
      rw [if_pos href, applyToEntry, applyToItem_some, if_pos href]
      exact ⟨μ', hrun, hitems ▸ List.prefix_rfl, hcollects⟩
    · rw [if_neg href, applyToEntry, applyToItem_some, if_neg href, bind_apply,
        copyItem_run hitem]
      have hgrow := List.prefix_append μ.items [f.trim item]
      dsimp only
      by_cases hkept : f.KeepsSome item
      · have hlast : (μ.items ++ [f.trim item])[μ.items.length]? = some (f.trim item) :=
          List.getElem?_concat_length
        obtain ⟨μ', hrun, hitems, hcollects⟩ := (h.withItems hgrow).enter hkey (.some hlast)
        rw [if_pos ((keptCount_pos_iff f item).mpr hkept),
          if_neg (by rw [keepsSome_iff.mp hkept]; decide)]
        exact ⟨μ', hrun, hitems ▸ hgrow, hcollects⟩
      · rw [if_neg (mt (keptCount_pos_iff f item).mp hkept),
          if_pos (by simpa using mt keepsSome_iff.mpr hkept)]
        refine ⟨_, rfl, hgrow, ?_⟩
        simpa using h.withItems hgrow

theorem keys_applyToEntry (f : TagFilter) (entry : String × Option PathItem) :
    ((f.applyToEntry entry).toList.map (·.1)).Sublist [entry.1] := by
  rw [applyToEntry]
  cases f.applyToItem entry.2 <;> simp

/-- One entry after the other. What is shown when the first is visited still is when the last is. -/
theorem visitEntries_run {items : List PathItem} {addresses : List (String × Option Nat)}
    {visited : List (String × Option PathItem)} (hshown : EntriesShown items addresses visited)
    (h : μ.Collects base entries) (hgrow : items <+: μ.items)
    (hkeys : ((entries ++ visited).map (·.1)).Nodup) :
    ∃ μ', forM addresses (f.visitEntry base.length) μ = ((), μ') ∧ μ.items <+: μ'.items ∧
      μ'.Collects base (entries ++ visited.filterMap f.applyToEntry) := by
  induction hshown generalizing μ entries with
  | nil => exact ⟨μ, rfl, List.prefix_rfl, by simpa using h⟩
  | @cons a e addresses visited hfirst hrest ih =>
    obtain ⟨key, address⟩ := a
    obtain ⟨key', item⟩ := e
    obtain ⟨rfl, hitem⟩ := hfirst
    rw [List.map_append, List.map_cons] at hkeys
    have hnew : key ∉ entries.map (·.1) := fun hmem =>
      (List.nodup_append.mp hkeys).2.2 key hmem key List.mem_cons_self rfl
    obtain ⟨μ₁, hrun, hgrow₁, hcollects⟩ := visitEntry_run (f := f) h hnew
      (optionRel_mono hitem fun _ _ _ => getElem?_of_grown hgrow)
    have hrest : ((entries ++ (f.applyToEntry (key, item)).toList ++ visited).map (·.1)).Nodup := by
      rw [List.append_assoc, List.map_append, List.map_append]
      exact hkeys.sublist (((f.keys_applyToEntry (key, item)).append_right _).append_left _)
    obtain ⟨μ₂, hruns, hgrow₂, hcollects₂⟩ := ih hcollects (hgrow.trans hgrow₁) hrest
    refine ⟨μ₂, ?_, hgrow₁.trans hgrow₂, ?_⟩
    · rw [List.forM_cons, bind_apply, hrun]
      exact hruns
    · have hcons : (f.applyToEntry (key, item)).toList ++ visited.filterMap f.applyToEntry =
          ((key, item) :: visited).filterMap f.applyToEntry := by
        rw [List.filterMap_cons]
        cases f.applyToEntry (key, item) <;> rfl
      rw [← hcons, ← List.append_assoc]
      exact hcollects₂

variable {doc : Document} {roots : Roots}

theorem visitMap_run {address : Option Nat} {m : Option PathItems} (h : μ.Shows address m) :
    ∃ address' μ', f.visitMap address μ = (address', μ') ∧ μ.Grows μ' ∧
      μ'.Shows address' (m.map f.applyToItems) := by
  cases h with
  | none => exact ⟨none, μ, rfl, .refl μ, .none⟩
  | @some address m h =>
    obtain ⟨addresses, hmap, hshown⟩ := h
    have hmade := List.prefix_append μ.maps [OrderedMap.empty]
    have hempty : Memory.Collects ⟨μ.items, μ.maps ++ [.empty]⟩ μ.maps [] := ⟨.empty, rfl, .nil⟩
    obtain ⟨μ', hrun, hgrow, made, hmaps, hentries⟩ := visitEntries_run (f := f)
      hshown hempty List.prefix_rfl m.nodup_toList
    have htoList : (f.applyToItems m).toList = m.toList.filterMap f.applyToEntry :=
      OrderedMap.toList_filterMap _ _
    refine ⟨some μ.maps.length, μ', ?_, ⟨hgrow, ?_⟩, .some ⟨made, ?_, htoList ▸ hentries⟩⟩
    · rw [visitMap, bind_apply, newMap, bind_apply, mapAt, getElem?_of_grown hmade hmap]
      dsimp only [Option.getD_some]
      rw [bind_apply, hrun]
      rfl
    · rw [hmaps]
      exact List.prefix_append _ _
    · rw [hmaps]
      exact List.getElem?_concat_length

/-- Filtering in memory makes what `apply` says, and all that was in memory stays. -/
theorem visitRoots_run (h : μ.Holds roots doc) :
    ∃ roots' μ', f.visitRoots roots μ = (roots', μ') ∧ μ.Grows μ' ∧
      μ'.Holds roots' (f.apply doc) := by
  by_cases hvacuous : f.IsVacuous
  · rw [apply_of_vacuous hvacuous]
    refine ⟨roots, μ, ?_, .refl μ, h⟩
    rw [visitRoots, hvacuous.1, hvacuous.2]
    rfl
  · obtain ⟨paths, μ₁, hpaths, hgrow₁, hshown₁⟩ := visitMap_run h.paths (f := f)
    obtain ⟨webhooks, μ₂, hwebhooks, hgrow₂, hshown₂⟩ :=
      visitMap_run (h.webhooks.mono hgrow₁) (f := f)
    rw [apply_of_not_vacuous hvacuous]
    refine ⟨⟨paths, webhooks⟩, μ₂, ?_, hgrow₁.trans hgrow₂, hshown₁.mono hgrow₂, hshown₂⟩
    rw [visitRoots, if_neg (by simpa [IsVacuous] using hvacuous), bind_apply, hpaths, bind_apply,
      hwebhooks]
    rfl

end TagFilter

/-! Any document can be held. -/

theorem exists_entriesShown (entries : List (String × Option PathItem)) (items : List PathItem) :
    ∃ addresses items', items <+: items' ∧ EntriesShown items' addresses entries := by
  induction entries generalizing items with
  | nil => exact ⟨[], items, List.prefix_rfl, .nil⟩
  | cons entry rest ih =>
    obtain ⟨key, item⟩ := entry
    cases item with
    | none =>
      obtain ⟨addresses, items', hgrow, hshown⟩ := ih items
      exact ⟨(key, none) :: addresses, items', hgrow, .cons ⟨rfl, .none⟩ hshown⟩
    | some item =>
      obtain ⟨addresses, items', hgrow, hshown⟩ := ih (items ++ [item])
      exact ⟨(key, some items.length) :: addresses, items',
        (List.prefix_append items [item]).trans hgrow,
        .cons ⟨rfl, .some (getElem?_of_grown hgrow List.getElem?_concat_length)⟩ hshown⟩

namespace Memory

theorem exists_shows (μ : Memory) (m : Option PathItems) :
    ∃ address μ', μ.Grows μ' ∧ μ'.Shows address m := by
  cases m with
  | none => exact ⟨none, μ, .refl μ, .none⟩
  | some m =>
    obtain ⟨addresses, items, hgrow, hshown⟩ := exists_entriesShown m.toList μ.items
    have hkeys : (addresses.map (·.1)).Nodup := hshown.keys ▸ m.nodup_toList
    refine ⟨some μ.maps.length, ⟨items, μ.maps ++ [.ofEntries addresses hkeys]⟩,
      ⟨hgrow, List.prefix_append _ _⟩, .some ⟨_, List.getElem?_concat_length, ?_⟩⟩
    rwa [OrderedMap.toList_ofEntries]

theorem exists_holds (μ : Memory) (doc : Document) :
    ∃ roots μ', μ.Grows μ' ∧ μ'.Holds roots doc := by
  obtain ⟨paths, μ₁, hgrow₁, hpaths⟩ := μ.exists_shows doc.paths
  obtain ⟨webhooks, μ₂, hgrow₂, hwebhooks⟩ := μ₁.exists_shows doc.webhooks
  exact ⟨⟨paths, webhooks⟩, μ₂, hgrow₁.trans hgrow₂, hpaths.mono hgrow₂, hwebhooks⟩

end Memory

namespace TagFilter

/-- What is left of a document is what the tags say, in memory too, where the document that is
filtered stays. Filtering again changes nothing, and what is excluded can be filtered after what is
included. -/
theorem apply_exact (f : TagFilter) (doc : Document) :
    (∀ tags, f.keeps tags = true ↔
      (f.including = [] ∨ ∃ tag ∈ tags, ∃ holds ∈ f.including, holds tag = true) ∧
        ∀ tag ∈ tags, ∀ holds ∈ f.excluding, holds tag = false) ∧
    (¬ (f.including = [] ∧ f.excluding = []) → f.LeavesOf doc (f.apply doc)) ∧
    (∀ (μ : Memory) (roots : Roots), μ.Holds roots doc →
      ∃ roots' μ', f.visitRoots roots μ = (roots', μ') ∧ μ.Grows μ' ∧ μ'.Holds roots doc ∧
        μ'.Holds roots' (f.apply doc)) ∧
    f.apply (f.apply doc) = f.apply doc ∧
    apply ⟨[], f.excluding⟩ (apply ⟨f.including, []⟩ doc) = f.apply doc := by
  refine ⟨f.keeps_iff, fun h => leavesOf_apply h doc, fun μ roots h => ?_,
    f.apply_apply doc, apply_excluding_including _ _ doc⟩
  obtain ⟨roots', μ', hrun, hgrow, hholds⟩ := visitRoots_run (f := f) h
  exact ⟨roots', μ', hrun, hgrow, h.mono hgrow, hholds⟩

end TagFilter

end ApiTypes
