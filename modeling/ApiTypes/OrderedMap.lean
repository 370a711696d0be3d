/-!
Maps from texts that remember the order in which keys first came. The view of a map is its list of
entries; no key stands in it twice.
-/

namespace ApiTypes

/-- Entries in order, with their keys. Each entry brings along that no later one has its key, so a
tree of maps is without repeated keys wherever it comes from. -/
inductive Entries (α : Type) : (keys : List String) → Type where
  | nil : Entries α []
  | cons {keys : List String} (key : String) (value : α) (rest : Entries α keys)
      (fresh : key ∉ keys) : Entries α (key :: keys)

namespace Entries

variable {α : Type} {keys : List String}

def toList : {keys : List String} → Entries α keys → List (String × α)
  | _, .nil => []
  | _, .cons key value rest _ => (key, value) :: rest.toList

def ofList : (list : List (String × α)) → (list.map (·.1)).Nodup → Entries α (list.map (·.1))
  | [], _ => .nil
  | (key, value) :: rest, h =>
    .cons key value (ofList rest (List.nodup_cons.mp h).2) (List.nodup_cons.mp h).1

@[simp] theorem toList_ofList (list : List (String × α)) (h : (list.map (·.1)).Nodup) :
    (ofList list h).toList = list := by
  induction list with
  | nil => rfl
  | cons entry rest ih => exact congrArg (entry :: ·) (ih _)

theorem map_fst_toList (entries : Entries α keys) : entries.toList.map (·.1) = keys := by
  induction entries with
  | nil => rfl
  | cons key value rest fresh ih => exact congrArg (key :: ·) ih

theorem nodup (entries : Entries α keys) : keys.Nodup := by
  induction entries with
  | nil => exact .nil
  | cons key value rest fresh ih => exact List.nodup_cons.mpr ⟨fresh, ih⟩

theorem ext_toList {entries entries' : Entries α keys} (h : entries.toList = entries'.toList) :
    entries = entries' := by
  induction entries with
  | nil =>
    cases entries'
    rfl
  | cons key value rest fresh ih =>
    cases entries' with
    | cons _ value' rest' _ =>
      obtain ⟨hfirst, hrest⟩ := List.cons.inj h
      cases hfirst
      rw [ih hrest]

/-- A value is smaller than the entries in which it stands. -/
theorem sizeOf_lt_of_mem [SizeOf α] {entries : Entries α keys} {key : String} {value : α}
    (h : (key, value) ∈ entries.toList) : sizeOf value < sizeOf entries := by
  induction entries with
  | nil => cases h
  | cons first firstValue rest fresh ih =>
    rw [Entries.cons.sizeOf_spec]
    rcases List.mem_cons.mp h with heq | hrest
    · cases heq
      omega
    · have := ih hrest
      omega

end Entries

/-- A map whose entries keep the place at which their key was first set. -/
structure OrderedMap (α : Type) where
  /-- The keys in order. -/
  keys : List String
  table : Entries α keys

namespace OrderedMap

variable {α β γ : Type}

def empty : OrderedMap α := ⟨[], .nil⟩

instance : Inhabited (OrderedMap α) := ⟨empty⟩

/-- The entries in order. -/
def toList (m : OrderedMap α) : List (String × α) := m.table.toList

/-- The map with the given entries. -/
def ofEntries (entries : List (String × α)) (h : (entries.map (·.1)).Nodup) : OrderedMap α :=
  ⟨_, .ofList entries h⟩

@[simp] theorem toList_ofEntries (entries : List (String × α)) (h : (entries.map (·.1)).Nodup) :
    (ofEntries entries h).toList = entries :=
  Entries.toList_ofList entries h

theorem keys_eq (m : OrderedMap α) : m.keys = m.toList.map (·.1) := m.table.map_fst_toList.symm

theorem nodup_keys (m : OrderedMap α) : m.keys.Nodup := m.table.nodup

theorem nodup_toList (m : OrderedMap α) : (m.toList.map (·.1)).Nodup :=
  m.keys_eq ▸ m.nodup_keys

/-- Maps with the same entries are the same. -/
theorem ext_toList {m m' : OrderedMap α} (h : m.toList = m'.toList) : m = m' := by
  have hkeys : m.keys = m'.keys := by rw [keys_eq, keys_eq, h]
  obtain ⟨keys, table⟩ := m
  obtain ⟨keys', table'⟩ := m'
  cases hkeys
  exact congrArg (mk keys) (Entries.ext_toList h)

def size (m : OrderedMap α) : Nat := m.keys.length

def get? (m : OrderedMap α) (key : String) : Option α := m.toList.lookup key

/-- Replaces the value of a key in a list of entries; a new key goes to the end. -/
def setEntry (key : String) (value : α) : List (String × α) → List (String × α)
  | [] => [(key, value)]
  | (k, v) :: rest => if k = key then (k, value) :: rest else (k, v) :: setEntry key value rest

theorem keys_setEntry (key : String) (value : α) (entries : List (String × α)) :
    (setEntry key value entries).map (·.1) =
      if key ∈ entries.map (·.1) then entries.map (·.1) else entries.map (·.1) ++ [key] := by
  induction entries with
  | nil => rfl
  | cons first rest ih =>
    obtain ⟨k, v⟩ := first
    rw [setEntry]
    by_cases hkey : k = key
    · simp [hkey]
    · rw [if_neg hkey, List.map_cons, List.map_cons, ih]
      by_cases hmem : key ∈ rest.map (·.1)
      · rw [if_pos hmem, if_pos (List.mem_cons_of_mem _ hmem)]
      · rw [if_neg hmem, if_neg (by simpa [Ne.symm hkey] using hmem), List.cons_append]

theorem nodup_setEntry (key : String) (value : α) {entries : List (String × α)}
    (h : (entries.map (·.1)).Nodup) : ((setEntry key value entries).map (·.1)).Nodup := by
  rw [keys_setEntry]
  split
  · exact h
  · rename_i hnew
    refine List.nodup_append.mpr ⟨h, List.pairwise_singleton _ key, fun k hk k' hk' heq => ?_⟩
    rw [List.mem_singleton.mp hk'] at heq
    exact hnew (heq ▸ hk)

/-- Stores a value. A key that is there already keeps its place. -/
def set (m : OrderedMap α) (key : String) (value : α) : OrderedMap α :=
  ofEntries (setEntry key value m.toList) (nodup_setEntry key value m.nodup_toList)

/-- Removes a key and its value. -/
def erase (m : OrderedMap α) (key : String) : OrderedMap α :=
  ofEntries (m.toList.filter (·.1 ≠ key)) (m.nodup_toList.sublist (List.filter_sublist.map _))

/-- The keys in lexical order. -/
def sortedKeys (m : OrderedMap α) : List String := m.keys.mergeSort (· ≤ ·)

def values (m : OrderedMap α) : List α := m.toList.map (·.2)

theorem map_fst_filterMap_sublist (f : String → α → Option β) (entries : List (String × α)) :
    ((entries.filterMap fun (key, value) => (f key value).map (key, ·)).map (·.1)).Sublist
      (entries.map (·.1)) := by
  induction entries with
  | nil => exact .slnil
  | cons entry rest ih =>
    cases hf : f entry.1 entry.2 with
    | none => simpa [List.filterMap_cons, hf] using ih.cons entry.1
    | some value => simpa [List.filterMap_cons, hf] using ih.cons_cons entry.1

/-- Replaces the values or leaves them out. -/
def filterMap (f : String → α → Option β) (m : OrderedMap α) : OrderedMap β :=
  ofEntries (m.toList.filterMap fun (key, value) => (f key value).map (key, ·))
    (m.nodup_toList.sublist (map_fst_filterMap_sublist f m.toList))

def map (f : String → α → β) (m : OrderedMap α) : OrderedMap β :=
  ofEntries (m.toList.map fun (key, value) => (key, f key value))
    (by simpa [Function.comp_def] using m.nodup_toList)

/-- A map from entries in which keys may repeat: the first place and the last value count. -/
def ofList (entries : List (String × α)) : OrderedMap α :=
  entries.foldl (fun m (key, value) => m.set key value) empty

@[simp] theorem toList_empty : (empty : OrderedMap α).toList = [] := rfl

@[simp] theorem toList_set (m : OrderedMap α) (key : String) (value : α) :
    (m.set key value).toList = setEntry key value m.toList :=
  toList_ofEntries _ _

@[simp] theorem toList_erase (m : OrderedMap α) (key : String) :
    (m.erase key).toList = m.toList.filter (·.1 ≠ key) :=
  toList_ofEntries _ _

@[simp] theorem toList_filterMap (f : String → α → Option β) (m : OrderedMap α) :
    (m.filterMap f).toList =
      m.toList.filterMap fun (key, value) => (f key value).map (key, ·) :=
  toList_ofEntries _ _

@[simp] theorem toList_map (f : String → α → β) (m : OrderedMap α) :
    (m.map f).toList = m.toList.map fun (key, value) => (key, f key value) :=
  toList_ofEntries _ _

theorem map_map (f : String → α → β) (g : String → β → γ) (m : OrderedMap α) :
    (m.map f).map g = m.map fun key value => g key (f key value) :=
  ext_toList (by simp)

theorem map_congr {f g : String → α → β} {m : OrderedMap α}
    (h : ∀ key value, (key, value) ∈ m.toList → f key value = g key value) :
    m.map f = m.map g := by
  refine ext_toList ?_
  rw [toList_map, toList_map]
  exact List.map_congr_left fun (key, value) hmem => congrArg (key, ·) (h key value hmem)

end OrderedMap

end ApiTypes
