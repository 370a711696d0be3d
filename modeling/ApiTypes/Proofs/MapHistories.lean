import ApiTypes.Proofs.Registry
import ApiTypes.Yaml.Record
import Mathlib.Data.List.Sort
import Mathlib.Logic.Function.Basic

/-!
What an ordered map holds after any sequence of changes. Every change comes down to events: a value
is put under a key, a key is dropped, or all is cleared. A history of events tells what is left of
it: each value that nothing after it removes gives a key, at the place of the first such value, and
the last of them stands under the key. A map that keeps its keys apart from what stands under them,
and changes both at each event, holds the same.
-/

namespace ApiTypes.OrderedMap

open Yaml (Decoder Node Tree)
open Yaml.Decode (visit)

variable {α : Type}

/-! What one change does to keys and values. -/

theorem lookup_cons_eq_ite (name key : String) (value : α) (rest : List (String × α)) :
    ((key, value) :: rest).lookup name = if name = key then some value else rest.lookup name := by
  by_cases hname : name = key
  · simp [hname]
  · rw [List.lookup_cons, beq_false_of_ne hname, if_neg hname]

theorem get?_set (m : OrderedMap α) (key : String) (value : α) (name : String) :
    (m.set key value).get? name = if name = key then some value else m.get? name := by
  simp only [get?, toList_set]
  induction m.toList with
  | nil => simp [setEntry, lookup_cons_eq_ite]
  | cons first rest ih =>
    obtain ⟨k, v⟩ := first
    rw [setEntry]
    by_cases hk : k = key
    · by_cases hname : name = key <;> simp [lookup_cons_eq_ite, hk, hname]
    · by_cases hname : name = k <;> simp [lookup_cons_eq_ite, hk, hname, ih]

/-- The keys are those under which something stands. -/
theorem mem_keys_iff (m : OrderedMap α) (key : String) : key ∈ m.keys ↔ (m.get? key).isSome := by
  simp only [keys_eq, get?]
  induction m.toList with
  | nil => simp
  | cons first rest ih =>
    obtain ⟨k, v⟩ := first
    by_cases hkey : key = k <;> simp [lookup_cons_eq_ite, hkey, ih]

theorem get?_eq_none {m : OrderedMap α} {key : String} (h : key ∉ m.keys) : m.get? key = none := by
  rwa [mem_keys_iff, Bool.not_eq_true, Option.isSome_eq_false_iff, Option.isNone_iff_eq_none] at h

theorem keys_erase (m : OrderedMap α) (key : String) :
    (m.erase key).keys = m.keys.filter (· ≠ key) := by
  simp [keys_eq, List.filter_map, Function.comp_def]

theorem get?_erase (m : OrderedMap α) (key name : String) :
    (m.erase key).get? name = if name = key then none else m.get? name := by
  by_cases hname : name = key
  · have hgone : key ∉ (m.erase key).keys := by simp [keys_erase]
    rw [hname, if_pos rfl, get?_eq_none hgone]
  · simp only [get?, toList_erase, if_neg hname]
    induction m.toList with
    | nil => simp
    | cons first rest ih =>
      obtain ⟨k, v⟩ := first
      by_cases hk : k = key
      · rw [List.filter_cons_of_neg (by simpa using hk), ih, lookup_cons_eq_ite,
          if_neg (hk ▸ hname)]
      · rw [List.filter_cons_of_pos (by simpa using hk), lookup_cons_eq_ite, ih,
          lookup_cons_eq_ite]

/-- A key that is stored again keeps its place. -/
theorem keys_set_of_mem {m : OrderedMap α} {key : String} (h : key ∈ m.keys) (value : α) :
    (m.set key value).keys = m.keys := by
  rw [keys_set, if_pos h]

/-- A key that is taken away and stored again stands at the end. -/
theorem keys_set_erase (m : OrderedMap α) (key : String) (value : α) :
    ((m.erase key).set key value).keys = m.keys.filter (· ≠ key) ++ [key] := by
  have hgone : key ∉ m.keys.filter (· ≠ key) := by simp
  rw [keys_set, keys_erase, if_neg hgone]

/-! Events. -/

/-- What can happen to a map: a value is put under a key, a key is dropped, or all is cleared. -/
inductive Event (α : Type) where
  | put (key : String) (value : α)
  | drop (key : String)
  | clear

namespace Event

/-- The map after the event. -/
def step (m : OrderedMap α) : Event α → OrderedMap α
  | .put key value => m.set key value
  | .drop key => m.erase key
  | .clear => .empty

/-- Nothing that was put under the key before is left after the event. -/
def removes (key : String) : Event α → Bool
  | .put .. => false
  | .drop k => k = key
  | .clear => true

/-- The value that is put under the key. -/
def valueUnder? (key : String) : Event α → Option α
  | .put k value => if k = key then some value else none
  | _ => none

end Event

/-- What is left of a history. Of a value that nothing later removes, the key is left, with the last
value under it, and the later values under it do not count again. -/
def replay : List (Event α) → List (String × α)
  | [] => []
  | .put key value :: later =>
    if later.any (·.removes key) then replay later
    else
      (key, (later.filterMap (·.valueUnder? key)).getLastD value) ::
        (replay later).filter (·.1 ≠ key)
  | _ :: later => replay later

section Replay

variable {key : String} {later : List (Event α)}

theorem replay_removed (value : α) (h : later.any (·.removes key) = true) :
    replay (.put key value :: later) = replay later := by
  rw [replay, if_pos h]

theorem replay_kept (value : α) (h : later.any (·.removes key) = false) :
    replay (.put key value :: later) =
      (key, (later.filterMap (·.valueUnder? key)).getLastD value) ::
        (replay later).filter (·.1 ≠ key) := by
  rw [replay, if_neg (by simp [h])]

end Replay

theorem filter_setEntry_self (key : String) (value : α) (entries : List (String × α)) :
    (setEntry key value entries).filter (·.1 ≠ key) = entries.filter (·.1 ≠ key) := by
  induction entries with
  | nil => simp [setEntry]
  | cons first rest ih =>
    obtain ⟨k, v⟩ := first
    rw [setEntry]
    by_cases hk : k = key
    · simp [hk]
    · rw [if_neg hk, List.filter_cons, List.filter_cons, ih]

theorem filter_setEntry_of_ne {key other : String} (h : key ≠ other) (value : α)
    (entries : List (String × α)) : (setEntry key value entries).filter (·.1 ≠ other) =
      setEntry key value (entries.filter (·.1 ≠ other)) := by
  induction entries with
  | nil => simp [setEntry, h]
  | cons first rest ih =>
    obtain ⟨k, v⟩ := first
    rw [setEntry]
    by_cases hk : k = key
    · subst hk
      simp [setEntry, h]
    · rw [if_neg hk, List.filter_cons, ih, List.filter_cons]
      by_cases hother : k = other
      · simp [hother]
      · simp [hother, setEntry, hk]

/-- A value that is put last stands at the place of its key, or at the end if the key is new. -/
theorem replay_put (events : List (Event α)) (key : String) (value : α) :
    replay (events ++ [.put key value]) = setEntry key value (replay events) := by
  induction events with
  | nil => simp [replay, setEntry]
  | cons event later ih =>
    cases event with
    | drop k => simpa [replay] using ih
    | clear => simpa [replay] using ih
    | put k v =>
      have hany : (later ++ [Event.put key value]).any (·.removes k) = later.any (·.removes k) := by
        simp [Event.removes]
      rw [List.cons_append]
      cases hremoved : later.any (·.removes k) with
      | true => rw [replay_removed v (hany.trans hremoved), replay_removed v hremoved, ih]
      | false =>
        rw [replay_kept v (hany.trans hremoved), replay_kept v hremoved, ih, setEntry]
        by_cases hk : k = key
        · subst hk
          rw [if_pos rfl, filter_setEntry_self]
          simp [Event.valueUnder?]
        · rw [if_neg hk, filter_setEntry_of_ne (Ne.symm hk)]
          simp [Event.valueUnder?, Ne.symm hk]

/-- Dropping a key last takes it away and leaves the others where they are. -/
theorem replay_drop (events : List (Event α)) (key : String) :
    replay (events ++ [.drop key]) = (replay events).filter (·.1 ≠ key) := by
  induction events with
  | nil => simp [replay]
  | cons event later ih =>
    cases event with
    | drop k => simpa [replay] using ih
    | clear => simpa [replay] using ih
    | put k v =>
      have hany : (later ++ [Event.drop key]).any (·.removes k) =
          (later.any (·.removes k) || decide (key = k)) := by simp [Event.removes]
      rw [List.cons_append]
      cases hremoved : later.any (·.removes k) with
      | true =>
        rw [replay_removed v (by simp [hany, hremoved]), replay_removed v hremoved, ih]
      | false =>
        rw [replay_kept v hremoved]
        by_cases hk : key = k
        · subst hk
          rw [replay_removed v (by simp [hany]), ih]
          simp
        · rw [replay_kept v (by simp [hany, hremoved, hk]), ih]
          simp [Event.valueUnder?, Ne.symm hk, List.filter_filter, Bool.and_comm]

theorem replay_clear (events : List (Event α)) : replay (events ++ [.clear]) = [] := by
  induction events with
  | nil => simp [replay]
  | cons event later ih => cases event <;> simp [replay, Event.removes, ih]

/-- A map to which a history happened holds what is left of the history. -/
theorem toList_foldl_step (events : List (Event α)) :
    (events.foldl Event.step .empty).toList = replay events := by
  induction events using List.reverseRecOn with
  | nil => simp [replay]
  | append_singleton events event ih =>
    rw [List.foldl_append, List.foldl_cons, List.foldl_nil]
    cases event with
    | put key value => rw [replay_put, ← ih, Event.step, toList_set]
    | drop key => rw [replay_drop, ← ih, Event.step, toList_erase]
    | clear => rw [replay_clear, Event.step, toList_empty]

/-! Keys and values apart. -/

/-- A map in two parts: the keys in order, and what stands under each. -/
structure Parts (α : Type) where
  order : List String
  content : String → Option α

namespace Parts

def empty : Parts α := ⟨[], fun _ => none⟩

/-- Stores a value; a key under which nothing stands goes to the end. -/
def set (p : Parts α) (key : String) (value : α) : Parts α where
  order := if (p.content key).isSome then p.order else p.order ++ [key]
  content := Function.update p.content key (some value)

/-- Takes away a key and what stands under it. -/
def erase (p : Parts α) (key : String) : Parts α :=
  if (p.content key).isSome then
    { order := p.order.erase key, content := Function.update p.content key none }
  else p

def step (p : Parts α) : Event α → Parts α
  | .put key value => p.set key value
  | .drop key => p.erase key
  | .clear => .empty

/-- The keys in order, each with what stands under it. -/
def all [Inhabited α] (p : Parts α) : List (String × α) :=
  p.order.map fun key => (key, (p.content key).getD default)

end Parts

/-- The keys of a map and its values, apart from each other. -/
def parts (m : OrderedMap α) : Parts α := ⟨m.keys, m.get?⟩

theorem parts_set (m : OrderedMap α) (key : String) (value : α) :
    (m.set key value).parts = m.parts.set key value := by
  have hcontent : (m.set key value).get? = Function.update m.get? key (some value) := by
    funext name
    rw [get?_set, Function.update_apply]
  by_cases hkey : key ∈ m.keys
  · simp [parts, Parts.set, keys_set, hkey, (mem_keys_iff m key).mp hkey, hcontent]
  · simp [parts, Parts.set, keys_set, hkey, get?_eq_none hkey, hcontent]

theorem parts_erase (m : OrderedMap α) (key : String) :
    (m.erase key).parts = m.parts.erase key := by
  have hcontent : (m.erase key).get? = Function.update m.get? key none := by
    funext name
    rw [get?_erase, Function.update_apply]
  rw [parts, Parts.erase]
  split
  · simp only [parts, hcontent, keys_erase, m.nodup_keys.erase_eq_filter, Parts.mk.injEq, and_true]
    exact List.filter_congr fun name _ => by simp [bne, beq_eq_decide]
  · rename_i hnone
    have hnew : key ∉ m.keys := by simpa [mem_keys_iff, parts] using hnone
    have hkeys : m.keys.filter (· ≠ key) = m.keys :=
      List.filter_eq_self.mpr fun name hname => by simpa using ne_of_mem_of_not_mem hname hnew
    have hsame : Function.update m.get? key none = m.get? :=
      Function.update_eq_self_iff.mpr (get?_eq_none hnew).symm
    rw [hcontent, keys_erase, hkeys, hsame, parts]

theorem parts_empty : (empty : OrderedMap α).parts = .empty := rfl

/-- Both parts change with each event as the map does. -/
theorem parts_foldl_step (events : List (Event α)) :
    (events.foldl Event.step .empty).parts = events.foldl Parts.step .empty := by
  induction events using List.reverseRecOn with
  | nil => exact parts_empty
  | append_singleton events event ih =>
    rw [List.foldl_append, List.foldl_append, ← ih]
    cases event with
    | put key value => exact parts_set _ key value
    | drop key => exact parts_erase _ key
    | clear => exact parts_empty

theorem all_parts [Inhabited α] (m : OrderedMap α) : m.parts.all = m.toList := by
  have hentry : ∀ entry ∈ m.toList, (entry.1, (m.get? entry.1).getD default) = entry := by
    intro entry hentry
    obtain ⟨before, after, heq⟩ := List.append_of_mem hentry
    have hfresh : ∀ other ∈ before, other.1 ≠ entry.1 := by
      intro other hother hkey
      have h := m.nodup_toList
      rw [heq, List.map_append, List.nodup_append] at h
      exact h.2.2 other.1 (List.mem_map_of_mem hother) entry.1 (by simp) hkey
    have hfound : m.get? entry.1 = some entry.2 := by
      rw [get?, List.lookup_eq_some_iff]
      exact ⟨before, after, heq, fun other hother => bne_iff_ne.mpr (hfresh other hother).symm⟩
    rw [hfound, Option.getD_some]
  rw [Parts.all, parts, keys_eq, List.map_map]
  exact (List.map_congr_left hentry).trans (List.map_id _)

/-! Entries that are stored one after the other. -/

theorem keys_ofList (entries : List (String × α)) :
    (ofList entries).keys = (entries.map (·.1)).eraseDups := by
  induction entries using List.reverseRecOn with
  | nil => simp [ofList, empty]
  | append_singleton entries entry ih =>
    rw [List.map_append, List.map_singleton, ← keys_set_of_eraseDups ih entry.1 entry.2, ofList,
      List.foldl_append]
    simp [ofList]

/-- The last value of a key stands under it. -/
theorem get?_ofList (before : List (String × α)) (entry : String × α) {after : List (String × α)}
    (h : ∀ later ∈ after, later.1 ≠ entry.1) :
    (ofList (before ++ entry :: after)).get? entry.1 = some entry.2 := by
  induction after using List.reverseRecOn with
  | nil => simp [ofList, List.foldl_append, get?_set]
  | append_singleton after last ih =>
    obtain ⟨hafter, hlast⟩ := List.forall_mem_append.mp h
    have hne : entry.1 ≠ last.1 := (hlast last (by simp)).symm
    have hsplit : before ++ entry :: (after ++ [last]) = (before ++ entry :: after) ++ [last] := by
      simp
    rw [hsplit, ofList, List.foldl_append, List.foldl_cons, List.foldl_nil, get?_set, if_neg hne]
    exact ih hafter

/-- The map has the keys of the entries in the order in which each first came, and under each key
the value of the last entry with it. -/
structure HoldsEntries (m : OrderedMap α) (entries : List (Node × Node)) (value : Node → α) :
    Prop where
  keys : m.keys = (entries.map (·.1.keyText)).eraseDups
  last : ∀ before entry after, entries = before ++ entry :: after →
    (∀ later ∈ after, later.1.keyText ≠ entry.1.keyText) →
      m.get? entry.1.keyText = some (value entry.2)

theorem holdsEntries_ofList (entries : List (Node × Node)) (value : Node → α) :
    (ofList (entries.map fun (key, node) => (key.keyText, value node))).HoldsEntries entries
      value where
  keys := by
    rw [keys_ofList, List.map_map]
    rfl
  last before entry after heq hlater := by
    rw [heq, List.map_append, List.map_cons]
    apply get?_ofList _ (entry.1.keyText, value entry.2)
    intro later hmem
    obtain ⟨pair, hpair, rfl⟩ := List.mem_map.mp hmem
    exact hlater pair hpair

/-! Changes. -/

/-- What is done to a map: a value is stored, a key is taken away, or a node is decoded onto it. -/
inductive Change (α : Type) where
  | set (key : String) (value : α)
  | erase (key : String)
  | decode (tree : Tree) (decoder : Decoder α) (node : Node)

section Decoding

variable [Inhabited α]

/-- What the entries of a mapping are decoded as, up to the first fault. -/
def decodedEntries (tree : Tree) (decoder : Decoder α) : List (Node × Node) → List (String × α)
  | [] => []
  | (key, node) :: rest =>
    match (visit node decoder).run tree with
    | .ok value => (key.keyText, value.getD default) :: decodedEntries tree decoder rest
    | .error _ => []

/-- What happens when a node is decoded: nothing if it is null or no mapping; otherwise all is
cleared and the entries are put in their order. -/
def decodingEvents (tree : Tree) (decoder : Decoder α) (node : Node) : List (Event α) :=
  if node.isNull then []
  else
    match node with
    | .mapping _ _ entries =>
      .clear :: (decodedEntries tree decoder entries).map fun (key, value) => .put key value
    | _ => []

namespace Change

/-- The map after the change. A fault while decoding leaves what was stored before it. -/
def apply (m : OrderedMap α) : Change α → OrderedMap α
  | .set key value => m.set key value
  | .erase key => m.erase key
  | .decode tree decoder node =>
    (Yaml.orderedOnto tree decoder m (tree.collections.unalias node)).1

def events : Change α → List (Event α)
  | .set key value => [.put key value]
  | .erase key => [.drop key]
  | .decode tree decoder node => decodingEvents tree decoder (tree.collections.unalias node)

end Change

/-- The map after some changes, one after the other, from an empty map on. -/
def run (changes : List (Change α)) : OrderedMap α := changes.foldl Change.apply .empty

def history (changes : List (Change α)) : List (Event α) := changes.flatMap Change.events

theorem orderedEntries_fst (tree : Tree) (decoder : Decoder α) (entries : List (Node × Node))
    (m : OrderedMap α) : (Yaml.orderedEntries tree decoder entries m).1 =
      (decodedEntries tree decoder entries).foldl (fun m entry => m.set entry.1 entry.2) m := by
  induction entries generalizing m with
  | nil => simp [Yaml.orderedEntries, decodedEntries]
  | cons entry rest ih =>
    rw [Yaml.orderedEntries, decodedEntries]
    cases (visit entry.2 decoder).run tree with
    | ok value => simpa using ih _
    | error cause => simp

theorem orderedOnto_fst (tree : Tree) (decoder : Decoder α) (m : OrderedMap α) (node : Node) :
    (Yaml.orderedOnto tree decoder m node).1 =
      (decodingEvents tree decoder node).foldl Event.step m := by
  unfold Yaml.orderedOnto decodingEvents
  split
  · simp
  · cases node with
    | mapping line tag entries =>
      simp [orderedEntries_fst, List.foldl_map, Event.step]
    | _ => simp

theorem apply_eq_foldl (m : OrderedMap α) (change : Change α) :
    change.apply m = change.events.foldl Event.step m := by
  cases change with
  | set key value => simp [Change.apply, Change.events, Event.step]
  | erase key => simp [Change.apply, Change.events, Event.step]
  | decode tree decoder node => exact orderedOnto_fst tree decoder m _

theorem run_eq_foldl (changes : List (Change α)) :
    run changes = (history changes).foldl Event.step .empty := by
  rw [run, history, List.foldl_flatMap]
  congr 1
  funext m change
  exact apply_eq_foldl m change

theorem run_concat (changes : List (Change α)) (change : Change α) :
    run (changes ++ [change]) = change.apply (run changes) := by
  simp [run, List.foldl_append]

/-! What decoding leaves. -/

theorem orderedOnto_null {tree : Tree} {decoder : Decoder α} {m : OrderedMap α} {node : Node}
    (h : node.isNull = true) : Yaml.orderedOnto tree decoder m node = (m, none) := by
  unfold Yaml.orderedOnto
  rw [if_pos h]

section Mapping

variable {tree : Tree} {decoder : Decoder α} {entries : List (Node × Node)}
  {value : Node → Option α}

/-- Where all values can be decoded, there is no fault and all entries are stored. -/
theorem orderedEntries_of_values
    (h : ∀ entry ∈ entries, (visit entry.2 decoder).run tree = .ok (value entry.2))
    (m : OrderedMap α) : Yaml.orderedEntries tree decoder entries m =
      (entries.foldl (fun m entry => m.set entry.1.keyText ((value entry.2).getD default)) m,
        none) := by
  induction entries generalizing m with
  | nil => simp [Yaml.orderedEntries]
  | cons entry rest ih =>
    obtain ⟨hfirst, hrest⟩ := List.forall_mem_cons.mp h
    rw [Yaml.orderedEntries, hfirst]
    exact ih hrest _

theorem orderedOnto_mapping {line : Nat} {tag : String} (htag : tag ≠ "!!null")
    (h : ∀ entry ∈ entries, (visit entry.2 decoder).run tree = .ok (value entry.2))
    (m : OrderedMap α) : Yaml.orderedOnto tree decoder m (.mapping line tag entries) =
      (ofList (entries.map fun (key, node) => (key.keyText, (value node).getD default)), none) := by
  have hnull : (Node.mapping line tag entries).isNull = false := by
    simpa [Node.isNull, Node.tag] using htag
  simp [Yaml.orderedOnto, hnull, orderedEntries_of_values h, ofList, List.foldl_map]

end Mapping

/-! All together. -/

/-- What a map shows is a list of entries in which no key stands twice. -/
structure Shows (m : OrderedMap α) (list : List (String × α)) : Prop where
  toList : m.toList = list
  keys : m.keys = list.map (·.1)
  size : m.size = list.length
  get? : ∀ key, m.get? key = list.lookup key
  nodup : m.keys.Nodup
  stored : ∀ key, key ∈ m.keys ↔ (m.get? key).isSome
  sorted : m.sortedKeys.Perm m.keys ∧ m.sortedKeys.Pairwise (· ≤ ·)

theorem shows_run (changes : List (Change α)) : (run changes).Shows (replay (history changes)) := by
  have hlist : (run changes).toList = replay (history changes) := by
    rw [run_eq_foldl, toList_foldl_step]
  rw [← hlist]
  exact
    { toList := rfl
      keys := keys_eq _
      size := by rw [size, keys_eq, List.length_map]
      get? := fun _ => rfl
      nodup := nodup_keys _
      stored := mem_keys_iff _
      sorted := ⟨List.mergeSort_perm _ _, List.pairwise_mergeSort' (· ≤ ·) _⟩ }

theorem parts_run (changes : List (Change α)) :
    (run changes).parts = (history changes).foldl Parts.step .empty := by
  rw [run_eq_foldl, parts_foldl_step]

/-- After any changes a map shows what is left of their history, and so does the map that keeps keys
and values apart. Storing under a key that is there keeps its place, taking it away and storing it
again moves it to the end. Decoding null leaves the map; decoding a mapping whose values can be
decoded meets no fault, and gives its keys where each first stands with the last value of each. -/
theorem run_refines (changes : List (Change α)) :
    (run changes).Shows (replay (history changes)) ∧
    ((history changes).foldl Parts.step .empty = (run changes).parts ∧
      (run changes).parts.all = replay (history changes)) ∧
    (∀ key ∈ (run changes).keys, ∀ value,
      (run (changes ++ [.set key value])).keys = (run changes).keys) ∧
    (∀ key value, (run (changes ++ [.erase key] ++ [.set key value])).keys =
      (run changes).keys.filter (· ≠ key) ++ [key]) ∧
    (∀ tree decoder node, (tree.collections.unalias node).isNull = true →
      run (changes ++ [.decode tree decoder node]) = run changes) ∧
    ∀ (tree : Tree) (decoder : Decoder α) (node : Node) (line : Nat) (tag : String)
      (entries : List (Node × Node)) (value : Node → Option α),
      tree.collections.unalias node = .mapping line tag entries → tag ≠ "!!null" →
      (∀ entry ∈ entries, (visit entry.2 decoder).run tree = .ok (value entry.2)) →
        (Yaml.orderedOnto tree decoder (run changes) (tree.collections.unalias node)).2 = none ∧
        (run (changes ++ [.decode tree decoder node])).HoldsEntries entries
          fun node => (value node).getD default := by
  have hshows := shows_run changes
  have hall : (run changes).parts.all = replay (history changes) := by
    rw [all_parts, hshows.toList]
  refine ⟨hshows, ⟨(parts_run changes).symm, hall⟩, ?place, ?moved, ?null, ?mapping⟩
  case place =>
    intro key hkey value
    rw [run_concat, Change.apply, keys_set_of_mem hkey]
  case moved =>
    intro key value
    rw [run_concat, run_concat, Change.apply, Change.apply, keys_set_erase]
  case null =>
    intro tree decoder node hnull
    rw [run_concat, Change.apply, orderedOnto_null hnull]
  case mapping =>
    intro tree decoder node line tag entries value hnode htag hvalues
    have hstored := holdsEntries_ofList entries fun node => (value node).getD default
    rw [run_concat, Change.apply, hnode, orderedOnto_mapping htag hvalues]
    exact ⟨rfl, hstored⟩

end Decoding

/-! Mappings of texts. -/

def textNode (text : String) : Node := .scalar 1 "!!str" text

/-- A document that is a mapping of plain texts. -/
def mappingTree (tag : String) (entries : List (Node × Node)) : Tree :=
  ⟨.mapping 1 tag entries, [], 8⟩

/-- Decodes the root of a document as a map of texts. -/
def decodeRoot (tree : Tree) : Change String := .decode tree Yaml.text tree.root

/-- A mapping in which a key stands twice. -/
def repeatedKey : List (Node × Node) :=
  [(textNode "b", textNode "x"), (textNode "a", textNode "y"), (textNode "b", textNode "z")]

/-- The key that stands twice keeps its first place and takes its last value, also in a map that had
another key before; null leaves that map. -/
theorem run_refines_repeated_key :
    "c" ∈ (run [Change.set "c" "u"]).keys ∧
    (run [Change.set "c" "u", .set "c" "v"]).keys = ["c"] ∧
    run [Change.set "c" "u", decodeRoot (mappingTree "!!null" [])] = run [Change.set "c" "u"] ∧
    (∀ entry ∈ repeatedKey, (visit entry.2 Yaml.text).run (mappingTree "!!map" repeatedKey) =
      .ok (some entry.2.keyText)) ∧
    (run [Change.set "c" "u", decodeRoot (mappingTree "!!map" repeatedKey)]).keys = ["b", "a"] ∧
    (run [Change.set "c" "u", decodeRoot (mappingTree "!!map" repeatedKey)]).get? "b" =
      some "z" := by
  have hstored : "c" ∈ (run [Change.set "c" "u"]).keys := by
    have hkeys : (run [Change.set "c" "u"]).keys = ["c"] := rfl
    simp [hkeys]
  have hvalues : ∀ entry ∈ repeatedKey,
      (visit entry.2 Yaml.text).run (mappingTree "!!map" repeatedKey) =
        .ok (some entry.2.keyText) := by
    simp only [repeatedKey, List.forall_mem_cons]
    exact ⟨rfl, rfl, rfl, nofun⟩
  obtain ⟨-, -, hplace, -, hnull, hmapping⟩ := run_refines [Change.set "c" "u"]
  obtain ⟨-, hentries⟩ := hmapping (mappingTree "!!map" repeatedKey) Yaml.text
    (mappingTree "!!map" repeatedKey).root 1 "!!map" repeatedKey (fun node => some node.keyText)
    rfl (by simp) hvalues
  exact ⟨hstored, hplace "c" hstored "v", hnull _ _ _ rfl, hvalues, hentries.keys,
    hentries.last [(textNode "b", textNode "x"), (textNode "a", textNode "y")]
      (textNode "b", textNode "z") [] rfl nofun⟩

/-- A mapping with an alias as a key, which stands for another text than its name. -/
def aliasedKey : List (Node × Node) :=
  [(textNode "a", textNode "b"), (.alias 1 "k" 1 (textNode "b"), textNode "y")]

/-- A mapping with the tag of null gives no keys, and an alias gives its name and not the text that
it stands for. -/
theorem keys_null_mapping_and_alias_key :
    (run [decodeRoot (mappingTree "!!null" [(textNode "a", textNode "x")])]).keys = [] ∧
    (run [decodeRoot (mappingTree "!!map" aliasedKey)]).keys = ["a", "k"] := by
  constructor
  · rfl
  · rfl

end ApiTypes.OrderedMap
