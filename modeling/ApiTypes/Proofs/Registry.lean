import ApiTypes.OperationRegistry
import Mathlib.Data.List.Induction
import Mathlib.Data.List.Pairwise

/-!
What a map holds in which a number of elements were stored, each under its key: the keys in the
order in which each first came, and under each key the last element with it. So a registry of
operations holds the last entry that was registered with an id, where the id first came.

A registration finds out that its id is in use elsewhere by the last entry with that id alone. This
is enough to find the first id that is used at two places, because the entry that holds an id does
not hide where the id was used before unless that has been found out.
-/

namespace ApiTypes

variable {α β : Type}

theorem eraseDups_concat [BEq β] [LawfulBEq β] (list : List β) (x : β) :
    (list ++ [x]).eraseDups =
      if x ∈ list.eraseDups then list.eraseDups else list.eraseDups ++ [x] := by
  rw [List.eraseDups_append]
  by_cases hmem : x ∈ list <;> simp [List.removeAll, List.eraseDups_cons, hmem]

/-- What is told apart by `f` repeats as its images do. -/
theorem map_eraseDups [BEq α] [LawfulBEq α] [BEq β] [LawfulBEq β] {f : α → β} {list : List α}
    (h : ∀ x ∈ list, ∀ y ∈ list, f x = f y → x = y) :
    (list.map f).eraseDups = list.eraseDups.map f := by
  induction list using List.reverseRecOn with
  | nil => rfl
  | append_singleton list x ih =>
    obtain ⟨hlist, -⟩ := List.forall_mem_append.mp h
    have hmem : f x ∈ list.eraseDups.map f ↔ x ∈ list.eraseDups := by
      refine ⟨fun hfx => ?_, List.mem_map_of_mem⟩
      obtain ⟨y, hy, heq⟩ := List.mem_map.mp hfx
      have hyList := List.mem_eraseDups.mp hy
      exact hlist y hyList x (by simp) heq ▸ hy
    rw [List.map_append, List.map_singleton, eraseDups_concat, eraseDups_concat,
      ih fun y hy z hz => hlist y hy z (List.mem_append_left _ hz)]
    simp only [hmem]
    split
    · rfl
    · rw [List.map_append, List.map_singleton]

namespace OrderedMap

/-- A key that is new goes to the end; one that is there stays at its place. -/
theorem keys_set (m : OrderedMap α) (key : String) (value : α) :
    (m.set key value).keys = if key ∈ m.keys then m.keys else m.keys ++ [key] := by
  rw [keys_eq, toList_set, keys_setEntry, ← keys_eq]

/-- If the keys were stored in the order of a list, with one more they are. -/
theorem keys_set_of_eraseDups {m : OrderedMap α} {names : List String}
    (h : m.keys = names.eraseDups) (key : String) (value : α) :
    (m.set key value).keys = (names ++ [key]).eraseDups := by
  rw [keys_set, h, eraseDups_concat]

/-- Where no key stands twice, setting one changes its entry and no other. -/
theorem mem_setEntry_of_nodup {key : String} {value : α} {entries : List (String × α)}
    (h : (entries.map (·.1)).Nodup) {entry : String × α}
    (hmem : entry ∈ setEntry key value entries) :
    entry = (key, value) ∨ entry.1 ≠ key ∧ entry ∈ entries := by
  induction entries with
  | nil => exact .inl (List.mem_singleton.mp hmem)
  | cons first rest ih =>
    obtain ⟨k, v⟩ := first
    obtain ⟨hfresh, hrest⟩ := List.nodup_cons.mp h
    rw [setEntry] at hmem
    split at hmem
    · rename_i hkey
      subst hkey
      rcases List.mem_cons.mp hmem with rfl | htail
      · exact .inl rfl
      · have hne : entry.1 ≠ k := fun heq => hfresh (List.mem_map.mpr ⟨entry, htail, heq⟩)
        exact .inr ⟨hne, List.mem_cons_of_mem _ htail⟩
    · rename_i hkey
      rcases List.mem_cons.mp hmem with rfl | htail
      · exact .inr ⟨hkey, List.mem_cons_self⟩
      · exact (ih hrest htail).imp_right (And.imp_right (List.mem_cons_of_mem _))

theorem mem_toList_set {m : OrderedMap α} {key : String} {value : α} {entry : String × α}
    (h : entry ∈ (m.set key value).toList) :
    entry = (key, value) ∨ entry.1 ≠ key ∧ entry ∈ m.toList :=
  mem_setEntry_of_nodup m.nodup_toList (by rwa [toList_set] at h)

/-- The element is the last of the list with its key. -/
def IsLast (key : α → β) (list : List α) (x : α) : Prop :=
  ∃ earlier later, list = earlier ++ x :: later ∧ ∀ y ∈ later, key y ≠ key x

theorem IsLast.append_other {key : α → β} {list : List α} {x y : α} (h : IsLast key list x)
    (hne : key y ≠ key x) : IsLast key (list ++ [y]) x := by
  obtain ⟨earlier, later, rfl, hlater⟩ := h
  refine ⟨earlier, later ++ [y], by simp, fun z hz => ?_⟩
  rcases List.mem_append.mp hz with hold | hnew
  · exact hlater z hold
  · rw [List.mem_singleton.mp hnew]
    exact hne

theorem IsLast.mem {key : α → β} {list : List α} {x : α} (h : IsLast key list x) : x ∈ list := by
  obtain ⟨earlier, later, rfl, -⟩ := h
  simp

/-- What a map holds in which the elements of a list were stored, each under its key. -/
structure Latest (key : α → String) (list : List α) (m : OrderedMap α) : Prop where
  keys : m.keys = (list.map key).eraseDups
  entries : ∀ name x, (name, x) ∈ m.toList → key x = name ∧ IsLast key list x

variable {key : α → String} {list : List α} {m : OrderedMap α}

/-- The values stand in the order of their keys. -/
theorem Latest.map_values (h : Latest key list m) :
    m.values.map key = (list.map key).eraseDups := by
  rw [← h.keys, values, keys_eq, List.map_map]
  exact List.map_congr_left fun entry hentry => (h.entries entry.1 entry.2 hentry).1

theorem Latest.isLast (h : Latest key list m) {x : α} (hx : x ∈ m.values) :
    IsLast key list x := by
  obtain ⟨entry, hentry, rfl⟩ := List.mem_map.mp hx
  exact (h.entries entry.1 entry.2 hentry).2

/-- One more element: its key keeps the place it has or goes to the end, and it takes the place of
the element before. -/
theorem Latest.set (h : Latest key list m) (x : α) :
    Latest key (list ++ [x]) (m.set (key x) x) where
  keys := by rw [List.map_append, List.map_singleton, keys_set_of_eraseDups h.keys]
  entries name y hmem := by
    rcases mem_toList_set hmem with heq | ⟨hne, hold⟩
    · cases heq
      exact ⟨rfl, list, [], rfl, nofun⟩
    · obtain ⟨rfl, hlast⟩ := h.entries name y hold
      exact ⟨rfl, hlast.append_other (Ne.symm hne)⟩

theorem latest_ofList (key : α → String) (list : List α) :
    Latest key list (ofList (list.map fun x => (key x, x))) := by
  induction list using List.reverseRecOn with
  | nil => exact ⟨rfl, nofun⟩
  | append_singleton list x ih =>
    rw [List.map_append, ofList, List.foldl_append]
    exact ih.set x

end OrderedMap

namespace OperationRegistry

/-- Registers some entries, one after the other. -/
def registerAll (r : OperationRegistry) (log : List OperationEntry) : OperationRegistry :=
  log.foldl (fun r e => (r.register e).2) r

theorem registerAll_append (r : OperationRegistry) (log log' : List OperationEntry) :
    r.registerAll (log ++ log') = (r.registerAll log).registerAll log' := List.foldl_append

/-- The entry is the last in the list with its id. -/
def IsLast (log : List OperationEntry) (e : OperationEntry) : Prop :=
  ∃ earlier later, log = earlier ++ e :: later ∧ ∀ e' ∈ later, e'.id ≠ e.id

theorem IsLast.append_other {log : List OperationEntry} {e e' : OperationEntry}
    (h : IsLast log e) (hne : e'.id ≠ e.id) : IsLast (log ++ [e']) e :=
  OrderedMap.IsLast.append_other h hne

/-- What a registry holds that was filled from a list of entries. -/
structure Holds (r : OperationRegistry) (log : List OperationEntry) : Prop where
  keys : r.keys = (log.map (·.id)).eraseDups
  entries : ∀ key e, (key, e) ∈ r.toList → e.id = key ∧ IsLast log e

theorem holds_iff_latest {r : OperationRegistry} {log : List OperationEntry} :
    r.Holds log ↔ OrderedMap.Latest (·.id) log r :=
  ⟨fun h => ⟨h.keys, h.entries⟩, fun h => ⟨h.keys, h.entries⟩⟩

/-- The entries stand in the order of their ids. -/
theorem Holds.ids_values {r : OperationRegistry} {log : List OperationEntry} (h : r.Holds log) :
    r.values.map (·.id) = (log.map (·.id)).eraseDups := (holds_iff_latest.mp h).map_values

/-- One more registration: its id keeps the place it has or goes to the end, and its entry takes
the place of the one before. -/
theorem Holds.register {r : OperationRegistry} {log : List OperationEntry} (h : r.Holds log)
    (e : OperationEntry) : (r.register e).2.Holds (log ++ [e]) :=
  holds_iff_latest.mpr ((holds_iff_latest.mp h).set e)

/-- After a number of registrations the ids stand in the order in which they first came, each with
the last entry of that id. -/
theorem holds_registerAll (log : List OperationEntry) :
    (registerAll .empty log).Holds log := by
  induction log using List.reverseRecOn with
  | nil => exact ⟨rfl, nofun⟩
  | append_singleton log e ih =>
    rw [registerAll_append]
    exact ih.register e

/-! Ids in use. -/

/-- Two operations use one id at different places. -/
def Clash (e e' : OperationEntry) : Prop :=
  e.id = e'.id ∧ (e.place ≠ e'.place ∨ e.method ≠ e'.method)

theorem Clash.symm {e e' : OperationEntry} (h : Clash e e') : Clash e' e :=
  ⟨h.1.symm, h.2.imp Ne.symm Ne.symm⟩

/-- The first registration that finds its id in use elsewhere, after the entry that uses it. -/
def clash? (r : OperationRegistry) : List OperationEntry → Option (OperationEntry × OperationEntry)
  | [] => none
  | e :: rest => ((r.register e).1.map (·, e)).or (clash? (r.register e).2 rest)

theorem clash?_append (r : OperationRegistry) (log log' : List OperationEntry) :
    r.clash? (log ++ log') = (r.clash? log).or ((r.registerAll log).clash? log') := by
  induction log generalizing r with
  | nil => rfl
  | cons e rest ih => rw [List.cons_append, clash?, clash?, ih, Option.or_assoc]; rfl

theorem clash?_singleton (r : OperationRegistry) (e : OperationEntry) :
    r.clash? [e] = (r.register e).1.map (·, e) := Option.or_none

theorem exists_isLast {log : List OperationEntry} {e : OperationEntry} (h : e ∈ log) :
    ∃ last, IsLast log last ∧ last.id = e.id := by
  induction log using List.reverseRecOn with
  | nil => cases h
  | append_singleton log e' ih =>
    by_cases hid : e'.id = e.id
    · exact ⟨e', ⟨log, [], rfl, List.forall_mem_nil _⟩, hid⟩
    · rcases List.mem_append.mp h with hold | hnew
      · obtain ⟨last, hlast, heq⟩ := ih hold
        exact ⟨last, hlast.append_other (heq ▸ hid), heq⟩
      · exact absurd (List.mem_singleton.mp hnew ▸ rfl) hid

theorem IsLast.mem {log : List OperationEntry} {e : OperationEntry} (h : IsLast log e) :
    e ∈ log := OrderedMap.IsLast.mem h

theorem IsLast.unique {log : List OperationEntry} {e e' : OperationEntry} (h : IsLast log e)
    (h' : IsLast log e') (hid : e.id = e'.id) : e = e' := by
  obtain ⟨earlier, later, rfl, hlater⟩ := h
  obtain ⟨earlier', later', heq, hlater'⟩ := h'
  rcases List.append_eq_append_iff.mp heq with ⟨between, -, hrest⟩ | ⟨between, -, hrest⟩
  · cases between with
    | nil => exact (List.cons.inj hrest).1
    | cons x between =>
      obtain ⟨rfl, rfl⟩ := List.cons.inj hrest
      exact absurd hid.symm (hlater e' (by simp))
  · cases between with
    | nil => exact (List.cons.inj hrest).1.symm
    | cons x between =>
      obtain ⟨rfl, rfl⟩ := List.cons.inj hrest
      exact absurd hid (hlater' e (by simp))

/-- What stands under an id is the last entry that was registered with it. -/
theorem Holds.get?_eq_some_iff {r : OperationRegistry} {log : List OperationEntry}
    (h : r.Holds log) {id : String} {e : OperationEntry} :
    r.get? id = some e ↔ IsLast log e ∧ e.id = id := by
  have hsome {e : OperationEntry} (he : r.get? id = some e) : IsLast log e ∧ e.id = id := by
    obtain ⟨before, after, heq, -⟩ := List.lookup_eq_some_iff.mp he
    have hmem : (id, e) ∈ r.toList := by
      rw [heq]
      simp
    exact (h.entries id e hmem).symm
  refine ⟨hsome, fun ⟨hlast, hid⟩ => ?_⟩
  cases hfound : r.get? id with
  | none =>
    have hkey : id ∈ r.toList.map (·.1) := by
      rw [← r.keys_eq, h.keys, List.mem_eraseDups]
      exact List.mem_map.mpr ⟨e, hlast.mem, hid⟩
    obtain ⟨entry, hentry, heq⟩ := List.mem_map.mp hkey
    exact absurd heq.symm (by simpa using List.lookup_eq_none_iff.mp hfound entry hentry)
  | some e' =>
    obtain ⟨hlast', hid'⟩ := hsome hfound
    rw [hlast'.unique hlast (hid'.trans hid.symm)]

/-- A registration looks at the last entry with its id. -/
theorem Holds.register_fst {r : OperationRegistry} {log : List OperationEntry} (h : r.Holds log)
    {e earlier : OperationEntry} :
    (r.register e).1 = some earlier ↔ IsLast log earlier ∧ Clash earlier e := by
  change Option.filter _ (r.get? e.id) = some earlier ↔ _
  rw [Option.filter_eq_some_iff, h.get?_eq_some_iff, and_assoc]
  simp [Clash]

/-- No id is used at two places. -/
def ClashFree (log : List OperationEntry) : Prop := log.Pairwise fun e e' => ¬ Clash e e'

theorem ClashFree.forall {log : List OperationEntry} (h : ClashFree log) :
    ∀ e ∈ log, ∀ e' ∈ log, ¬ Clash e e' :=
  List.Pairwise.forall_of_forall_of_flip (fun _ _ hsame => hsame.2.elim (· rfl) (· rfl)) h
    (h.imp fun hnot hclash => hnot hclash.symm)

theorem clashFree_iff {log : List OperationEntry} :
    ClashFree log ↔ ∀ e ∈ log, ∀ e' ∈ log, ¬ Clash e e' :=
  ⟨ClashFree.forall, fun h => List.pairwise_iff_forall_sublist.mpr fun hsub =>
    h _ (hsub.subset (by simp)) _ (hsub.subset (by simp))⟩

/-- No registration finds its id in use elsewhere exactly if no id is used at two places. -/
theorem clash?_eq_none_iff {log : List OperationEntry} :
    clash? .empty log = none ↔ ClashFree log := by
  induction log using List.reverseRecOn with
  | nil => exact ⟨fun _ => .nil, fun _ => rfl⟩
  | append_singleton log e ih =>
    have hholds := holds_registerAll log
    rw [clash?_append, clash?_singleton, Option.or_eq_none_iff, ih, Option.map_eq_none_iff]
    constructor
    · rintro ⟨hfree, hnone⟩
      refine List.pairwise_append.mpr ⟨hfree, List.pairwise_singleton _ e, fun x hx e' he' => ?_⟩
      rw [List.mem_singleton.mp he']
      intro hclash
      -- The last entry with the id stands where `x` stands, so it would have been found.
      obtain ⟨last, hlast, hid⟩ := exists_isLast hx
      have hagree : last.place = x.place ∧ last.method = x.method := by
        have hnot := hfree.forall last hlast.mem x hx
        simpa [Clash, hid] using hnot
      have hfound := hholds.register_fst.mpr ⟨hlast, hid.trans hclash.1, by
        rw [hagree.1, hagree.2]
        exact hclash.2⟩
      rw [hnone] at hfound
      cases hfound
    · intro hfree
      obtain ⟨hbefore, -, hlater⟩ := List.pairwise_append.mp hfree
      refine ⟨hbefore, Option.eq_none_iff_forall_ne_some.mpr fun earlier hfound => ?_⟩
      obtain ⟨hlast, hclash⟩ := hholds.register_fst.mp hfound
      exact hlater earlier hlast.mem e List.mem_cons_self hclash

/-- The second entry is the first in the list whose id is used before it at another place, and the
first is the one that holds the id then. -/
def FirstClash (log : List OperationEntry) (earlier later : OperationEntry) : Prop :=
  ∃ before after, log = before ++ later :: after ∧ ClashFree before ∧ IsLast before earlier ∧
    Clash earlier later

theorem clash?_eq_some_iff {log : List OperationEntry} {earlier later : OperationEntry} :
    clash? .empty log = some (earlier, later) ↔ FirstClash log earlier later := by
  constructor
  · intro h
    induction log using List.reverseRecOn with
    | nil => cases h
    | append_singleton log e ih =>
      rw [clash?_append, clash?_singleton, Option.or_eq_some_iff] at h
      rcases h with hold | ⟨hnone, hnew⟩
      · obtain ⟨before, after, rfl, hfirst⟩ := ih hold
        exact ⟨before, after ++ [e], by simp, hfirst⟩
      · obtain ⟨_, hfound, heq⟩ := Option.map_eq_some_iff.mp hnew
        cases heq
        obtain ⟨hlast, hclash⟩ := (holds_registerAll log).register_fst.mp hfound
        exact ⟨log, [], rfl, clash?_eq_none_iff.mp hnone, hlast, hclash⟩
  · rintro ⟨before, after, rfl, hfree, hlast, hclash⟩
    have hfound := (holds_registerAll before).register_fst.mpr ⟨hlast, hclash⟩
    rw [clash?_append, clash?_eq_none_iff.mpr hfree, Option.none_or, clash?, hfound]
    rfl

end OperationRegistry

end ApiTypes
