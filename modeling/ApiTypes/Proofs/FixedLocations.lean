import ApiTypes.External.Files
import ApiTypes.Proofs.WebAddresses

/-!
Locations that are the same from wherever they are looked at: paths from the root, and addresses on
the web that name a place there. What is relative to such a location is such a location again. This
is not so for addresses of other schemes, which are taken for relative paths there.
-/

namespace ApiTypes

namespace Text

variable {c : Char}

theorem mem_of_mem_splitChars {sep : Char} {cs piece : List Char} (h : piece ∈ splitChars sep cs)
    (hc : c ∈ piece) : c ∈ cs := by
  induction cs generalizing piece with
  | nil =>
    rw [List.mem_singleton.mp h] at hc
    cases hc
  | cons first rest ih =>
    rw [splitChars_cons] at h
    split at h
    · rcases List.mem_cons.mp h with rfl | hmem
      · cases hc
      · exact List.mem_cons_of_mem _ (ih hmem hc)
    · cases hpieces : splitChars sep rest with
      | nil =>
        rw [hpieces] at h
        rw [List.mem_singleton.mp h] at hc
        rw [List.mem_singleton.mp hc]
        exact List.mem_cons_self
      | cons head others =>
        rw [hpieces] at h ih
        rcases List.mem_cons.mp h with rfl | hmem
        · rcases List.mem_cons.mp hc with rfl | hrest
          · exact List.mem_cons_self
          · exact List.mem_cons_of_mem _ (ih List.mem_cons_self hrest)
        · exact List.mem_cons_of_mem _ (ih (List.mem_cons_of_mem _ hmem) hc)

theorem not_mem_join {sep : String} (hsep : c ∉ sep.toList) {parts : List String}
    (h : ∀ part ∈ parts, c ∉ part.toList) : c ∉ (join sep parts).toList := by
  fun_induction join sep parts with
  | case1 => exact List.not_mem_nil
  | case2 s => exact h s List.mem_cons_self
  | case3 s rest _ ih =>
    obtain ⟨hfirst, hrest⟩ := List.forall_mem_cons.mp h
    simp only [String.toList_append, List.mem_append, not_or]
    exact ⟨⟨hfirst, hsep⟩, ih hrest⟩

end Text

namespace Location

theorem hash_not_mem_cleanStep {rooted : Bool} {done : List String} {part : String}
    (hdone : ∀ p ∈ done, '#' ∉ p.toList) (hpart : '#' ∉ part.toList) :
    ∀ p ∈ cleanStep rooted done part, '#' ∉ p.toList := by
  have hup : '#' ∉ "..".toList := by decide
  fun_cases cleanStep rooted done part with
  | case1 => exact hdone
  | case2 => exact List.forall_mem_nil _
  | case3 => exact List.forall_mem_singleton.mpr hup
  | case4 => exact List.forall_mem_cons.mpr ⟨hup, hdone⟩
  | case5 last before => exact (List.forall_mem_cons.mp hdone).2
  | case6 => exact List.forall_mem_cons.mpr ⟨hpart, hdone⟩

theorem hash_not_mem_foldl_cleanStep {rooted : Bool} {parts done : List String}
    (hparts : ∀ p ∈ parts, '#' ∉ p.toList) (hdone : ∀ p ∈ done, '#' ∉ p.toList) :
    ∀ p ∈ parts.foldl (cleanStep rooted) done, '#' ∉ p.toList := by
  induction parts generalizing done with
  | nil => exact hdone
  | cons part rest ih =>
    obtain ⟨hpart, hrest⟩ := List.forall_mem_cons.mp hparts
    exact ih hrest (hash_not_mem_cleanStep hdone hpart)

theorem hash_not_mem_clean {path : String} (h : '#' ∉ path.toList) : '#' ∉ (clean path).toList := by
  have hparts : ∀ p ∈ Text.split '/' path, '#' ∉ p.toList := by
    intro p hp hmem
    obtain ⟨piece, hpiece, rfl⟩ := List.mem_map.mp hp
    rw [String.toList_ofList] at hmem
    exact h (Text.mem_of_mem_splitChars hpiece hmem)
  have hbody (rooted : Bool) : '#' ∉ (Text.join "/"
      ((Text.split '/' path).foldl (cleanStep rooted) []).reverse).toList :=
    Text.not_mem_join (by decide) fun part hpart =>
      hash_not_mem_foldl_cleanStep hparts (List.forall_mem_nil _) part (List.mem_reverse.mp hpart)
  unfold clean
  dsimp only
  split
  · simp only [String.toList_append, List.mem_append, not_or]
    exact ⟨by decide, hbody _⟩
  · split
    · decide
    · exact hbody _

theorem clean_ne_empty (path : String) : clean path ≠ "" := by
  unfold clean
  dsimp only
  split
  · simp
  · split
    · decide
    · assumption

theorem joinPaths_directory (path location : String) : joinPaths [directory path, location] =
    clean (directory path ++ "/" ++ location) := by
  have hne : directory path ≠ "" := clean_ne_empty _
  simp [joinPaths, hne, Text.join]

/-! Paths from the root. -/

theorem not_isRooted_join {names : List String} (h : ∀ name ∈ names, IsName name) :
    ¬ IsRooted (Text.join "/" names).toList := by
  have hfirst {name : String} (hname : IsName name) (more : List Char) :
      ¬ IsRooted (name.toList ++ more) := by
    obtain ⟨c, rest, hcs⟩ := List.exists_cons_of_ne_nil (l := name.toList)
      (by simpa using hname.nonempty)
    rw [IsRooted, hcs]
    intro hhead
    rw [List.cons_append, List.head?_cons] at hhead
    exact hname.noSlash (hcs ▸ Option.some.inj hhead ▸ List.mem_cons_self)
  rcases names with _ | ⟨name, _ | ⟨next, rest⟩⟩
  · intro hroot
    cases hroot
  · rw [Text.join, ← List.append_nil name.toList]
    exact hfirst (h name List.mem_cons_self) []
  · rw [Text.join, String.toList_append, String.toList_append, List.append_assoc]
    · exact hfirst (h name List.mem_cons_self) _
    · exact List.cons_ne_nil next rest

/-- What is relative to a path from the root is a path from the root, with a single slash. -/
theorem exists_joinPaths_directory {path : String} (h : isAbsolutePath path = true)
    (location : String) : ∃ rest,
      (joinPaths [directory path, location]).toList = '/' :: rest ∧ ¬ IsRooted rest := by
  have hrooted : isAbsolutePath (directory path ++ "/" ++ location) = true := by
    rw [String.append_assoc]
    exact isAbsolutePath_append (by rwa [isAbsolutePath_directory]) _
  rw [joinPaths_directory, clean_eq_route hrooted, route, String.toList_append]
  exact ⟨_, rfl, not_isRooted_join fun name hname =>
    isName_trail _ name (List.mem_reverse.mp hname)⟩

theorem webAddress?_eq_some_iff {location : String} {a : Address} :
    webAddress? location = some a ↔ address? location = some a ∧ isWebScheme a.scheme = true :=
  Option.filter_eq_some_iff

theorem webAddress?_of_not_web {location : String} (h : isWebAddress location = false) :
    webAddress? location = none :=
  Option.isSome_eq_false_iff.mp h |> Option.isNone_iff_eq_none.mp

theorem exists_of_isWebAddress {location : String} (h : isWebAddress location = true) :
    ∃ a, address? location = some a ∧ isWebScheme a.scheme = true := by
  obtain ⟨a, ha⟩ := Option.isSome_iff_exists.mp h
  exact ⟨a, webAddress?_eq_some_iff.mp ha⟩

/-- A path from the root names no scheme. -/
theorem scheme_of_isAbsolutePath {location : String} {a : Address}
    (haddress : address? location = some a) (h : isAbsolutePath location = true) :
    a.scheme = "" := by
  obtain ⟨rest, hrest⟩ := List.head?_eq_some_iff.mp (isAbsolutePath_iff_head.mp h)
  have habsent : schemeOf (location.toList.takeWhile (· ≠ '#')) = .absent := by
    rw [hrest]
    rfl
  unfold address? at haddress
  simp only [habsent] at haddress
  split at haddress
  · cases haddress
  · split at haddress
    · cases haddress
    · generalize location.toList.takeWhile (· ≠ '#') = cs at haddress
      generalize String.ofList ((location.toList.dropWhile (· ≠ '#')).drop 1) = fragment at haddress
      have hread : hierarchy? { scheme := "", query := (cutQuery cs).2, fragment }
          (cutQuery cs).1 = some a := by
        rw [← haddress]
        unfold cutQuery hierarchy?
        cases Text.cutChars '?' cs <;> rfl
      exact scheme_of_hierarchy? hread

theorem isWebAddress_of_isAbsolutePath {location : String} (h : isAbsolutePath location = true) :
    isWebAddress location = false := by
  rw [Bool.eq_false_iff]
  intro hweb
  obtain ⟨a, haddress, hscheme⟩ := exists_of_isWebAddress hweb
  exact ne_empty_of_isWebScheme hscheme (scheme_of_isAbsolutePath haddress h)

/-! Addresses on the web. -/

theorem HasParts.isBody_opaquePart {a : Address} (h : HasParts a) : IsBody a.opaquePart.toList := by
  cases h with
  | opaquePart hbody => exact hbody
  | path hpart => exact hpart ▸ .nil
  | host hpart => exact hpart ▸ .nil

/-- An address on the web, and the location that another one has relative to it. -/
structure IsWebBase (base : String) (a : Address) : Prop where
  scheme : isWebScheme a.scheme = true
  parts : HasParts a
  query : IsPrinted (queryChars a.query)
  fragment : a.fragment = ""
  relativeTo (location : String) :
    relativeTo base location = { a with path := joinPaths [directory a.path, location] }.render

theorem isWebBase {base : String} {a : Address} (haddress : address? base = some a)
    (hweb : isWebScheme a.scheme = true) (hhash : '#' ∉ base.toList) : IsWebBase base a := by
  have hne := ne_empty_of_isWebScheme hweb
  obtain ⟨rest, hscheme, hread⟩ := hierarchy?_of_address? haddress hne hhash
  obtain ⟨hrest, hquery⟩ := eq_append_of_cutQuery rest
  have hprinted : IsPrinted rest := fun c hc =>
    isPrinted_of_address? haddress hhash c ((schemeOf_suffix hscheme).subset hc)
  rw [hrest] at hprinted
  obtain ⟨hbody, hprintedQuery⟩ := List.forall_mem_append.mp hprinted
  obtain ⟨hparts, -, haquery, hfragment⟩ := hasParts_of_hierarchy? hne ⟨hbody, hquery⟩ hread
  refine ⟨hweb, hparts, haquery ▸ hprintedQuery, hfragment, fun location => ?_⟩
  unfold relativeTo
  rw [webAddress?_eq_some_iff.mpr ⟨haddress, hweb⟩]

theorem exists_isWebBase {base : String} (hweb : isWebAddress base = true)
    (hhash : '#' ∉ base.toList) : ∃ a, IsWebBase base a := by
  obtain ⟨a, haddress, hscheme⟩ := exists_of_isWebAddress hweb
  exact ⟨a, isWebBase haddress hscheme hhash⟩

theorem relativeTo_of_not_web {base : String} (hweb : isWebAddress base = false)
    (location : String) : relativeTo base location = joinPaths [directory base, location] := by
  unfold relativeTo
  rw [webAddress?_of_not_web hweb]

/-- No location leads to one with a hash sign. -/
theorem hash_not_mem_relativeTo {base location : String} (hbase : '#' ∉ base.toList)
    (hlocation : '#' ∉ location.toList) :
    '#' ∉ (relativeTo base location).toList ∧ relativeTo base location ≠ "" := by
  cases hweb : isWebAddress base with
  | false =>
    have hdirectory : '#' ∉ (directory base).toList := by
      apply hash_not_mem_clean
      rw [String.toList_ofList, List.mem_reverse]
      intro hmem
      exact hbase (List.mem_reverse.mp ((List.dropWhile_sublist _).subset hmem))
    rw [relativeTo_of_not_web hweb, joinPaths_directory]
    refine ⟨hash_not_mem_clean ?_, clean_ne_empty _⟩
    simp [hdirectory, hlocation]
  | true =>
    obtain ⟨a, ha⟩ := exists_isWebBase hweb hbase
    rw [ha.relativeTo location]
    obtain ⟨hprinted, -⟩ := address?_render
      (a := { a with path := joinPaths [directory a.path, location] }) ha.scheme
      ha.parts.isBody_opaquePart ha.fragment ha.query
    refine ⟨fun hmem => (hprinted '#' hmem).2.2 rfl, fun hnone => ?_⟩
    have htext := toList_render (a := { a with path := joinPaths [directory a.path, location] })
      ha.fragment
    rw [hnone] at htext
    simp at htext

/-! Fixed locations. -/

/-- A path from the root, or an address on the web that names a place. -/
inductive IsFixed (location : String) : Prop where
  | path : isAbsolutePath location = true → IsFixed location
  | address {a : Address} : address? location = some a → isWebScheme a.scheme = true →
    HasPlace a → IsFixed location

theorem isAbsolute_of_isFixed {location : String} (h : IsFixed location) :
    isAbsolute location = true := by
  unfold isAbsolute
  cases h with
  | path hrooted => rw [hrooted, Bool.or_true]
  | address haddress hweb =>
    rw [haddress, Bool.or_eq_true]
    exact .inl (decide_eq_true (ne_empty_of_isWebScheme hweb))

/-- What is relative to a fixed location is fixed. -/
theorem isFixed_relativeTo {base : String} (h : IsFixed base) (hhash : '#' ∉ base.toList)
    (location : String) : IsFixed (relativeTo base location) := by
  cases h with
  | path hrooted =>
    obtain ⟨rest, hrest, -⟩ := exists_joinPaths_directory hrooted location
    refine .path (isAbsolutePath_iff_head.mpr ?_)
    rw [relativeTo_of_not_web (isWebAddress_of_isAbsolutePath hrooted), hrest]
    rfl
  | @address a haddress hweb hplace =>
    have ha := isWebBase haddress hweb hhash
    have hne : joinPaths [directory a.path, location] ≠ "" := by
      rw [joinPaths_directory]
      exact clean_ne_empty _
    have hwritable := ha.parts.isWritable hplace hne fun hrooted =>
      exists_joinPaths_directory (isAbsolutePath_iff_head.mpr hrooted) location
    obtain ⟨a', haddress', hscheme, hplace'⟩ :=
      exists_address?_render hwritable hweb ha.fragment ha.query
    rw [ha.relativeTo location]
    exact .address haddress' (hscheme ▸ hweb) hplace'

end Location

end ApiTypes
