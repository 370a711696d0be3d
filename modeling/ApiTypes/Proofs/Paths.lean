import ApiTypes.FileSystem
import ApiTypes.Proofs.Pointer
import Mathlib.Data.List.TakeWhile

/-!
Paths from the root of a file system. Cleaning a path keeps its names: the parts that are left when
empty parts and dots are dropped and each `..` has taken back the name before it. The absolute form
of a path is the route along its names, and the directories on the way to it are those along the
first of them.
-/

namespace ApiTypes

namespace Text

theorem not_mem_of_mem_splitChars {sep : Char} {cs piece : List Char}
    (h : piece ∈ splitChars sep cs) : sep ∉ piece := by
  induction cs generalizing piece with
  | nil =>
    rw [List.mem_singleton.mp h]
    exact List.not_mem_nil
  | cons c rest ih =>
    rw [splitChars_cons] at h
    split at h
    · rcases List.mem_cons.mp h with rfl | hmem
      · exact List.not_mem_nil
      · exact ih hmem
    · rename_i hc
      cases hpieces : splitChars sep rest with
      | nil => exact absurd hpieces (splitChars_ne_nil sep rest)
      | cons head others =>
        rw [hpieces] at h ih
        rcases List.mem_cons.mp h with rfl | hmem
        · simp only [List.mem_cons, not_or]
          exact ⟨fun heq => hc heq.symm, ih List.mem_cons_self⟩
        · exact ih (List.mem_cons_of_mem _ hmem)

theorem split_append_slash (before after : String) :
    split '/' (before ++ "/" ++ after) = split '/' before ++ split '/' after := by
  unfold split
  rw [String.toList_append, String.toList_append, List.append_assoc, ← List.map_append,
    ← splitChars_append_sep]
  rfl

theorem split_of_not_mem {s : String} (h : '/' ∉ s.toList) : split '/' s = [s] := by
  rw [split, splitChars_of_not_mem h, List.map_singleton, String.ofList_toList]

theorem slash_not_mem_of_mem_split {s part : String} (h : part ∈ split '/' s) :
    '/' ∉ part.toList := by
  obtain ⟨piece, hpiece, rfl⟩ := List.mem_map.mp h
  rw [String.toList_ofList]
  exact not_mem_of_mem_splitChars hpiece

/-- Parts without slashes are found again when they are joined. -/
theorem split_join {first : String} {rest : List String}
    (h : ∀ part ∈ first :: rest, '/' ∉ part.toList) :
    split '/' (join "/" (first :: rest)) = first :: rest := by
  induction rest generalizing first with
  | nil => exact split_of_not_mem (h first List.mem_cons_self)
  | cons next rest ih =>
    obtain ⟨hfirst, hrest⟩ := List.forall_mem_cons.mp h
    rw [join, split_append_slash, split_of_not_mem hfirst, ih hrest]
    · rfl
    · nofun

end Text

namespace Location

/-- A part of a path that means something: a name, or the way up. -/
structure IsKept (part : String) : Prop where
  nonempty : part ≠ ""
  notDot : part ≠ "."
  noSlash : '/' ∉ part.toList

structure IsName (part : String) : Prop extends IsKept part where
  notUp : part ≠ ".."

/-- The path that goes from the root along names. -/
def route (names : List String) : String := "/" ++ Text.join "/" names

/-- The names of a path from the root, the last one first. -/
def trail (path : String) : List String := (Text.split '/' path).foldl (cleanStep true) []

theorem isAbsolutePath_iff_head {path : String} :
    isAbsolutePath path = true ↔ path.toList.head? = some '/' := by
  unfold isAbsolutePath Text.startsWith
  cases path.toList with
  | nil => exact ⟨nofun, nofun⟩
  | cons c rest =>
    change (if '/' = c then Text.dropStart? [] rest else none).isSome = true ↔ _
    by_cases hc : '/' = c
    · subst hc
      exact iff_of_true rfl rfl
    · rw [if_neg hc]
      exact iff_of_false nofun fun h => hc (Option.some.inj h).symm

theorem isAbsolutePath_iff {path : String} :
    isAbsolutePath path = true ↔ ∃ rest, path = "/" ++ rest := by
  rw [isAbsolutePath_iff_head, List.head?_eq_some_iff]
  constructor
  · rintro ⟨rest, hrest⟩
    exact ⟨String.ofList rest, String.toList_inj.mp (by simp [hrest])⟩
  · rintro ⟨rest, rfl⟩
    exact ⟨rest.toList, by simp⟩

theorem isAbsolutePath_append {path : String} (h : isAbsolutePath path = true) (rest : String) :
    isAbsolutePath (path ++ rest) = true := by
  obtain ⟨start, rfl⟩ := isAbsolutePath_iff.mp h
  exact isAbsolutePath_iff.mpr ⟨start ++ rest, String.append_assoc⟩

theorem isAbsolutePath_route (names : List String) : isAbsolutePath (route names) = true :=
  isAbsolutePath_iff.mpr ⟨_, rfl⟩

section cleanStep

variable {rooted : Bool} {done : List String} {part : String}

theorem cleanStep_name (h : IsName part) : cleanStep rooted done part = part :: done := by
  unfold cleanStep
  rw [if_neg (by simp [h.nonempty, h.notDot]), if_neg h.notUp]

/-- Going up takes back a name. -/
theorem cleanStep_up (h : IsName part) : cleanStep rooted (part :: done) ".." = done := by
  unfold cleanStep
  rw [if_neg (by decide), if_pos rfl]
  exact if_neg h.notUp

/-- A step away from the root leaves only names. -/
theorem isName_cleanStep (hdone : ∀ name ∈ done, IsName name) (hpart : '/' ∉ part.toList) :
    ∀ name ∈ cleanStep true done part, IsName name := by
  unfold cleanStep
  split
  · exact hdone
  · rename_i hkept
    simp only [Bool.or_eq_true, decide_eq_true_eq, not_or] at hkept
    split
    · cases done with
      | nil => exact List.forall_mem_nil _
      | cons last before =>
        obtain ⟨hlast, hbefore⟩ := List.forall_mem_cons.mp hdone
        dsimp only
        rw [if_neg hlast.notUp]
        exact hbefore
    · rename_i hup
      exact List.forall_mem_cons.mpr ⟨⟨⟨hkept.1, hkept.2, hpart⟩, hup⟩, hdone⟩

end cleanStep

/-! The names of a path. -/

theorem isName_foldl_cleanStep {parts done : List String} (hdone : ∀ name ∈ done, IsName name)
    (hparts : ∀ part ∈ parts, '/' ∉ part.toList) :
    ∀ name ∈ parts.foldl (cleanStep true) done, IsName name := by
  induction parts generalizing done with
  | nil => exact hdone
  | cons part rest ih =>
    obtain ⟨hpart, hrest⟩ := List.forall_mem_cons.mp hparts
    exact ih (isName_cleanStep hdone hpart) hrest

theorem isName_trail (path : String) : ∀ name ∈ trail path, IsName name :=
  isName_foldl_cleanStep (List.forall_mem_nil _) fun _ => Text.slash_not_mem_of_mem_split

theorem foldl_cleanStep_names {rooted : Bool} {names done : List String}
    (h : ∀ name ∈ names, IsName name) :
    names.foldl (cleanStep rooted) done = names.reverse ++ done := by
  induction names generalizing done with
  | nil => rfl
  | cons name rest ih =>
    obtain ⟨hname, hrest⟩ := List.forall_mem_cons.mp h
    rw [List.foldl_cons, cleanStep_name hname, ih hrest]
    simp

/-- A path goes on from where its first part ends. -/
theorem trail_append_slash (before after : String) :
    trail (before ++ "/" ++ after) =
      (Text.split '/' after).foldl (cleanStep true) (trail before) := by
  rw [trail, Text.split_append_slash, List.foldl_append]
  rfl

/-- The parts of a route are its names, with an empty one in front. -/
theorem split_route {names : List String} (h : ∀ name ∈ names, IsName name) :
    (Text.split '/' (route names)).filter (· ≠ "") = names := by
  have hroot : route names = "" ++ "/" ++ Text.join "/" names := rfl
  rw [hroot, Text.split_append_slash]
  cases names with
  | nil => decide
  | cons first rest =>
    rw [Text.split_join fun part hpart => (h part hpart).noSlash]
    have hkept : (first :: rest).filter (· ≠ "") = first :: rest :=
      List.filter_eq_self.mpr fun name hname => by simpa using (h name hname).nonempty
    rw [List.filter_append, hkept]
    rfl

theorem trail_route {names : List String} (h : ∀ name ∈ names, IsName name) :
    trail (route names) = names.reverse := by
  have hroot : route names = "" ++ "/" ++ Text.join "/" names := rfl
  rw [hroot, trail_append_slash]
  cases names with
  | nil => decide
  | cons first rest =>
    rw [Text.split_join fun part hpart => (h part hpart).noSlash, foldl_cleanStep_names h]
    exact List.append_nil _

/-- A path from the root is cleaned to the route along its names. -/
theorem clean_eq_route {path : String} (h : isAbsolutePath path = true) :
    clean path = route (trail path).reverse := by
  change Text.startsWith "/" path = true at h
  unfold clean
  simp only [h, if_true]
  rfl

theorem isAbsolutePath_clean {path : String} (h : isAbsolutePath path = true) :
    isAbsolutePath (clean path) = true := by
  rw [clean_eq_route h]
  exact isAbsolutePath_route _

theorem trail_clean {path : String} (h : isAbsolutePath path = true) :
    trail (clean path) = trail path := by
  rw [clean_eq_route h, trail_route fun name hname => isName_trail path name
    (List.mem_reverse.mp hname), List.reverse_reverse]

theorem clean_clean {path : String} (h : isAbsolutePath path = true) :
    clean (clean path) = clean path := by
  rw [clean_eq_route (isAbsolutePath_clean h), trail_clean h, clean_eq_route h]

theorem clean_route {names : List String} (h : ∀ name ∈ names, IsName name) :
    clean (route names) = route names := by
  rw [clean_eq_route (isAbsolutePath_route names), trail_route h, List.reverse_reverse]

/-! Relative paths. -/

theorem isKept_cleanStep {rooted : Bool} {done : List String} {part : String}
    (hdone : ∀ p ∈ done, IsKept p) (hpart : '/' ∉ part.toList) :
    ∀ p ∈ cleanStep rooted done part, IsKept p := by
  have hup : IsKept ".." := ⟨by decide, by decide, by decide⟩
  fun_cases cleanStep rooted done part with
  | case1 => exact hdone
  | case2 => exact List.forall_mem_nil _
  | case3 => exact List.forall_mem_singleton.mpr hup
  | case4 => exact List.forall_mem_cons.mpr ⟨hup, hdone⟩
  | case5 => exact (List.forall_mem_cons.mp hdone).2
  | case6 =>
    rename_i hkept _
    simp only [Bool.or_eq_true, decide_eq_true_eq, not_or] at hkept
    exact List.forall_mem_cons.mpr ⟨⟨hkept.1, hkept.2, hpart⟩, hdone⟩

theorem isKept_foldl_cleanStep {rooted : Bool} {parts done : List String}
    (hdone : ∀ p ∈ done, IsKept p) (hparts : ∀ part ∈ parts, '/' ∉ part.toList) :
    ∀ p ∈ parts.foldl (cleanStep rooted) done, IsKept p := by
  induction parts generalizing done with
  | nil => exact hdone
  | cons part rest ih =>
    obtain ⟨hpart, hrest⟩ := List.forall_mem_cons.mp hparts
    exact ih (isKept_cleanStep hdone hpart) hrest

/-- A step of cleaning does not change where a relative path leads. -/
theorem foldl_reverse_cleanStep {kept : List String} (hkept : ∀ p ∈ kept, IsKept p)
    (start : List String) (part : String) :
    (cleanStep false kept part).reverse.foldl (cleanStep true) start =
      cleanStep true (kept.reverse.foldl (cleanStep true) start) part := by
  have hpushed (p : String) : (p :: kept).reverse.foldl (cleanStep true) start =
      cleanStep true (kept.reverse.foldl (cleanStep true) start) p := by
    rw [List.reverse_cons, List.foldl_append]
    rfl
  fun_cases cleanStep false kept part with
  | case1 =>
    rename_i h
    unfold cleanStep
    rw [if_pos h]
  | case2 => contradiction
  | case3 _ hup => exact hup ▸ hpushed ".."
  | case4 _ hup => exact hup ▸ hpushed ".."
  | case5 _ hup =>
    rename_i last before hlast
    obtain ⟨hfirst, -⟩ := List.forall_mem_cons.mp hkept
    rw [hup, List.reverse_cons, List.foldl_append]
    have hname : IsName last := ⟨hfirst, hlast⟩
    change _ =
      cleanStep true (cleanStep true (before.reverse.foldl (cleanStep true) start) last) ".."
    rw [cleanStep_name hname, cleanStep_up hname]
  | case6 => exact hpushed part

theorem foldl_reverse_foldl_cleanStep {parts kept : List String} (hkept : ∀ p ∈ kept, IsKept p)
    (hparts : ∀ part ∈ parts, '/' ∉ part.toList) (start : List String) :
    (parts.foldl (cleanStep false) kept).reverse.foldl (cleanStep true) start =
      parts.foldl (cleanStep true) (kept.reverse.foldl (cleanStep true) start) := by
  induction parts generalizing kept with
  | nil => rfl
  | cons part rest ih =>
    obtain ⟨hpart, hrest⟩ := List.forall_mem_cons.mp hparts
    rw [List.foldl_cons, List.foldl_cons, ih (isKept_cleanStep hkept hpart) hrest,
      foldl_reverse_cleanStep hkept]

theorem join_ne_empty {first : String} (h : first ≠ "") (rest : List String) :
    Text.join "/" (first :: rest) ≠ "" := by
  cases rest with
  | nil => exact h
  | cons next rest => simp [Text.join]

/-- The parts that are left of a relative path, or a dot. -/
theorem split_clean_relative {path : String} (h : isAbsolutePath path = false) :
    Text.split '/' (clean path) =
      match ((Text.split '/' path).foldl (cleanStep false) []).reverse with
      | [] => ["."]
      | kept => kept := by
  have hkept : ∀ part ∈ ((Text.split '/' path).foldl (cleanStep false) []).reverse, IsKept part :=
    fun part hpart => isKept_foldl_cleanStep (List.forall_mem_nil _)
      (fun _ => Text.slash_not_mem_of_mem_split) part (List.mem_reverse.mp hpart)
  change Text.startsWith "/" path = false at h
  unfold clean
  simp only [h, Bool.false_eq_true, if_false]
  generalize ((Text.split '/' path).foldl (cleanStep false) []).reverse = kept at hkept
  cases kept with
  | nil => decide
  | cons first rest =>
    rw [if_neg (join_ne_empty (hkept first List.mem_cons_self).nonempty rest)]
    exact Text.split_join fun part hpart => (hkept part hpart).noSlash

/-- Cleaning a relative path does not change where it leads. -/
theorem foldl_split_clean {path : String} (h : isAbsolutePath path = false) (start : List String) :
    (Text.split '/' (clean path)).foldl (cleanStep true) start =
      (Text.split '/' path).foldl (cleanStep true) start := by
  have hslash : ∀ part ∈ Text.split '/' path, '/' ∉ part.toList :=
    fun _ => Text.slash_not_mem_of_mem_split
  have hsame : _ = (Text.split '/' path).foldl (cleanStep true) start :=
    foldl_reverse_foldl_cleanStep (List.forall_mem_nil _) hslash start
  rw [split_clean_relative h, ← hsame]
  split
  · rename_i hnil
    rw [hnil]
    rfl
  · rfl

theorem isAbsolutePath_clean_relative {path : String} (h : isAbsolutePath path = false) :
    isAbsolutePath (clean path) = false := by
  have hnonempty : "" ∉ Text.split '/' (clean path) := by
    rw [split_clean_relative h]
    split
    · decide
    · intro hmem
      exact (isKept_foldl_cleanStep (List.forall_mem_nil _)
        (fun _ => Text.slash_not_mem_of_mem_split) "" (List.mem_reverse.mp hmem)).nonempty rfl
  cases habsolute : isAbsolutePath (clean path) with
  | false => rfl
  | true =>
    obtain ⟨rest, hrest⟩ := isAbsolutePath_iff.mp habsolute
    rw [hrest] at hnonempty
    have hsplit := Text.split_append_slash "" rest
    exact absurd (hsplit ▸ List.mem_append_left _ (by decide)) hnonempty

/-! The directory of a path. -/

/-- A path is what stands up to its last slash, and a last part. -/
theorem exists_directory (path : String) : ∃ front last, path = front ++ last ∧ '/' ∉ last.toList ∧
    (front = "" ∨ ∃ before, front = before ++ "/") ∧ directory path = clean front := by
  refine ⟨String.ofList (path.toList.reverse.dropWhile (· ≠ '/')).reverse,
    String.ofList (path.toList.reverse.takeWhile (· ≠ '/')).reverse, ?_, ?_, ?_, rfl⟩
  · rw [← String.toList_inj, String.toList_append, String.toList_ofList, String.toList_ofList,
      ← List.reverse_append, List.takeWhile_append_dropWhile, List.reverse_reverse]
  · rw [String.toList_ofList, List.mem_reverse]
    intro hmem
    simpa using List.mem_takeWhile_imp hmem
  · cases hdrop : path.toList.reverse.dropWhile (· ≠ '/') with
    | nil => exact .inl rfl
    | cons c rest =>
      have hc : c = '/' := by
        have hhead := List.head?_dropWhile_not (fun c => decide (c ≠ '/')) path.toList.reverse
        rw [hdrop] at hhead
        simpa using hhead
      refine .inr ⟨String.ofList rest.reverse, ?_⟩
      rw [hc, ← String.toList_inj]
      simp

theorem isAbsolutePath_append_of_not_mem {front last : String} (h : '/' ∉ last.toList) :
    isAbsolutePath (front ++ last) = isAbsolutePath front := by
  rw [Bool.eq_iff_iff, isAbsolutePath_iff_head, isAbsolutePath_iff_head, String.toList_append,
    List.head?_append]
  cases front.toList.head? with
  | some c => rfl
  | none => exact ⟨fun hhead => absurd (List.mem_of_head? hhead) h, nofun⟩

theorem isAbsolutePath_directory (path : String) :
    isAbsolutePath (directory path) = isAbsolutePath path := by
  obtain ⟨front, last, rfl, hlast, -, hdirectory⟩ := exists_directory path
  rw [hdirectory, isAbsolutePath_append_of_not_mem hlast]
  cases hfront : isAbsolutePath front with
  | true => exact isAbsolutePath_clean hfront
  | false => exact isAbsolutePath_clean_relative hfront

/-- A path leads to where its directory does, and one part further. -/
theorem foldl_split_directory (path : String) : ∃ last, ∀ start,
    (isAbsolutePath path = true → start = []) →
      (Text.split '/' path).foldl (cleanStep true) start =
        cleanStep true ((Text.split '/' (directory path)).foldl (cleanStep true) start) last := by
  obtain ⟨front, last, rfl, hlast, hfront, hdirectory⟩ := exists_directory path
  refine ⟨last, fun start hstart => ?_⟩
  have hclean : (Text.split '/' (clean front)).foldl (cleanStep true) start =
      (Text.split '/' front).foldl (cleanStep true) start := by
    rw [isAbsolutePath_append_of_not_mem hlast] at hstart
    cases habsolute : isAbsolutePath front with
    | true =>
      rw [hstart habsolute]
      exact trail_clean habsolute
    | false => exact foldl_split_clean habsolute start
  rw [hdirectory, hclean]
  rcases hfront with rfl | ⟨before, rfl⟩
  · rw [String.empty_append, Text.split_of_not_mem hlast]
    rfl
  · have hslash : before ++ "/" = before ++ "/" ++ "" := by rw [String.append_empty]
    rw [Text.split_append_slash, Text.split_of_not_mem hlast, hslash, Text.split_append_slash,
      List.foldl_append, List.foldl_append]
    rfl

end Location

namespace FileSystem

open Location

variable {fs : FileSystem}

theorem trail_fromRoot (fs : FileSystem) (path : String) :
    trail (fs.fromRoot path) = (Text.split '/' path).foldl (cleanStep true)
      (if isAbsolutePath path then [] else trail fs.workingDirectory) := by
  unfold fromRoot
  split
  · rfl
  · exact trail_append_slash _ _

/-- A path leads to where its directory does, and one part further. -/
theorem trail_directory (fs : FileSystem) (path : String) : ∃ last,
    trail (fs.fromRoot path) = cleanStep true (trail (fs.fromRoot (directory path))) last := by
  obtain ⟨last, hlast⟩ := foldl_split_directory path
  refine ⟨last, ?_⟩
  rw [trail_fromRoot, trail_fromRoot, isAbsolutePath_directory]
  exact hlast _ fun h => if_pos h

section

variable (hrooted : isAbsolutePath fs.workingDirectory = true)

include hrooted

theorem isAbsolutePath_fromRoot (path : String) : isAbsolutePath (fs.fromRoot path) = true := by
  unfold fromRoot
  split
  · assumption
  · rw [String.append_assoc]
    exact isAbsolutePath_append hrooted _

theorem absolute_eq_clean (path : String) :
    absolute fs.workingDirectory path = clean (fs.fromRoot path) := by
  unfold absolute fromRoot
  split
  · rfl
  · obtain ⟨rest, hrest⟩ := isAbsolutePath_iff.mp hrooted
    have hne : fs.workingDirectory ≠ "" := by simp [hrest]
    simp [joinPaths, hne, Text.join]

theorem absolute_eq_route (path : String) :
    absolute fs.workingDirectory path = route (trail (fs.fromRoot path)).reverse := by
  rw [absolute_eq_clean hrooted, clean_eq_route (isAbsolutePath_fromRoot hrooted path)]

/-- The absolute form of a path is its own. -/
theorem absolute_absolute (path : String) :
    absolute fs.workingDirectory (absolute fs.workingDirectory path) =
      absolute fs.workingDirectory path := by
  have hpath := isAbsolutePath_fromRoot hrooted path
  rw [absolute_eq_clean hrooted path, absolute, if_pos (isAbsolutePath_clean hpath),
    clean_clean hpath]

end

/-- The directories on the way along names. -/
theorem above_route {names : List String} (h : ∀ name ∈ names, IsName name) :
    above (route names) = (List.range names.length).map fun n => route (names.take n) := by
  unfold above
  dsimp only
  rw [split_route h]
  exact List.map_congr_left fun n _ =>
    clean_route fun name hname => h name (List.take_subset n _ hname)

theorem route_take_mem {names : List String} (h : ∀ name ∈ names, IsName name) (n : Nat) :
    route (names.take n) ∈ route names :: above (route names) := by
  by_cases hn : n < names.length
  · rw [above_route h]
    exact List.mem_cons_of_mem _ (List.mem_map.mpr ⟨n, List.mem_range.mpr hn, rfl⟩)
  · rw [List.take_of_length_le (Nat.le_of_not_lt hn)]
    exact List.mem_cons_self

/-- What comes before the last name of a path is there one part before its end. -/
theorem take_cleanStep (names : List String) (last : String) {n : Nat}
    (hn : n < (cleanStep true names last).length) :
    (cleanStep true names last).reverse.take n = names.reverse.take n := by
  have hpushed (part : String) (h : n < (part :: names).length) :
      (part :: names).reverse.take n = names.reverse.take n := by
    rw [List.reverse_cons, List.take_append_of_le_length]
    rw [List.length_reverse]
    exact Nat.le_of_lt_succ h
  unfold cleanStep at hn ⊢
  split at hn
  · rw [if_pos (by assumption)]
  · rename_i hkept
    rw [if_neg hkept]
    split at hn
    · rename_i hup
      rw [if_pos hup]
      cases names with
      | nil => cases hn
      | cons top before =>
        dsimp only at hn ⊢
        split at hn
        · rename_i htop
          rw [if_pos htop]
          exact hpushed ".." hn
        · rename_i htop
          rw [if_neg htop, List.reverse_cons, List.take_append_of_le_length]
          rw [List.length_reverse]
          exact Nat.le_of_lt hn
    · rename_i hup
      rw [if_neg hup]
      exact hpushed last hn

/-- On the way to a path there is its directory, and what is on the way there. -/
theorem above_subset (hrooted : isAbsolutePath fs.workingDirectory = true) (path : String) :
    above (absolute fs.workingDirectory path) ⊆
      absolute fs.workingDirectory (directory path) ::
        above (absolute fs.workingDirectory (directory path)) := by
  have hnames (path : String) : ∀ name ∈ (trail (fs.fromRoot path)).reverse, IsName name :=
    fun name hname => isName_trail _ name (List.mem_reverse.mp hname)
  obtain ⟨last, hlast⟩ := trail_directory fs path
  intro d hd
  rw [absolute_eq_route hrooted path, above_route (hnames path)] at hd
  obtain ⟨n, hn, rfl⟩ := List.mem_map.mp hd
  rw [List.mem_range, List.length_reverse, hlast] at hn
  rw [hlast, take_cleanStep _ last hn, absolute_eq_route hrooted]
  exact route_take_mem (hnames _) n

end FileSystem

end ApiTypes
