import ApiTypes.Proofs.FixedLocations
import ApiTypes.Proofs.SchemaReferences

/-!
Where the references of a schema from another file lead. A file that a reference names is located
twice: first in the directory of the file that the schema stands in, when the schema is read, and
then, when the reference is followed, in the directory of the root document. The second time has to
leave alone what the first one gave, and it does so if that is no relative path.
-/

namespace ApiTypes

/-! The two parts of a reference. -/

namespace Reference

theorem split_hash {file : String} (h : '#' ∉ file.toList) (fragment : String) :
    split (file ++ "#" ++ fragment) = (file, fragment) := by
  have htext : (file ++ "#" ++ fragment).toList = file.toList ++ '#' :: fragment.toList := by simp
  rw [split, htext, Text.cutChars_append h]
  simp

theorem split_of_not_mem {ref : String} (h : '#' ∉ ref.toList) : split ref = (ref, "") := by
  rw [split, Text.cutChars_of_not_mem h]

theorem hasFragment_eq_true {ref : String} : hasFragment ref = true ↔ '#' ∈ ref.toList :=
  List.contains_iff_mem

theorem hasFragment_eq_false {ref : String} : hasFragment ref = false ↔ '#' ∉ ref.toList := by
  rw [Bool.eq_false_iff, ne_eq, hasFragment_eq_true]

end Reference

namespace Location

/-- The location that a document part means in the document at a location. -/
def meant (location file : String) : String :=
  if file = "" then location
  else if isAbsolute file then file
  else relativeTo location file

variable {location file : String}

theorem hash_not_mem_meant (hlocation : '#' ∉ location.toList) (hfile : '#' ∉ file.toList) :
    '#' ∉ (meant location file).toList := by
  unfold meant
  split
  · exact hlocation
  · split
    · exact hfile
    · exact (hash_not_mem_relativeTo hlocation hfile).1

/-- In the document at a fixed location no document part means a relative path. -/
theorem isAbsolute_meant (h : IsFixed location) (hhash : '#' ∉ location.toList) (file : String) :
    isAbsolute (meant location file) = true := by
  unfold meant
  split
  · exact isAbsolute_of_isFixed h
  · split
    · assumption
    · exact isAbsolute_of_isFixed (isFixed_relativeTo h hhash file)

theorem isFixed_meant (h : IsFixed location) (hhash : '#' ∉ location.toList)
    (hfile : isAbsolute file = true → IsFixed file) : IsFixed (meant location file) := by
  unfold meant
  split
  · exact h
  · split
    · rename_i habsolute
      exact hfile habsolute
    · exact isFixed_relativeTo h hhash file

end Location

open Location (IsFixed meant)

/-- Where a reference in the document at a location is meant to lead. -/
def intended (location ref : String) : String := meant location (Reference.split ref).1

theorem rebaseRef_empty (location : String) : rebaseRef location "" = "" := if_pos rfl

section

variable {location ref : String} (hhash : '#' ∉ location.toList)

include hhash

/-- A reference is rebased to the location that it means; its fragment stays. -/
theorem split_rebaseRef (hne : ref ≠ "") :
    Reference.split (rebaseRef location ref) =
        (intended location ref, (Reference.split ref).2) ∧
      Reference.hasFragment (rebaseRef location ref) = Reference.hasFragment ref := by
  have hfile := Reference.hash_not_mem_split ref
  unfold rebaseRef intended meant
  rw [if_neg hne]
  dsimp only
  split
  · rename_i hlocal
    have hfragment : '#' ∈ ref.toList := by
      by_contra hmem
      rw [Reference.split_of_not_mem hmem] at hlocal
      exact hne hlocal
    refine ⟨Reference.split_hash hhash _, ?_⟩
    rw [Reference.hasFragment_eq_true.mpr hfragment, Reference.hasFragment_eq_true]
    simp
  · split
    · exact ⟨rfl, rfl⟩
    · have hjoined := (Location.hash_not_mem_relativeTo hhash hfile).1
      cases hfragment : Reference.hasFragment ref with
      | true =>
        rw [if_pos rfl, ← String.append_assoc]
        refine ⟨Reference.split_hash hjoined _, ?_⟩
        rw [Reference.hasFragment_eq_true]
        simp
      | false =>
        rw [if_neg (by decide), String.append_empty,
          Reference.split_of_not_mem (Reference.hasFragment_eq_false.mp hfragment)]
        rw [Reference.split_of_not_mem (Reference.hasFragment_eq_false.mp hfragment)] at hjoined
        exact ⟨Reference.split_of_not_mem hjoined, Reference.hasFragment_eq_false.mpr hjoined⟩

/-- A reference is rebased once, unless it is meant to lead to a relative path. -/
theorem rebaseRef_rebaseRef
    (h : ref ≠ "" → Location.isAbsolute (intended location ref) = true) :
    rebaseRef location (rebaseRef location ref) = rebaseRef location ref := by
  by_cases hne : ref = ""
  · rw [hne, rebaseRef_empty, rebaseRef_empty]
  · obtain ⟨hsplit, -⟩ := split_rebaseRef hhash hne
    have hfile : intended location ref ≠ "" := by
      intro hnone
      have habsolute := h hne
      rw [hnone] at habsolute
      exact absurd habsolute (by decide)
    rw [rebaseRef.eq_def location (rebaseRef location ref), hsplit]
    dsimp only
    rw [if_neg hfile, if_pos (h hne)]
    split
    · rename_i hempty
      exact hempty.symm
    · rfl

end

example : rebaseRef "x:gen/common.yaml" "../other.yaml" = "other.yaml" ∧
    rebaseRef "x:gen/common.yaml" "other.yaml" = "x:gen/other.yaml" := by decide +kernel

namespace FileResolver

/-- Where a reference in the document at a location leads once it is rebased. -/
def follow (r : FileResolver) (location ref : String) : String :=
  r.locate (Reference.split (rebaseRef location ref)).1

/-- What is true of the references in a document at any location. -/
structure Rebases (r : FileResolver) (location : String) : Prop where
  /-- In a schema only references change. -/
  others (s : Schema) : (s.rebase location).withoutRefs = s.withoutRefs
  /-- All of them are rebased. -/
  refs (s : Schema) :
    (s.rebase location).walk.map (·.ref) = s.walk.map fun t => rebaseRef location t.ref
  /-- Fragments stay. -/
  fragment (ref : String) :
    (Reference.split (rebaseRef location ref)).2 = (Reference.split ref).2 ∧
      Reference.hasFragment (rebaseRef location ref) = Reference.hasFragment ref
  /-- A reference leads where it is meant to, unless that is a relative path. -/
  leads {ref : String} : ref ≠ "" →
    (r.follow location ref = intended location ref ↔
      Location.isAbsolute (intended location ref) = true)
  /-- A schema is rebased once if no reference in it is meant to lead to one. -/
  twice {s : Schema} : (∀ t ∈ s.walk, t.ref ≠ "" →
      Location.isAbsolute (intended location t.ref) = true) →
    (s.rebase location).rebase location = s.rebase location

/-- What is true of them at a fixed location. -/
structure Settles (r : FileResolver) (location : String) : Prop where
  leads {ref : String} : ref ≠ "" → r.follow location ref = intended location ref
  /-- So does a reference behind any number of others that stay at fixed locations. -/
  chain {refs : List String} : (∀ ref ∈ refs, ref ≠ "" ∧
      (Location.isAbsolute (Reference.split ref).1 = true → IsFixed (Reference.split ref).1)) →
    refs.foldl r.follow location = refs.foldl intended location
  twice (s : Schema) : (s.rebase location).rebase location = s.rebase location

variable {r : FileResolver} {location ref : String}

theorem follow_eq (hhash : '#' ∉ location.toList) (hne : ref ≠ "") :
    r.follow location ref = r.locate (intended location ref) := by
  rw [follow, (split_rebaseRef hhash hne).1]

section

variable (hbase : IsFixed r.base) (hbaseHash : '#' ∉ r.base.toList)

include hbase hbaseHash

/-- The resolver leaves alone exactly what is no relative path. -/
theorem locate_eq_iff {file : String} :
    r.locate file = file ↔ Location.isAbsolute file = true := by
  unfold locate
  split
  · rename_i habsolute
    exact iff_of_true rfl habsolute
  · rename_i hrelative
    refine iff_of_false (fun heq => hrelative ?_) hrelative
    rw [← heq]
    exact Location.isAbsolute_of_isFixed (Location.isFixed_relativeTo hbase hbaseHash file)

theorem rebases (hhash : '#' ∉ location.toList) : Rebases r location where
  others := Schema.withoutRefs_rebase location
  refs := Schema.refs_rebase location
  fragment ref := by
    by_cases hne : ref = ""
    · rw [hne, rebaseRef_empty]
      exact ⟨rfl, rfl⟩
    · obtain ⟨hsplit, hfragment⟩ := split_rebaseRef hhash hne
      rw [hsplit]
      exact ⟨rfl, hfragment⟩
  leads hne := by
    rw [follow_eq hhash hne]
    exact locate_eq_iff hbase hbaseHash
  twice h := Schema.rebase_rebase location _ fun t ht => rebaseRef_rebaseRef hhash (h t ht)

theorem follow_of_isFixed (h : IsFixed location) (hhash : '#' ∉ location.toList) (hne : ref ≠ "") :
    r.follow location ref = intended location ref := by
  rw [follow_eq hhash hne, locate_eq_iff hbase hbaseHash]
  exact Location.isAbsolute_meant h hhash _

theorem foldl_follow {refs : List String} (h : IsFixed location) (hhash : '#' ∉ location.toList)
    (hrefs : ∀ ref ∈ refs, ref ≠ "" ∧
      (Location.isAbsolute (Reference.split ref).1 = true → IsFixed (Reference.split ref).1)) :
    refs.foldl r.follow location = refs.foldl intended location := by
  induction refs generalizing location with
  | nil => rw [List.foldl_nil, List.foldl_nil]
  | cons ref rest ih =>
    obtain ⟨⟨hne, hfixed⟩, hrest⟩ := List.forall_mem_cons.mp hrefs
    rw [List.foldl_cons, List.foldl_cons, follow_of_isFixed hbase hbaseHash h hhash hne]
    exact ih (Location.isFixed_meant h hhash hfixed)
      (Location.hash_not_mem_meant hhash (Reference.hash_not_mem_split ref)) hrest

theorem settles (h : IsFixed location) (hhash : '#' ∉ location.toList) : Settles r location where
  leads := follow_of_isFixed hbase hbaseHash h hhash
  chain := foldl_follow hbase hbaseHash h hhash
  twice _ := (rebases hbase hbaseHash hhash).twice fun _ _ _ =>
    Location.isAbsolute_meant h hhash _

end

/-- A reference in a schema from another file leads where it is meant to exactly if that is no
relative path. This is always so where the file has a fixed location. -/
theorem rebase_locations (hbase : IsFixed r.base) (hhash : '#' ∉ r.base.toList)
    (external : String) :
    Rebases r (r.locate (Reference.split external).1) ∧
      ((Location.isAbsolute (Reference.split external).1 = true →
          IsFixed (Reference.split external).1) →
        Settles r (r.locate (Reference.split external).1)) := by
  have hfile := Reference.hash_not_mem_split external
  have hlocation : '#' ∉ (r.locate (Reference.split external).1).toList := by
    unfold locate
    split
    · exact hfile
    · exact (Location.hash_not_mem_relativeTo hhash hfile).1
  refine ⟨rebases hbase hhash hlocation, fun hfixed => settles hbase hhash ?_ hlocation⟩
  unfold locate
  split
  · rename_i habsolute
    exact hfixed habsolute
  · exact Location.isFixed_relativeTo hbase hhash _

/-- A root document with files in two directories. -/
def siblingFiles : FileResolver where
  fs := .ofFiles "/work" []
  base := "/work/api/openapi.yaml"

/-- From a file to one in a directory beside its own. -/
theorem rebase_locations_siblings :
    IsFixed siblingFiles.base ∧ '#' ∉ siblingFiles.base.toList ∧
      Settles siblingFiles (siblingFiles.locate (Reference.split "parts/pet.yaml#/Pet").1) ∧
      siblingFiles.follow "/work/api/parts/pet.yaml" "../shared/tag.yaml#/Tag" =
        "/work/api/shared/tag.yaml" := by
  have hbase : IsFixed siblingFiles.base := .path (by decide)
  have hhash : '#' ∉ siblingFiles.base.toList := by decide
  refine ⟨hbase, hhash, (rebase_locations hbase hhash "parts/pet.yaml#/Pet").2 fun h => ?_,
    by decide +kernel⟩
  exact absurd h (by decide +kernel)

/-- A file whose name has a colon in it. -/
def colonFiles : FileResolver where
  fs := .ofFiles "/home" [("x:common.yaml", "A: \x7b$ref: 'other.yaml#/B'\x7d\n"),
    ("other.yaml", "B: \x7btype: string\x7d\n")]
  base := "/work/openapi.yaml"

/-- The reference in it leads to a file beside the root document, not beside the file itself. -/
theorem colon_ref_misplaced :
    ∃ o, colonFiles.resolve "x:common.yaml#/A" .schema = .ok o ∧ o.ref = "other.yaml#/B" ∧
      intended (colonFiles.locate "x:common.yaml") "other.yaml#/B" = "other.yaml" ∧
      colonFiles.follow (colonFiles.locate "x:common.yaml") "other.yaml#/B" =
        "/work/other.yaml" ∧
      (colonFiles.load "other.yaml").isOk ∧ ¬ (colonFiles.load "/work/other.yaml").isOk := by
  have hok : (colonFiles.resolve "x:common.yaml#/A" .schema).toOption.map Object.ref =
      some "other.yaml#/B" := by decide +kernel
  cases hresolve : colonFiles.resolve "x:common.yaml#/A" .schema with
  | error e =>
    rw [hresolve] at hok
    cases hok
  | ok o =>
    rw [hresolve] at hok
    exact ⟨o, rfl, Option.some.inj hok, by decide +kernel, by decide +kernel, by decide +kernel,
      by decide +kernel⟩

end FileResolver

end ApiTypes
