import ApiTypes.Generation.Target
import ApiTypes.Proofs.Paths
import ApiTypes.Proofs.Spelling
import ApiTypes.Proofs.Typing.DocumentCourse

/-!
What generation reads and changes in a file system. Making directories and writing files take
nothing away, so a file reads as before unless it is written or a directory on the way to it is made
for an output. The text of an output depends only on how the files read that it is made from: the
description, and the files that references lead to from there.
-/

namespace ApiTypes

namespace FileSystem

open Location

variable {fs next last : FileSystem} {path text : String}

theorem faultAbove_eq_none_iff :
    fs.faultAbove path = none ↔
      ∀ d ∈ above path, fs.file? d = none ∧ fs.isDirectory d = true := by
  unfold faultAbove
  split
  · rename_i hblocked
    obtain ⟨d, hd, hfile⟩ := List.any_eq_true.mp hblocked
    refine iff_of_false nofun fun h => ?_
    rw [(h d hd).1] at hfile
    cases hfile
  · rename_i hfree
    have hnone : ∀ d ∈ above path, fs.file? d = none := by
      intro d hd
      cases hfile : fs.file? d with
      | none => rfl
      | some text => exact absurd (List.any_eq_true.mpr ⟨d, hd, by rw [hfile]; rfl⟩) hfree
    split
    · rename_i hall
      exact iff_of_true rfl fun d hd => ⟨hnone d hd, List.all_eq_true.mp hall d hd⟩
    · rename_i hmissing
      exact iff_of_false nofun fun h => hmissing (List.all_eq_true.mpr fun d hd => (h d hd).2)

/-- A file that is read: it is there, and so are the directories on the way to it. -/
structure Reads (fs : FileSystem) (path text : String) : Prop where
  named : path ≠ ""
  reached : ∀ d ∈ above (fs.fromRoot path), fs.file? d = none ∧ fs.isDirectory d = true
  there : fs.file? (absolute fs.workingDirectory path) = some text
  noSlash : path.toList.getLast? ≠ some '/'

theorem read_eq_ok_iff : fs.read path = .ok text ↔ fs.Reads path text := by
  unfold read
  by_cases hpath : path = ""
  · rw [if_pos hpath]
    exact iff_of_false nofun fun h => h.named hpath
  · rw [if_neg hpath]
    cases hfault : fs.faultAbove (fs.fromRoot path) with
    | some fault =>
      refine iff_of_false nofun fun h => ?_
      rw [faultAbove_eq_none_iff.mpr h.reached] at hfault
      cases hfault
    | none =>
      have hreached := faultAbove_eq_none_iff.mp hfault
      dsimp only
      cases hfile : fs.file? (absolute fs.workingDirectory path) with
      | none =>
        refine iff_of_false ?_ fun h => ?_
        · dsimp only
          split
          · nofun
          · nofun
        · rw [h.there] at hfile
          cases hfile
      | some found =>
        dsimp only
        split
        · rename_i hslash
          exact iff_of_false nofun fun h => h.noSlash hslash
        · rename_i hslash
          constructor
          · rintro ⟨⟩
            exact ⟨hpath, hreached, hfile, hslash⟩
          · intro h
            rw [h.there] at hfile
            rw [Option.some.inj hfile]

/-- A directory and those on the way to it. -/
def housing (fs : FileSystem) (path : String) : List String :=
  absolute fs.workingDirectory path :: above (absolute fs.workingDirectory path)

theorem makeDirectory_eq_ok_iff :
    fs.makeDirectory path = .ok next ↔
      (∀ d ∈ fs.housing path, fs.file? d = none) ∧
        next = { fs with directories := fs.housing path ++ fs.directories } := by
  have hsame : ∀ d, d ∈ above (absolute fs.workingDirectory path) ++
      [absolute fs.workingDirectory path] ↔ d ∈ fs.housing path := by
    intro d
    rw [housing, List.mem_cons, List.mem_append, List.mem_singleton, or_comm]
  unfold makeDirectory
  dsimp only
  split
  · rename_i blocked hblocked
    have hmem := (hsame blocked).mp (List.mem_of_find?_eq_some hblocked)
    have hfile := List.find?_some hblocked
    refine iff_of_false nofun fun h => ?_
    rw [h.1 blocked hmem] at hfile
    cases hfile
  · rename_i hfree
    have hnone : ∀ d ∈ fs.housing path, fs.file? d = none := by
      intro d hd
      simpa using List.find?_eq_none.mp hfree d ((hsame d).mpr hd)
    constructor
    · rintro ⟨⟩
      exact ⟨hnone, rfl⟩
    · rintro ⟨-, rfl⟩
      rfl

theorem write_eq_ok_iff :
    fs.write path text = .ok next ↔
      fs.faultAbove (absolute fs.workingDirectory path) = none ∧
        fs.isDirectory (absolute fs.workingDirectory path) = false ∧
          next = { fs with
            files := (absolute fs.workingDirectory path, text) ::
              fs.files.filter (·.1 ≠ absolute fs.workingDirectory path) } := by
  unfold write
  dsimp only
  split
  · rename_i fault hfault
    refine iff_of_false nofun fun h => ?_
    rw [h.1] at hfault
    cases hfault
  · rename_i hfault
    split
    · rename_i hdirectory
      refine iff_of_false nofun fun h => ?_
      rw [h.2.1] at hdirectory
      cases hdirectory
    · rename_i hdirectory
      constructor
      · rintro ⟨⟩
        exact ⟨hfault, Bool.eq_false_iff.mpr hdirectory, rfl⟩
      · rintro ⟨-, -, rfl⟩
        rfl

/-- A file can be written where its directory is and no directory has its name. -/
theorem exists_write (hrooted : isAbsolutePath fs.workingDirectory = true)
    (hhoused : ∀ d ∈ fs.housing (directory path), fs.file? d = none ∧ fs.isDirectory d = true)
    (hclear : fs.isDirectory (absolute fs.workingDirectory path) = false) (text : String) :
    ∃ next, fs.write path text = .ok next := by
  refine ⟨_, write_eq_ok_iff.mpr ⟨faultAbove_eq_none_iff.mpr fun d hd => ?_, hclear, rfl⟩⟩
  exact hhoused d (above_subset hrooted path hd)

theorem lookup_filter_ne {key removed : String} (h : key ≠ removed)
    (files : List (String × String)) :
    (files.filter (·.1 ≠ removed)).lookup key = files.lookup key := by
  induction files with
  | nil => rfl
  | cons entry rest ih =>
    rw [List.filter_cons]
    split
    · rw [List.lookup_cons, List.lookup_cons, ih]
    · rename_i hdropped
      have hentry : entry.1 = removed := by simpa using hdropped
      rw [ih, List.lookup_cons, beq_false_of_ne (hentry ▸ h)]

theorem file?_of_write (h : fs.write path text = .ok next) (other : String) :
    next.file? other =
      if other = absolute fs.workingDirectory path then some text else fs.file? other := by
  obtain ⟨-, -, rfl⟩ := write_eq_ok_iff.mp h
  generalize absolute fs.workingDirectory path = full
  unfold file?
  split
  · rename_i heq
    rw [heq]
    exact List.lookup_cons_self
  · rename_i hne
    rw [List.lookup_cons, beq_false_of_ne hne]
    exact lookup_filter_ne hne fs.files

/-- Nothing has been taken away on the way from one file system to the next, and no file has come
where a directory is. -/
structure Grows (fs next : FileSystem) : Prop where
  workingDirectory : next.workingDirectory = fs.workingDirectory
  web : next.web = fs.web
  engine : next.engine = fs.engine
  moment : next.moment = fs.moment
  directories : ∀ d, fs.isDirectory d = true → next.isDirectory d = true
  files : ∀ path, fs.file? path ≠ none → next.file? path ≠ none
  apart : ∀ d, fs.isDirectory d = true → fs.file? d = none → next.file? d = none

theorem Grows.refl (fs : FileSystem) : fs.Grows fs :=
  ⟨rfl, rfl, rfl, rfl, fun _ h => h, fun _ h => h, fun _ _ h => h⟩

theorem Grows.trans (h : fs.Grows next) (h' : next.Grows last) : fs.Grows last where
  workingDirectory := h'.workingDirectory.trans h.workingDirectory
  web := h'.web.trans h.web
  engine := h'.engine.trans h.engine
  moment := h'.moment.trans h.moment
  directories d hd := h'.directories d (h.directories d hd)
  files path hpath := h'.files path (h.files path hpath)
  apart d hd hfile := h'.apart d (h.directories d hd) (h.apart d hd hfile)

theorem isDirectory_of_makeDirectory (h : fs.makeDirectory path = .ok next) (d : String) :
    next.isDirectory d = true ↔ d ∈ fs.housing path ∨ fs.isDirectory d = true := by
  obtain ⟨-, rfl⟩ := makeDirectory_eq_ok_iff.mp h
  simp [isDirectory]

theorem file?_of_makeDirectory (h : fs.makeDirectory path = .ok next) : next.file? = fs.file? := by
  obtain ⟨-, rfl⟩ := makeDirectory_eq_ok_iff.mp h
  rfl

theorem grows_of_makeDirectory (h : fs.makeDirectory path = .ok next) : fs.Grows next := by
  have hdirectories := isDirectory_of_makeDirectory h
  have hfiles := file?_of_makeDirectory h
  obtain ⟨-, rfl⟩ := makeDirectory_eq_ok_iff.mp h
  exact ⟨rfl, rfl, rfl, rfl, fun d hd => (hdirectories d).mpr (.inr hd),
    fun path hpath => by rwa [hfiles], fun d _ hfile => by rwa [hfiles]⟩

theorem isDirectory_of_write (h : fs.write path text = .ok next) :
    next.isDirectory = fs.isDirectory := by
  obtain ⟨-, -, rfl⟩ := write_eq_ok_iff.mp h
  rfl

theorem grows_of_write (h : fs.write path text = .ok next) : fs.Grows next := by
  have hdirectories := isDirectory_of_write h
  have hfiles := file?_of_write h
  have hclear := (write_eq_ok_iff.mp h).2.1
  obtain ⟨-, -, rfl⟩ := write_eq_ok_iff.mp h
  refine ⟨rfl, rfl, rfl, rfl, fun d hd => by rwa [hdirectories], fun other hother => ?_,
    fun d hd hfile => ?_⟩
  · rw [hfiles]
    split
    · nofun
    · exact hother
  · rw [hfiles, if_neg, hfile]
    rintro rfl
    rw [hclear] at hd
    cases hd

theorem Grows.housing_eq (h : fs.Grows next) (path : String) :
    next.housing path = fs.housing path := by
  unfold housing
  rw [h.workingDirectory]

/-- A file can be put at a path: no file is where its directory is to be, and no directory is where
it is to be itself. -/
structure HasRoom (fs : FileSystem) (path : String) : Prop where
  free : ∀ d ∈ fs.housing (directory path), fs.file? d = none
  apart : absolute fs.workingDirectory path ∉ fs.housing (directory path)
  notDirectory : fs.isDirectory (absolute fs.workingDirectory path) = false

theorem HasRoom.exists_makeDirectory (h : fs.HasRoom path) :
    ∃ next, fs.makeDirectory (directory path) = .ok next :=
  ⟨_, makeDirectory_eq_ok_iff.mpr ⟨h.free, rfl⟩⟩

/-- There is still room in the directory once it has been made. -/
theorem HasRoom.makeDirectory (h : fs.HasRoom path)
    (hmade : fs.makeDirectory (directory path) = .ok next) : next.HasRoom path := by
  have hgrows := grows_of_makeDirectory hmade
  have hhousing := hgrows.housing_eq (directory path)
  refine ⟨fun d hd => ?_, ?_, ?_⟩
  · rw [file?_of_makeDirectory hmade]
    exact h.free d (hhousing ▸ hd)
  · rw [hhousing, hgrows.workingDirectory]
    exact h.apart
  · rw [hgrows.workingDirectory, Bool.eq_false_iff, ne_eq, isDirectory_of_makeDirectory hmade,
      h.notDirectory]
    exact not_or.mpr ⟨h.apart, Bool.false_ne_true⟩

/-- What a file that is put at a path changes: the file is there, and its directory. -/
structure Gains (fs next : FileSystem) (path text : String) : Prop where
  grows : fs.Grows next
  file?_eq : ∀ other, next.file? other =
    if other = absolute fs.workingDirectory path then some text else fs.file? other
  isDirectory_iff : ∀ d, next.isDirectory d = true ↔
    d ∈ fs.housing (directory path) ∨ fs.isDirectory d = true

theorem gains_of_write (hmade : fs.makeDirectory (directory path) = .ok next)
    (hwritten : next.write path text = .ok last) : fs.Gains last path text where
  grows := (grows_of_makeDirectory hmade).trans (grows_of_write hwritten)
  file?_eq other := by
    rw [file?_of_write hwritten, file?_of_makeDirectory hmade,
      (grows_of_makeDirectory hmade).workingDirectory]
  isDirectory_iff d := by
    rw [isDirectory_of_write hwritten]
    exact isDirectory_of_makeDirectory hmade d

/-- The directory may have been made before. -/
theorem Gains.of_makeDirectory (hmade : fs.makeDirectory (directory path) = .ok next)
    (h : next.Gains last path text) : fs.Gains last path text where
  grows := (grows_of_makeDirectory hmade).trans h.grows
  file?_eq other := by
    rw [h.file?_eq, file?_of_makeDirectory hmade, (grows_of_makeDirectory hmade).workingDirectory]
  isDirectory_iff d := by
    rw [h.isDirectory_iff, isDirectory_of_makeDirectory hmade,
      (grows_of_makeDirectory hmade).housing_eq, or_self_left]

/-- A file is put where there is room for it. -/
theorem HasRoom.exists_place (h : fs.HasRoom path)
    (hrooted : isAbsolutePath fs.workingDirectory = true) (text : String) :
    ∃ placed last, fs.makeDirectory (directory path) = .ok placed ∧
      placed.write path text = .ok last ∧ fs.Gains last path text := by
  obtain ⟨placed, hplaced⟩ := h.exists_makeDirectory
  have hroom := h.makeDirectory hplaced
  have hgrows := grows_of_makeDirectory hplaced
  obtain ⟨last, hlast⟩ : ∃ last, placed.write path text = .ok last := by
    refine exists_write ?_ (fun d hd => ⟨hroom.free d hd, ?_⟩) hroom.notDirectory text
    · rw [hgrows.workingDirectory]
      exact hrooted
    · rw [hgrows.housing_eq] at hd
      exact (isDirectory_of_makeDirectory hplaced d).mpr (.inl hd)
  exact ⟨placed, last, hplaced, hlast, gains_of_write hplaced hlast⟩

/-- A file leaves room for another if neither is where the directory of the other is. -/
theorem HasRoom.of_gains {other : String} (h : fs.HasRoom path) (hgains : fs.Gains next other text)
    (hfile : absolute fs.workingDirectory other ∉ fs.housing (directory path))
    (hdirectory : absolute fs.workingDirectory path ∉ fs.housing (directory other)) :
    next.HasRoom path := by
  have hhousing := hgains.grows.housing_eq (directory path)
  refine ⟨fun d hd => ?_, ?_, ?_⟩
  · rw [hhousing] at hd
    rw [hgains.file?_eq, if_neg, h.free d hd]
    rintro rfl
    exact hfile hd
  · rw [hhousing, hgains.grows.workingDirectory]
    exact h.apart
  · rw [hgains.grows.workingDirectory, Bool.eq_false_iff, ne_eq, hgains.isDirectory_iff,
      h.notDirectory]
    exact not_or.mpr ⟨hdirectory, Bool.false_ne_true⟩

/-- What is read at a path, if anything is. -/
def text? (fs : FileSystem) (path : String) : Option String := (fs.read path).toOption

theorem text?_eq_some_iff : fs.text? path = some text ↔ fs.Reads path text := by
  rw [← read_eq_ok_iff, text?]
  cases fs.read path with
  | ok found => simp [Except.toOption]
  | error e => simp [Except.toOption]

/-- A file reads as before if it has not been written, and no directory on the way to it has been
made. -/
theorem Grows.text?_eq (h : fs.Grows next)
    (hfile : next.file? (absolute fs.workingDirectory path) =
      fs.file? (absolute fs.workingDirectory path))
    (hway : ∀ d ∈ above (fs.fromRoot path), next.isDirectory d = true → fs.isDirectory d = true) :
    next.text? path = fs.text? path := by
  have hroot : next.fromRoot path = fs.fromRoot path := by
    unfold fromRoot
    rw [h.workingDirectory]
  refine Option.ext fun text => ?_
  rw [text?_eq_some_iff, text?_eq_some_iff]
  constructor
  · intro hread
    have hthere := hread.there
    have hreached := hread.reached
    rw [h.workingDirectory, hfile] at hthere
    rw [hroot] at hreached
    refine ⟨hread.named, fun d hd => ⟨?_, hway d hd (hreached d hd).2⟩, hthere, hread.noSlash⟩
    cases hnone : fs.file? d with
    | none => rfl
    | some found => exact absurd (hreached d hd).1 (h.files d (by rw [hnone]; nofun))
  · intro hread
    refine ⟨hread.named, ?_, ?_, hread.noSlash⟩
    · rw [hroot]
      intro d hd
      obtain ⟨hnone, hdirectory⟩ := hread.reached d hd
      exact ⟨h.apart d hdirectory hnone, h.directories d hdirectory⟩
    · rw [h.workingDirectory, hfile]
      exact hread.there

end FileSystem

/-! What files an output is made from. -/

section

open Location

variable {fs view : FileSystem} {ε ε' α β : Type}

theorem toOption_mapError (x : Except ε α) (f : ε → ε') : (x.mapError f).toOption = x.toOption := by
  cases x <;> rfl

theorem mapError_eq_ok_iff {x : Except ε α} {f : ε → ε'} {value : α} :
    x.mapError f = .ok value ↔ x = .ok value := by
  cases x <;> simp [Except.mapError]

theorem toOption_eq_some_iff {x : Except ε α} {value : α} :
    x.toOption = some value ↔ x = .ok value := by
  cases x <;> simp [Except.toOption]

/-- What is read at a location depends on the web, or on how its file reads. -/
theorem toOption_readLocation {location : String} (hweb : view.web = fs.web)
    (h : isWebAddress location = false → view.text? location = fs.text? location) :
    (readLocation view location).toOption = (readLocation fs location).toOption := by
  unfold readLocation
  cases haddress : webAddress? location with
  | some a => rw [hweb]
  | none =>
    have hfile : isWebAddress location = false := by rw [isWebAddress, haddress, Option.isSome_none]
    dsimp only
    split
    · rfl
    · rw [toOption_mapError, toOption_mapError]
      exact h hfile

/-- What is read behind a reference depends only on the web and on how its file reads. -/
theorem FileResolver.toOption_resolve_eq {base ref : String} (kind : Kind)
    (hweb : view.web = fs.web)
    (h : isWebAddress (locate ⟨fs, base⟩ (Reference.split ref).1) = false →
      view.text? (locate ⟨fs, base⟩ (Reference.split ref).1) =
        fs.text? (locate ⟨fs, base⟩ (Reference.split ref).1)) :
    (resolve ⟨view, base⟩ ref kind).toOption = (resolve ⟨fs, base⟩ ref kind).toOption := by
  have hload : (load ⟨view, base⟩ (locate ⟨fs, base⟩ (Reference.split ref).1)).toOption =
      (load ⟨fs, base⟩ (locate ⟨fs, base⟩ (Reference.split ref).1)).toOption := by
    unfold load
    rw [toOption_bind, toOption_bind, toOption_mapError, toOption_mapError,
      toOption_readLocation hweb h]
  rw [toOption_resolve, toOption_resolve]
  change (if _ then none else (load ⟨view, base⟩ (locate ⟨fs, base⟩ (Reference.split ref).1)
    ).toOption.bind _) = _
  rw [hload]
  rfl

theorem FileResolver.reach_toExternal (r : FileResolver) : r.toExternal.reach = placeBound := rfl

namespace Target

/-- The files that an output is made from: the description, and for declarations the files that
references lead to, as far as these are not on the web. -/
inductive Uses (t : Target) (kind : ArtifactKind) (fs : FileSystem) : String → Prop where
  | description : isWebAddress t.spec = false → Uses t kind fs t.spec
  | reference {doc : Document} {ref : String} : kind = .declarations → t.document fs = .ok doc →
    Source.Asks ⟨doc, (t.request fs).external⟩ ref → Reference.isExternal ref = true →
      isWebAddress (FileResolver.locate ⟨fs, t.spec⟩ (Reference.split ref).1) = false →
        Uses t kind fs (FileResolver.locate ⟨fs, t.spec⟩ (Reference.split ref).1)

/-- What an output is made from is the same in two file systems: the files, and the web. -/
structure SameSources (t : Target) (kind : ArtifactKind) (fs view : FileSystem) : Prop where
  files : ∀ path, t.Uses kind fs path → view.text? path = fs.text? path
  web : view.web = fs.web

variable {t : Target} {kind : ArtifactKind}

/-- The document of an output depends only on what is read at its location, and on its tags. -/
theorem toOption_document {t' : Target} (hinclude : t'.includeTags = t.includeTags)
    (hexclude : t'.excludeTags = t.excludeTags)
    (h : (readLocation view t'.spec).toOption = (readLocation fs t.spec).toOption) :
    (t'.document view).toOption = (t.document fs).toOption := by
  unfold document Document.load
  simp only [toOption_bind, toOption_mapError, h, hinclude, hexclude]

/-- The types for a document depend only on what its references lead to. -/
theorem generate_request {doc : Document} (h : t.SameSources .declarations fs view)
    (hdoc : t.document fs = .ok doc) :
    Typing.generate doc (t.request view) = Typing.generate doc (t.request fs) := by
  have hrequest : { t.request fs with external := (t.request view).external } = t.request view :=
    rfl
  rw [← hrequest]
  refine Typing.generate_via ⟨fun ref kind hasks hexternal => ?_, ?_⟩
  · by_cases hspec : t.spec = ""
    · simp only [request, if_pos hspec]
    · simp only [request, if_neg hspec]
      exact FileResolver.toOption_resolve_eq kind h.web fun hfile =>
        h.files _ (.reference rfl hdoc hasks hexternal hfile)
  · refine .inl ?_
    by_cases hspec : t.spec = ""
    · simp only [request, if_pos hspec, Source.reach]
    · simp only [request, if_neg hspec, Source.reach, Option.elim_some,
        FileResolver.reach_toExternal]

/-- The text of an output depends only on what it is made from and on what is made of the template
of its banner. -/
theorem toOption_text (h : t.SameSources kind fs view)
    (hbanner : ∀ data, Banner.render (view.engine view.moment) t.banner data =
      Banner.render (fs.engine fs.moment) t.banner data) :
    (t.text kind view).toOption = (t.text kind fs).toOption := by
  have hdocument : (t.document view).toOption = (t.document fs).toOption :=
    toOption_document rfl rfl
      (toOption_readLocation h.web fun hfile => h.files _ (.description hfile))
  unfold text
  rw [toOption_bind, toOption_bind, hdocument]
  cases hdoc : t.document fs with
  | error e => simp only [Except.toOption, Option.bind_none]
  | ok doc =>
    have hok : (Except.ok doc : Except TargetError Document).toOption = some doc := rfl
    rw [hok, Option.bind_some, Option.bind_some, toOption_mapError, toOption_mapError]
    cases kind with
    | manifest => rfl
    | declarations =>
      unfold render declarations
      rw [generate_request h hdoc, hbanner]

/-- A file of declarations is made of the banner and the types. -/
theorem text_eq_ok {doc : Document} {types : Typing.Output} {banner : String}
    (hdoc : t.document fs = .ok doc) (htypes : Typing.generate doc (t.request fs) = .ok types)
    (hrendered : Banner.render (fs.engine fs.moment) t.banner (Banner.data doc.info t.spec t.out) =
      .ok banner) :
    t.text .declarations fs = .ok (banner ++ "\n" ++ types.text) := by
  rw [text, hdoc]
  change (t.render fs .declarations doc).mapError TargetError.render = _
  rw [render, declarations, htypes, hrendered]
  rfl

end Target

end

end ApiTypes
