import ApiTypes.CommandLine.Generate
import ApiTypes.Proofs.FixedLocations
import ApiTypes.Proofs.Making
import ApiTypes.Proofs.Templates

/-!
Declarations that are printed and declarations that are written to a file. Both come from one
description with the same options and the standard banner, but only what is written follows the
environment: printing gives what would be written if it is asked for the output as the environment
wants it. And only for a file are directories made before anything is read, so that a path through
such a directory leads somewhere for the file alone.
-/

namespace ApiTypes

open Location Work

section

variable {fs : FileSystem}

theorem reads_of_readLocation {location source : String} (hfile : isWebAddress location = false)
    (h : readLocation fs location = .ok source) : fs.Reads location source := by
  unfold readLocation at h
  rw [webAddress?_of_not_web hfile] at h
  dsimp only at h
  split at h
  · cases h
  · exact FileSystem.read_eq_ok_iff.mp (mapError_eq_ok_iff.mp h)

/-- A location and its settled form have the same text if both can be read. -/
theorem readLocation_settled (hrooted : isAbsolutePath fs.workingDirectory = true)
    {location source source' : String} (h : readLocation fs location = .ok source)
    (hsettled : readLocation fs (settled fs.workingDirectory location) = .ok source') :
    source' = source := by
  by_cases hkept : (location = "" || isWebAddress location || isAbsolutePath location) = true
  · rw [settled, if_pos hkept, h] at hsettled
    exact (Except.ok.inj hsettled).symm
  · rw [settled, if_neg hkept] at hsettled
    simp only [Bool.or_eq_true, not_or, Bool.not_eq_true] at hkept
    have hthere := (reads_of_readLocation hkept.1.2 h).there
    have hpath : isAbsolutePath (absolute fs.workingDirectory location) = true := by
      rw [FileSystem.absolute_eq_clean hrooted]
      exact isAbsolutePath_clean (FileSystem.isAbsolutePath_fromRoot hrooted location)
    have hthere' :=
      (reads_of_readLocation (isWebAddress_of_isAbsolutePath hpath) hsettled).there
    rw [FileSystem.absolute_absolute hrooted, hthere] at hthere'
    exact (Option.some.inj hthere').symm

end

namespace Target

variable {fs : FileSystem} {t : Target} {doc : Document}

theorem exists_source (h : (t.document fs).toOption = some doc) :
    ∃ source, readLocation fs t.spec = .ok source := by
  cases hread : readLocation fs t.spec with
  | ok source => exact ⟨source, rfl⟩
  | error e =>
    rw [document, Document.load, hread] at h
    cases h

/-- With the standard banner the declarations do not tell to which file they go. -/
theorem declarations_eq (t t' : Target) (hspec : t'.spec = t.spec)
    (hoptions : t'.options = t.options) (hbanner : t.banner = "") (hbanner' : t'.banner = "")
    (fs : FileSystem) (doc : Document) :
    t'.declarations fs doc = t.declarations fs doc := by
  have hrequest : t'.request fs = t.request fs := by
    rw [request, request, hspec, hoptions]
  unfold declarations
  rw [hrequest, hbanner, hbanner', Banner.render_standard doc.info t'.spec t.spec t'.out t.out]

end Target

namespace Config

theorem exists_completeTargets (workingDirectory spec : String) {targets : List Target}
    (h : ∀ t ∈ targets, t.out ≠ "") (index : Nat) :
    ∃ complete, completeTargets workingDirectory spec index targets = .ok complete := by
  induction targets generalizing index with
  | nil => exact ⟨[], rfl⟩
  | cons t rest ih =>
    obtain ⟨others, hothers⟩ := ih (fun t ht => h t (List.mem_cons_of_mem _ ht)) (index + 1)
    have hfirst : ∃ first, completeTarget workingDirectory spec index t = .ok first :=
      ⟨_, if_neg (h t List.mem_cons_self)⟩
    obtain ⟨first, hfirst⟩ := hfirst
    refine ⟨first :: others, ?_⟩
    rw [completeTargets, hfirst]
    change (completeTargets workingDirectory spec (index + 1) rest >>= _) = _
    rw [hothers]
    rfl

/-- A configuration with a description whose outputs all name a file can be completed. -/
theorem exists_complete (workingDirectory : String) {c : Config} (hspec : c.spec ≠ "")
    (hout : ∀ t ∈ c.targets, t.out ≠ "") :
    ∃ done, complete workingDirectory c = .ok done := by
  obtain ⟨targets, htargets⟩ :=
    exists_completeTargets workingDirectory (settled workingDirectory c.spec) hout 0
  rw [complete, if_neg hspec]
  dsimp only
  rw [htargets]
  exact ⟨_, rfl⟩

end Config

/-- An output as the environment wants it, with its own description or the one that the environment
names instead. -/
def Overrides.wanted (o : Overrides) (t : Target) : Target :=
  { o.onTarget t with spec := o.spec.getD t.spec }

namespace CommandLine

/-- The declarations that are asked for by a description, tags and options, and where they go. -/
def declarationsOf (spec : String) (includeTags excludeTags : Option (List String))
    (options : TargetOptions) (out : String) : Target :=
  { type := ArtifactKind.declarations.name, out, spec, includeTags, excludeTags, options }

/-- The output that is made where a file is asked for. -/
def settledTarget (workingDirectory : String) (t : Target) : Target :=
  { t with
    out := settledPath workingDirectory t.out
    spec := settled workingDirectory t.spec }

variable {env : Environment} {o : Overrides} {fs last : FileSystem} {t : Target}
  {file text shown : String}

theorem isAbsolutePath_settledPath (hrooted : isAbsolutePath fs.workingDirectory = true)
    (hempty : file ≠ "") (hfile : file ≠ printedOut) :
    isAbsolutePath (settledPath fs.workingDirectory file) = true := by
  unfold settledPath
  by_cases habsolute : isAbsolutePath file = true
  · rw [if_pos (by simp [habsolute])]
    exact habsolute
  · rw [if_neg (by simp [hempty, hfile, habsolute]), FileSystem.absolute_eq_clean hrooted]
    exact isAbsolutePath_clean (FileSystem.isAbsolutePath_fromRoot hrooted file)

theorem absolute_settledPath (hrooted : isAbsolutePath fs.workingDirectory = true) :
    absolute fs.workingDirectory (settledPath fs.workingDirectory file) =
      absolute fs.workingDirectory file := by
  unfold settledPath
  split
  · rfl
  · exact FileSystem.absolute_absolute hrooted file

/-- What is done where no configuration is named. -/
theorem exec_generate (env : Environment) (t : Target) (fs : FileSystem) :
    exec (generate env { target := t }) fs =
      if t.spec = "" ∨ t.out = "" then (.error .incomplete, fs)
      else if t.out = printedOut then
        if t.type ≠ "" ∧ t.type ≠ ArtifactKind.declarations.name then (.error .onlyDeclarations, fs)
        else ((printed t fs).mapError .printing, fs)
      else
        match exec (Generation.run env
          { target := { t with out := settledPath fs.workingDirectory t.out } }) fs with
        | (.ok _, after) => (.ok "", after)
        | (.error e, after) => (.error (.generation e), after) := by
  unfold generate
  simp only [decide_true, Bool.true_and, Bool.or_eq_true, Bool.and_eq_true, decide_eq_true_eq]
  split
  · rfl
  · split
    · split
      · rfl
      · exact exec_look _ fs
    · rw [exec_bind, exec_get]
      dsimp only
      rw [exec_bind, exec_adapt]
      have honly : settledPath fs.workingDirectory "" = "" := rfl
      rw [honly]
      cases hrun : exec _ fs with
      | mk result after => cases result <;> rfl

theorem printed_of_generate (hout : t.out = printedOut)
    (h : (exec (generate env { target := t }) fs).1 = .ok text) : printed t fs = .ok text := by
  rw [exec_generate] at h
  split at h
  · cases h
  · split at h
    · cases h
    · exact mapError_eq_ok_iff.mp h

theorem generate_of_printed (hout : t.out = printedOut) (hspec : t.spec ≠ "")
    (htype : t.type = ArtifactKind.declarations.name) (h : printed t fs = .ok text) :
    exec (generate env { target := t }) fs = (.ok text, fs) := by
  have hempty : t.out ≠ "" := hout ▸ by decide
  rw [exec_generate, if_neg (not_or.mpr ⟨hspec, hempty⟩), if_pos hout, if_neg (by simp [htype]), h]
  rfl

theorem printed_out (t : Target) (out : String) (fs : FileSystem) :
    printed { t with out } fs = printed t fs := rfl

/-- The outputs of a request without a configuration: the one output, as the environment wants it
and settled. -/
theorem configOf_target (henv : env.overrides = .ok o) {c : Config}
    (h : Generation.configOf env { target := t } fs = .ok c) :
    c.targets = [{ o.wanted t with
      type := if t.type = "" then ArtifactKind.declarations.name else t.type
      out := if isAbsolutePath t.out then t.out else absolute fs.workingDirectory t.out
      spec := settled fs.workingDirectory (o.wanted t).spec }] := by
  by_cases hgiven : (t.spec = "" || t.out = "") = true
  · rw [Generation.configOf, if_neg (not_not.mpr rfl), if_pos hgiven] at h
    cases h
  have hout : t.out ≠ "" := fun hempty => hgiven (by simp [hempty])
  rw [Generation.configOf, if_neg (not_not.mpr rfl), if_neg hgiven] at h
  have hsettle := mapError_eq_ok_iff.mp h
  rw [Config.settle, henv] at hsettle
  change Config.complete fs.workingDirectory (o.apply
    { spec := t.spec, targets := [{ t with spec := "" }] }) = .ok c at hsettle
  rw [Config.complete] at hsettle
  split at hsettle
  · cases hsettle
  · change (Config.completeTargets fs.workingDirectory
      (settled fs.workingDirectory (o.wanted t).spec) 0 [o.onTarget { t with spec := "" }] >>= _) =
        _ at hsettle
    have hfirst : Config.completeTarget fs.workingDirectory
        (settled fs.workingDirectory (o.wanted t).spec) 0 (o.onTarget { t with spec := "" }) =
          .ok { o.wanted t with
            type := if t.type = "" then ArtifactKind.declarations.name else t.type
            out := if isAbsolutePath t.out then t.out else absolute fs.workingDirectory t.out
            spec := settled fs.workingDirectory (o.wanted t).spec } := by
      exact if_neg hout
    rw [Config.completeTargets, hfirst] at hsettle
    cases hsettle
    rfl

theorem exists_configOf (henv : env.overrides = .ok o) (hspec : t.spec ≠ "") (hout : t.out ≠ "")
    (hwanted : (o.wanted t).spec ≠ "") :
    ∃ c, Generation.configOf env { target := t } fs = .ok c := by
  have houts : ∀ given ∈ [o.onTarget { t with spec := "" }], given.out ≠ "" := by
    intro given hgiven
    rw [List.mem_singleton.mp hgiven]
    exact hout
  obtain ⟨c, hc⟩ := Config.exists_complete fs.workingDirectory
    (c := o.apply { spec := t.spec, targets := [{ t with spec := "" }] }) hwanted houts
  refine ⟨c, ?_⟩
  rw [Generation.configOf, if_neg (not_not.mpr rfl), if_neg (by simp [hspec, hout])]
  dsimp only
  rw [Config.settle, henv]
  exact mapError_eq_ok_iff.mpr hc

/-- Without a configuration the output that the environment wants is made, settled. -/
theorem run_eq_ok_iff (hrooted : isAbsolutePath fs.workingDirectory = true)
    (htype : t.type = ArtifactKind.declarations.name) (henv : env.overrides = .ok o)
    (hfile : t.out ≠ printedOut) (hout : t.out ≠ "") {c : Config}
    (hconfig : Generation.configOf env
      { target := { t with out := settledPath fs.workingDirectory t.out } } fs = .ok c) :
    exec (Generation.run env
        { target := { t with out := settledPath fs.workingDirectory t.out } }) fs =
          (.ok (), last) ↔
      exec (settledTarget fs.workingDirectory (o.wanted t)).generate fs = (.ok (), last) := by
  have htargets : c.targets = [settledTarget fs.workingDirectory (o.wanted t)] := by
    rw [configOf_target henv hconfig]
    dsimp only
    rw [if_neg (by rw [htype]; decide), if_pos (isAbsolutePath_settledPath hrooted hout hfile)]
    rfl
  have hkind : ArtifactKind.ofName? (settledTarget fs.workingDirectory (o.wanted t)).type =
      some .declarations :=
    (congrArg ArtifactKind.ofName? htype).trans (ArtifactKind.ofName?_name .declarations)
  have hselection : Generation.selection "" c.targets =
      .ok [settledTarget fs.workingDirectory (o.wanted t)] := by
    refine Generation.selection_eq_ok_iff.mpr ⟨?_, ?_, nofun⟩
    · rw [htargets]
      rfl
    · intro wanted hwanted
      rw [List.mem_singleton.mp hwanted, hkind]
      rfl
  rw [Generation.run, exec_bind, exec_look, hconfig]
  dsimp only
  rw [Generation.exec_carryOut hselection, Generation.exec_generateAll_cons_eq_ok_iff]
  constructor
  · rintro ⟨after, hmade, hrest⟩
    cases hrest
    exact hmade
  · exact fun hmade => ⟨last, hmade, rfl⟩

/-- Where a file is asked for, the output that the environment wants is made, settled. -/
theorem generate_of_generate (hrooted : isAbsolutePath fs.workingDirectory = true)
    (htype : t.type = ArtifactKind.declarations.name) (henv : env.overrides = .ok o)
    (hfile : t.out ≠ printedOut)
    (h : exec (generate env { target := t }) fs = (.ok shown, last)) :
    exec (settledTarget fs.workingDirectory (o.wanted t)).generate fs = (.ok (), last) := by
  rw [exec_generate] at h
  by_cases hgiven : t.spec = "" ∨ t.out = ""
  · rw [if_pos hgiven] at h
    cases h
  rw [if_neg hgiven, if_neg hfile] at h
  split at h
  next after hrun =>
    cases h
    obtain ⟨c, _, hconfig, -⟩ := exec_bind_eq_ok_iff.mp hrun
    rw [exec_look] at hconfig
    exact (run_eq_ok_iff hrooted htype henv hfile (not_or.mp hgiven).2
      (Prod.mk.inj hconfig).1).mp hrun
  next => cases h

/-- A file is made if the output can be made that the environment wants. -/
theorem exec_generate_of_made (hrooted : isAbsolutePath fs.workingDirectory = true)
    (htype : t.type = ArtifactKind.declarations.name) (henv : env.overrides = .ok o)
    (hfile : t.out ≠ printedOut) (hspec : t.spec ≠ "") (hout : t.out ≠ "")
    (hwanted : (o.wanted t).spec ≠ "")
    (h : exec (settledTarget fs.workingDirectory (o.wanted t)).generate fs = (.ok (), last)) :
    exec (generate env { target := t }) fs = (.ok "", last) := by
  have hsettled : settledPath fs.workingDirectory t.out ≠ "" := fun hempty => by
    have habsolute := isAbsolutePath_settledPath hrooted hout hfile
    rw [hempty] at habsolute
    cases habsolute
  obtain ⟨c, hconfig⟩ : ∃ c, Generation.configOf env
      { target := { t with out := settledPath fs.workingDirectory t.out } } fs = .ok c :=
    exists_configOf henv hspec hsettled hwanted
  rw [exec_generate, if_neg (not_or.mpr ⟨hspec, hout⟩), if_neg hfile,
    (run_eq_ok_iff hrooted htype henv hfile hout hconfig).mpr h]

/-- What is printed for an output is the text of its file once it is settled, if the description
reads the same from there. -/
theorem toOption_printed (hbanner : t.banner = "")
    (hread : (readLocation fs (settled fs.workingDirectory t.spec)).toOption =
      (readLocation fs t.spec).toOption) :
    (printed t fs).toOption =
      ((settledTarget fs.workingDirectory t).text .declarations fs).toOption := by
  have hdocument : ((settledTarget fs.workingDirectory t).document fs).toOption =
      (t.document fs).toOption := Target.toOption_document rfl rfl hread
  rw [printed, Target.text, toOption_bind, toOption_bind, hdocument]
  refine congrArg _ (funext fun doc => ?_)
  rw [toOption_bind, toOption_mapError, toOption_mapError, Target.render,
    Target.declarations_eq (settledTarget fs.workingDirectory t)
      { type := ArtifactKind.declarations.name
        spec := settled fs.workingDirectory t.spec
        options := t.options } rfl rfl hbanner rfl fs doc]
  cases (settledTarget fs.workingDirectory t).declarations fs doc <;> rfl

theorem printed_of_text (hbanner : t.banner = "")
    (hread : (readLocation fs (settled fs.workingDirectory t.spec)).toOption =
      (readLocation fs t.spec).toOption)
    (h : (settledTarget fs.workingDirectory t).text .declarations fs = .ok text) :
    printed t fs = .ok text :=
  toOption_eq_some_iff.mp ((toOption_printed hbanner hread).trans (toOption_eq_some_iff.mpr h))

/-- What is printed for an output is what its file holds once it is settled. -/
theorem text_of_printed (hrooted : isAbsolutePath fs.workingDirectory = true)
    (hbanner : t.banner = "") {source : String} (hprinted : printed t fs = .ok text)
    (hmade : (settledTarget fs.workingDirectory t).text .declarations fs = .ok source) :
    source = text := by
  have hprinted' := toOption_eq_some_iff.mpr hprinted
  have hmade' := toOption_eq_some_iff.mpr hmade
  rw [printed, toOption_bind] at hprinted'
  rw [Target.text, toOption_bind] at hmade'
  obtain ⟨doc, hdoc, -⟩ := Option.bind_eq_some_iff.mp hprinted'
  obtain ⟨doc', hdoc', -⟩ := Option.bind_eq_some_iff.mp hmade'
  obtain ⟨read, hread⟩ := Target.exists_source hdoc
  obtain ⟨read', hread'⟩ := Target.exists_source hdoc'
  change readLocation fs (settled fs.workingDirectory t.spec) = _ at hread'
  have hsame := toOption_printed hbanner (by
    rw [hread, hread', readLocation_settled hrooted hread hread'])
  rw [hprinted, hmade] at hsame
  exact (Option.some.inj hsame).symm

/-- A file holds what is printed for the output that the environment wants. The two can differ only
because of the environment and of directories that are made for the file alone. In particular they
are the same where the environment changes neither the description nor the options, and the file
goes where a directory is. -/
theorem written_eq_printed {spec : String} {includeTags excludeTags : Option (List String)}
    {options : TargetOptions} (hrooted : isAbsolutePath fs.workingDirectory = true)
    (henv : env.overrides = .ok o) (hfile : file ≠ printedOut)
    (hreached : (settledTarget fs.workingDirectory
      (o.wanted (declarationsOf spec includeTags excludeTags options file))).ReachesWithout
        .declarations fs (fs.housing (directory (settledPath fs.workingDirectory file))))
    (hwritten : exec (generate env
      { target := declarationsOf spec includeTags excludeTags options file }) fs =
        (.ok shown, last))
    (hprinted : (exec (generate env
      { target := o.wanted (declarationsOf spec includeTags excludeTags options printedOut) })
        fs).1 = .ok text) :
    last.file? (absolute fs.workingDirectory file) = some text := by
  have hgenerate := generate_of_generate hrooted rfl henv hfile hwritten
  obtain ⟨housed, source, placed, hhoused, hsource, hplaced, hwrite⟩ :=
    (Target.exec_generate_eq_ok_iff ⟨rfl, rfl⟩ (ArtifactKind.ofName?_name .declarations)).mp
      hgenerate
  have hbefore := Target.toOption_text_of_makeDirectory hhoused hreached
  rw [toOption_eq_some_iff.mpr hsource] at hbefore
  have hshown := printed_of_generate rfl hprinted
  rw [← printed_out _ file] at hshown
  have hsame : source = text :=
    text_of_printed hrooted rfl hshown (toOption_eq_some_iff.mp hbefore.symm)
  have hroot : placed.workingDirectory = fs.workingDirectory :=
    ((FileSystem.grows_of_makeDirectory hhoused).trans
      (FileSystem.grows_of_makeDirectory hplaced)).workingDirectory
  rw [FileSystem.file?_of_write hwrite, hroot, hsame, if_pos]
  exact (absolute_settledPath hrooted).symm

/-- Two descriptions, of nothing and of one schema. -/
def twoDescriptions : FileSystem :=
  .ofFiles "/w" [("a.yaml", "openapi: 3.1.0"),
    ("b.yaml", "openapi: 3.1.0\ncomponents:\n  schemas:\n    A: true")]

/-- An environment that asks for the second description. -/
def otherSpec : Environment := [("TYPEGEN_SPEC", "b.yaml")]

/-- Declarations for the first description. -/
def firstAt (out : String) : Target := declarationsOf "a.yaml" none none {} out

/-- What becomes of an output in that environment. -/
def outcome (t : Target) : Except GenerateError String × FileSystem :=
  exec (generate otherSpec { target := t }) twoDescriptions

/-- What the environment changes. -/
def otherOverrides : Overrides := { spec := some "b.yaml" }

/-- Declarations for the second description. -/
def secondAt (out : String) : Target := otherOverrides.wanted (firstAt out)

/-- The document of an output and the types that are made of it. -/
def madeOf (t : Target) : Option (Document × Typing.Output) :=
  (t.document twoDescriptions).toOption.bind fun doc =>
    (Typing.generate doc (t.request twoDescriptions)).toOption.map (doc, ·)

/-- The two descriptions have no title, and their types are written differently. -/
theorem types_differ :
    (match madeOf (settledTarget "/w" (firstAt printedOut)),
        madeOf (settledTarget "/w" (secondAt "t.ts")) with
    | some (doc, types), some (doc', types') =>
      [doc, doc'].all (fun doc => doc.info.title = "" && doc.info.version = "") &&
        types.text ≠ types'.text
    | _, _ => false) = true := by
  decide +kernel

theorem text_of_madeOf {types : Typing.Output} {doc : Document} (hbanner : t.banner = "")
    (hmade : madeOf t = some (doc, types)) (htitle : doc.info.title = "")
    (hversion : doc.info.version = "") {banner : String}
    (hrendered : Banner.render Template.render "" (Banner.data {} "" "") = .ok banner) :
    t.text .declarations twoDescriptions = .ok (banner ++ "\n" ++ types.text) := by
  obtain ⟨found, hfound, hmap⟩ := Option.bind_eq_some_iff.mp hmade
  obtain ⟨output, houtput, hpair⟩ := Option.map_eq_some_iff.mp hmap
  cases hpair
  refine Target.text_eq_ok (toOption_eq_some_iff.mp hfound) (toOption_eq_some_iff.mp houtput) ?_
  rw [hbanner, Banner.data, htitle, hversion]
  exact (Banner.render_standard {} t.spec "" t.out "").trans hrendered

theorem texts_twoDescriptions :
    ∃ first second,
      (settledTarget "/w" (firstAt printedOut)).text .declarations twoDescriptions = .ok first ∧
        (settledTarget "/w" (secondAt "t.ts")).text .declarations twoDescriptions = .ok second ∧
          second ≠ first := by
  obtain ⟨banner, hbanner⟩ := Banner.exists_render_standard "" ""
  have hdiffer := types_differ
  split at hdiffer
  next doc types doc' types' hmade hmade' =>
    simp only [List.all_cons, List.all_nil, Bool.and_true, Bool.and_eq_true,
      decide_eq_true_eq] at hdiffer
    obtain ⟨⟨⟨htitle, hversion⟩, htitle', hversion'⟩, hne⟩ := hdiffer
    refine ⟨_, _, text_of_madeOf rfl hmade htitle hversion hbanner,
      text_of_madeOf rfl hmade' htitle' hversion' hbanner, fun hsame => hne ?_⟩
    exact (String.append_right_inj _).mp hsame.symm
  next => cases hdiffer

/-- What is printed for the two descriptions, and what is written in that environment. -/
theorem outcomes_otherSpec :
    ∃ first second last, (outcome (firstAt printedOut)).1 = .ok first ∧
      (outcome (secondAt printedOut)).1 = .ok second ∧ second ≠ first ∧
        outcome (firstAt "t.ts") = (.ok "", last) ∧ last.file? "/w/t.ts" = some second := by
  obtain ⟨first, second, hfirst, hsecond, hne⟩ := texts_twoDescriptions
  have hreads : ∀ spec ∈ ["a.yaml", "b.yaml"], (readLocation twoDescriptions
      (settled twoDescriptions.workingDirectory spec)).toOption =
        (readLocation twoDescriptions spec).toOption := by decide
  have hprinted : printed (firstAt printedOut) twoDescriptions = .ok first :=
    printed_of_text rfl (hreads _ (by decide)) hfirst
  have hprinted' : printed (secondAt printedOut) twoDescriptions = .ok second :=
    (printed_out (secondAt "t.ts") printedOut twoDescriptions).trans
      (printed_of_text rfl (hreads _ (by decide)) hsecond)
  have hhoused : ∀ d ∈ twoDescriptions.housing (settledTarget "/w" (secondAt "t.ts")).directory,
      twoDescriptions.file? d = none ∧ twoDescriptions.isDirectory d = true := by decide
  have hroom : twoDescriptions.HasRoom (settledTarget "/w" (secondAt "t.ts")).out :=
    ⟨fun d hd => (hhoused d hd).1, by decide, by decide⟩
  obtain ⟨last, hlast, hgains⟩ := Target.exists_generate ⟨rfl, rfl⟩
    (ArtifactKind.ofName?_name .declarations) (by decide) hroom
    (fun _ _ d _ hd => (hhoused d hd).2) hsecond
  have hfile : last.file? "/w/t.ts" = some second := by
    rw [hgains.file?_eq, if_pos (by decide)]
  refine ⟨first, second, last, ?_, ?_, hne, ?_, hfile⟩
  · rw [outcome, generate_of_printed rfl (by decide) rfl hprinted]
  · rw [outcome, generate_of_printed rfl (by decide) rfl hprinted']
  · exact exec_generate_of_made (by decide) rfl rfl (by decide) (by decide) (by decide) (by decide)
      hlast

theorem written_eq_printed_otherSpec :
    ∃ text shown last, (outcome (otherOverrides.wanted (firstAt printedOut))).1 = .ok text ∧
      outcome (firstAt "t.ts") = (.ok shown, last) ∧ last.file? "/w/t.ts" = some text := by
  obtain ⟨-, second, last, -, hprinted, -, hwritten, -⟩ := outcomes_otherSpec
  have hhoused : ∀ d ∈ twoDescriptions.housing (directory (settledPath "/w" "t.ts")),
      twoDescriptions.isDirectory d = true := by decide
  have hpath : absolute twoDescriptions.workingDirectory "t.ts" = "/w/t.ts" := by decide
  have hrooted : isAbsolutePath twoDescriptions.workingDirectory = true := by decide
  have henv : otherSpec.overrides = .ok otherOverrides := rfl
  have hfile := written_eq_printed hrooted henv (by decide) (fun _ _ d _ hd => hhoused d hd)
    hwritten hprinted
  rw [hpath] at hfile
  exact ⟨second, "", last, hprinted, hwritten, hfile⟩

/-- Printing does not heed the environment: it is the description that was asked for that is
printed, and the other one whose declarations are written. -/
theorem printed_ne_written :
    ∃ text shown, (outcome (firstAt printedOut)).1 = .ok text ∧
      (outcome (firstAt "t.ts")).1 = .ok shown ∧
        (outcome (firstAt "t.ts")).2.file? "/w/t.ts" ≠ some text := by
  obtain ⟨first, second, last, hprinted, -, hne, hwritten, hfile⟩ := outcomes_otherSpec
  refine ⟨first, "", hprinted, by rw [hwritten], ?_⟩
  rw [hwritten, hfile]
  exact fun hsame => hne (Option.some.inj hsame)

end CommandLine

end ApiTypes
