import ApiTypes.Proofs.Schedules
import Mathlib.Data.List.Nodup

/-!
Where outputs are separate, every order of moves gives the same files as the making of each output
alone. To make one output after another is one of these orders. Where the reference of one leads
through a directory that is made for another, or the template of a banner draws random numbers, the
order makes a difference.
-/

namespace ApiTypes

open Location

namespace Interleaving

variable {ι : Type} {targets : ι → Target} {start : FileSystem} {s : State ι}

/-! ### One output alone -/

/-- What is written in the midst of others is written alone too. -/
theorem exec_generate_of_written {fs : FileSystem} {i : ι} (hseparate : Separate targets start)
    (h : Written (targets i) start fs) :
    ∃ alone text, Work.exec (targets i).generate start = (.ok (), alone) ∧
      alone.file? (absolute start.workingDirectory (targets i).out) = some text ∧
        fs.file? (absolute start.workingDirectory (targets i).out) = some text := by
  obtain ⟨text, ⟨kind, hkind, htext⟩, hholds⟩ := h.holds
  obtain ⟨alone, halone, hgains⟩ := Target.exists_generate (hseparate.commandless i) hkind
    hseparate.rooted h.room (hseparate.reached i kind hkind i) htext
  exact ⟨alone, text, halone, by rw [hgains.file?_eq, if_pos rfl], hholds⟩

/-! ### One output after another -/

section

variable [DecidableEq ι] {i : ι} {kind : ArtifactKind} {last : FileSystem}

/-- The files may be read as they are, at any moment. -/
theorem shows_of_reachable (h : Reachable targets start s) (moment : Nat) :
    s.Shows { s.fs with moment } :=
  ⟨rfl, rfl, rfl, fun _ => ⟨s.fs, present_of_reachable h, rfl⟩⟩

/-- The text of an output may be made from whatever is shown. -/
theorem reachable_read {view : FileSystem} {text : String} (hcommandless : (targets i).Commandless)
    (hkind : ArtifactKind.ofName? (targets i).type = some kind) (h : Reachable targets start s)
    (hcourse : s.courses i = .underway .ready) (hshows : s.Shows view)
    (htext : (targets i).text kind view = .ok text) :
    ∃ s', Reachable targets start s' ∧ s'.fs = s.fs ∧ s'.courses i = .underway (.rendered text) ∧
      ∀ j, j ≠ i → s'.courses j = s.courses j := by
  have hstep := (Target.exec_step_eq_ok_iff hcommandless).mpr (.render htext)
  refine ⟨_, h.move (.read hkind hcourse hshows), rfl, ?_,
    fun j hj => State.courses_course_of_ne hj ..⟩
  rw [State.courses_course, hstep]
  rfl

/-- Stages in a row are moves. -/
theorem reachable_advance {n : Nat} {stage final : Stage}
    (hcommandless : (targets i).Commandless)
    (hkind : ArtifactKind.ofName? (targets i).type = some kind) (h : Reachable targets start s)
    (hcourse : s.courses i = .underway stage)
    (hrun : Work.exec ((targets i).advance kind n stage) s.fs = (.ok final, last)) :
    ∃ s', Reachable targets start s' ∧ s'.fs = last ∧ s'.courses i = .underway final ∧
      ∀ j, j ≠ i → s'.courses j = s.courses j := by
  induction n generalizing s stage with
  | zero =>
    cases hrun
    exact ⟨s, h, rfl, hcourse, fun _ _ => rfl⟩
  | succ n ih =>
    obtain ⟨stage', after, hadvances, hrest⟩ := (Target.exec_advance_eq_ok_iff hcommandless).mp hrun
    have hgoes : ∃ s', Reachable targets start s' ∧ s'.fs = after ∧
        s'.courses i = .underway stage' ∧ ∀ j, j ≠ i → s'.courses j = s.courses j := by
      by_cases hready : stage = .ready
      · subst hready
        cases hadvances with
        | render htext =>
          exact reachable_read hcommandless hkind h hcourse
            (shows_of_reachable h s.fs.moment) htext
      · have hstep := (Target.exec_step_eq_ok_iff hcommandless).mpr hadvances
        refine ⟨_, h.move (.act hkind hcourse hready), ?_, ?_,
          fun j hj => State.courses_course_of_ne hj ..⟩
        · rw [hstep]
          rfl
        · rw [State.courses_course, hstep]
          rfl
    obtain ⟨s', hreachable', hfs, hcourse', hothers⟩ := hgoes
    obtain ⟨s'', hreachable, hlast, hfinal, hrest⟩ := ih hreachable' hcourse' (hfs ▸ hrest)
    exact ⟨s'', hreachable, hlast, hfinal, fun j hj => (hrest j hj).trans (hothers j hj)⟩

/-- An output can be made without a break. -/
theorem reachable_generate (hcommandless : (targets i).Commandless)
    (hkind : ArtifactKind.ofName? (targets i).type = some kind) (h : Reachable targets start s)
    (hcourse : s.courses i = .underway .waiting)
    (hrun : Work.exec (targets i).generate s.fs = (.ok (), last)) :
    ∃ s', Reachable targets start s' ∧ s'.fs = last ∧ s'.courses i = .underway .finished ∧
      ∀ j, j ≠ i → s'.courses j = s.courses j := by
  obtain ⟨final, hrun⟩ := (Target.exec_generate hkind).mp hrun
  have hfinal := ((Target.exec_advance_stepCount_eq_ok_iff hcommandless).mp hrun).1
  exact hfinal ▸ reachable_advance hcommandless hkind h hcourse hrun

/-- An output whose directory is there goes on to its end. Its text may be made at any moment. -/
theorem reachable_finish {text : String} (moment : Nat) (hcommandless : (targets i).Commandless)
    (hkind : ArtifactKind.ofName? (targets i).type = some kind) (h : Reachable targets start s)
    (hcourse : s.courses i = .underway .housed)
    (hrooted : isAbsolutePath s.fs.workingDirectory = true) (hroom : s.fs.HasRoom (targets i).out)
    (htext : (targets i).text kind { s.fs with moment } = .ok text) :
    ∃ s', Reachable targets start s' ∧ s.fs.Gains s'.fs (targets i).out text ∧
      s'.courses i = .underway .finished ∧ ∀ j, j ≠ i → s'.courses j = s.courses j := by
  have hprepared : Work.exec ((targets i).advance kind 1 .housed) s.fs = (.ok .ready, s.fs) :=
    (Target.exec_advance_eq_ok_iff hcommandless).mpr ⟨_, _, .prepare, rfl⟩
  obtain ⟨ready, hready, hfs, hcourse, hothers⟩ :=
    reachable_advance hcommandless hkind h hcourse hprepared
  have hshows : ready.Shows { s.fs with moment } := hfs ▸ shows_of_reachable hready moment
  obtain ⟨rendered, hrendered, hfs', hcourse, hothers'⟩ :=
    reachable_read hcommandless hkind hready hcourse hshows htext
  obtain ⟨placed, last, hplaced, hlast, hgains⟩ := hroom.exists_place hrooted text
  have hwritten : Work.exec ((targets i).advance kind 3 (.rendered text)) rendered.fs =
      (.ok .finished, last) := by
    rw [hfs', hfs]
    exact (Target.exec_advance_eq_ok_iff hcommandless).mpr ⟨_, _, .place hplaced,
      (Target.exec_advance_eq_ok_iff hcommandless).mpr ⟨_, _, .write hlast,
        (Target.exec_advance_eq_ok_iff hcommandless).mpr ⟨_, _, .finish, rfl⟩⟩⟩
  obtain ⟨s', hreachable, rfl, hfinal, hothers''⟩ :=
    reachable_advance hcommandless hkind hrendered hcourse hwritten
  exact ⟨s', hreachable, hgains, hfinal,
    fun j hj => (hothers'' j hj).trans ((hothers' j hj).trans (hothers j hj))⟩

/-- To make outputs one after another, in any order, is one of the orders of moves. -/
theorem reachable_generateAll {order : List ι} (hapart : Apart targets start)
    (hnodup : order.Nodup) (h : Reachable targets start s)
    (hwaiting : ∀ i ∈ order, s.courses i = .underway .waiting)
    (hrun : Work.exec (Generation.generateAll (order.map targets)) s.fs = (.ok (), last)) :
    ∃ s', Reachable targets start s' ∧ s'.fs = last ∧
      (∀ i ∈ order, s'.courses i = .underway .finished) ∧
        ∀ j, j ∉ order → s'.courses j = s.courses j := by
  induction order generalizing s with
  | nil =>
    cases hrun
    exact ⟨s, h, rfl, nofun, fun _ _ => rfl⟩
  | cons i rest ih =>
    obtain ⟨hi, hrest⟩ := List.nodup_cons.mp hnodup
    obtain ⟨after, hfirst, hothers⟩ := Generation.exec_generateAll_cons_eq_ok_iff.mp hrun
    obtain ⟨kind, hkind⟩ := hapart.known i
    obtain ⟨s', hreachable, hfs, hfinal, hsame⟩ :=
      reachable_generate (hapart.commandless i) hkind h (hwaiting i List.mem_cons_self) hfirst
    have hwaiting' : ∀ j ∈ rest, s'.courses j = .underway .waiting := by
      intro j hj
      rw [hsame j (fun heq => hi (heq ▸ hj))]
      exact hwaiting j (List.mem_cons_of_mem i hj)
    obtain ⟨s'', hreachable', hlast, hfinished, hsame'⟩ :=
      ih hrest hreachable hwaiting' (hfs ▸ hothers)
    refine ⟨s'', hreachable', hlast, fun j hj => ?_, fun j hj => ?_⟩
    · rcases List.mem_cons.mp hj with rfl | hj
      · exact (hsame' j hi).trans hfinal
      · exact hfinished j hj
    · obtain ⟨hne, hrest'⟩ := not_or.mp (List.mem_cons.not.mp hj)
      exact (hsame' j hrest').trans (hsame j hne)

/-- An output whose text cannot be made fails. -/
theorem reachable_failure {housed : FileSystem} {e : TargetError}
    (hcommandless : (targets i).Commandless)
    (hkind : ArtifactKind.ofName? (targets i).type = some kind) (h : Reachable targets start s)
    (hcourse : s.courses i = .underway .waiting)
    (hhoused : s.fs.makeDirectory (targets i).directory = .ok housed)
    (htext : (targets i).text kind housed = .error e) :
    ∃ s', Reachable targets start s' ∧ s'.courses i = .failed e := by
  have hready : Work.exec ((targets i).advance kind 2 .waiting) s.fs = (.ok .ready, housed) :=
    (Target.exec_advance_eq_ok_iff hcommandless).mpr ⟨_, _, .house hhoused,
      (Target.exec_advance_eq_ok_iff hcommandless).mpr ⟨_, _, .prepare, rfl⟩⟩
  obtain ⟨s', hreachable, rfl, hcourse', -⟩ := reachable_advance hcommandless hkind h hcourse hready
  have hshows := shows_of_reachable hreachable s'.fs.moment
  refine ⟨_, hreachable.move (.read hkind hcourse' hshows), ?_⟩
  rw [State.courses_course, Target.exec_step hcommandless]
  dsimp only
  rw [htext]
  rfl

/-- Of two outputs one may be made once the directory of the other is there and before its file
is. -/
theorem exists_finished_between {a b : Target} {first second : ArtifactKind}
    {linked : FileSystem} {text : String} (ha : a.Commandless) (hb : b.Commandless)
    (hfirst : ArtifactKind.ofName? a.type = some first)
    (hsecond : ArtifactKind.ofName? b.type = some second)
    (hrooted : isAbsolutePath start.workingDirectory = true)
    (hlinked : start.makeDirectory a.directory = .ok linked) (hroom : start.HasRoom a.out)
    (hroom' : linked.HasRoom b.out)
    (hreached : b.ReachesWithout second linked (linked.housing b.directory))
    (htext : b.text second linked = .ok text)
    (hdirectory : absolute linked.workingDirectory b.out ∉ linked.housing a.directory)
    (hdirectory' : absolute linked.workingDirectory a.out ∉ linked.housing b.directory)
    (hne : absolute linked.workingDirectory b.out ≠ absolute linked.workingDirectory a.out)
    (hother : ∀ last, linked.Gains last b.out text → ∃ source, a.text first last = .ok source) :
    ∃ s, Reachable [a, b].get start s ∧ (∀ i, s.courses i = .underway .finished) ∧
      s.fs.file? (absolute start.workingDirectory b.out) = some text := by
  have hroot := (FileSystem.grows_of_makeDirectory hlinked).workingDirectory
  obtain ⟨last, hmade, hgains⟩ :=
    Target.exists_generate hb hsecond (hroot ▸ hrooted) hroom' hreached htext
  have hhouse : Work.exec (a.advance first 1 .waiting) start = (.ok .housed, linked) :=
    (Target.exec_advance_eq_ok_iff ha).mpr ⟨_, _, .house hlinked, rfl⟩
  have hinitial : Reachable [a, b].get start (.initial start) := .initial
  obtain ⟨housed, hhoused, rfl, hcourse, hothers⟩ :=
    reachable_advance (i := (0 : Fin 2)) ha hfirst hinitial rfl hhouse
  obtain ⟨made, hreachable, rfl, hfinished, hothers'⟩ :=
    reachable_generate (i := (1 : Fin 2)) hb hsecond hhoused (hothers 1 nofun) hmade
  obtain ⟨source, hsource⟩ := hother _ hgains
  have hroot' := hgains.grows.workingDirectory.trans hroot
  have hleft := (hroom.makeDirectory hlinked).of_gains hgains hdirectory hdirectory'
  obtain ⟨s, hreachable, hgains', hfinished', hothers''⟩ :=
    reachable_finish (i := (0 : Fin 2)) made.fs.moment ha hfirst hreachable
      ((hothers' 0 nofun).trans hcourse) (hroot' ▸ hrooted) hleft hsource
  refine ⟨s, hreachable, fun i => ?_, ?_⟩
  · match i with
    | 0 => exact hfinished'
    | 1 => exact (hothers'' 1 nofun).trans hfinished
  · rw [← hroot, hgains'.file?_eq, hgains.grows.workingDirectory]
    exact (if_neg hne).trans ((hgains.file?_eq _).trans (if_pos rfl))

end

/-! ### Schedules and failures -/

/-- Outputs that are separate do not depend on the order in which their making proceeds: if all of
them are finished, each file holds what it holds when its output is made alone, and the file of an
output that has failed or was given up is as it was. If an output that is wanted is of an unknown
kind, or none is the one that is asked for, nothing at all is changed. -/
theorem schedule_independent :
    (∀ (targets : List Target) (start : FileSystem), Separate targets.get start →
      ∀ s, Reachable targets.get start s →
        ((∀ i, s.courses i = .underway .finished) → ∀ i, ∃ alone text,
          Work.exec (targets.get i).generate start = (.ok (), alone) ∧
            alone.file? (absolute start.workingDirectory (targets.get i).out) = some text ∧
              s.fs.file? (absolute start.workingDirectory (targets.get i).out) = some text) ∧
        ∀ i, ((∃ e, s.courses i = .failed e) ∨ s.courses i = .cancelled) →
          s.fs.file? (absolute start.workingDirectory (targets.get i).out) =
            start.file? (absolute start.workingDirectory (targets.get i).out)) ∧
    ∀ (c : Config) (only : String) (fs : FileSystem),
      ((∃ t ∈ c.targets, Generation.wants only t = true ∧ ArtifactKind.ofName? t.type = none) ∨
        (only ≠ "" ∧ ∀ t ∈ c.targets, t.out ≠ only)) →
      ∃ e, Work.exec (Generation.carryOut c only) fs = (.error e, fs) := by
  refine ⟨fun targets start hseparate s hreachable => ⟨fun hfinished i => ?_, fun i hi => ?_⟩,
    fun c only fs hunfit => ?_⟩
  · have haccounts := (sound_of_reachable hseparate hreachable).accounts i
    rw [hfinished i] at haccounts
    exact exec_generate_of_written hseparate haccounts
  · have haccounts := (sound_of_reachable hseparate hreachable).accounts i
    rcases hi with ⟨e, hfailed⟩ | hcancelled
    · rw [hfailed] at haccounts
      exact haccounts
    · rw [hcancelled] at haccounts
      exact haccounts
  · cases hselection : Generation.selection only c.targets with
    | error e => exact ⟨e, Generation.exec_carryOut_error hselection⟩
    | ok wanted =>
      obtain ⟨rfl, hknown, hsome⟩ := Generation.selection_eq_ok_iff.mp hselection
      rcases hunfit with ⟨t, ht, hwanted, hunknown⟩ | ⟨honly, hnone⟩
      · have hkind := hknown t (List.mem_filter.mpr ⟨ht, hwanted⟩)
        rw [hunknown] at hkind
        cases hkind
      · refine absurd (List.filter_eq_nil_iff.mpr fun t ht => ?_) (hsome honly)
        simp [Generation.wants, honly, hnone t ht]

/-- Outputs of a list are apart if they go to different files, and none goes where a file is that
one is made from. -/
theorem apart_get {targets : List Target} (hrooted : isAbsolutePath start.workingDirectory = true)
    (hknown : ∀ t ∈ targets, ∃ kind, ArtifactKind.ofName? t.type = some kind)
    (hcommandless : ∀ t ∈ targets, t.Commandless)
    (hdistinct : (targets.map fun t => absolute start.workingDirectory t.out).Nodup)
    (hunread : ∀ t ∈ targets, ∀ kind path, t.Uses kind start path → ∀ u ∈ targets,
      absolute start.workingDirectory path ≠ absolute start.workingDirectory u.out) :
    Apart targets.get start where
  rooted := hrooted
  known i := hknown _ (List.get_mem targets i)
  commandless i := hcommandless _ (List.get_mem targets i)
  distinct i j heq := by
    have hsame := List.inj_on_of_nodup_map hdistinct (List.get_mem targets i)
      (List.get_mem targets j) heq
    exact List.nodup_iff_injective_get.mp (hdistinct.of_map _) hsame
  unread i kind path _ huses j :=
    hunread _ (List.get_mem targets i) kind path huses _ (List.get_mem targets j)

/-! ### A path through a directory that is made -/

/-- Whether an object holds nothing but a reference. -/
def isBare (ref : String) (o : Object) : Bool :=
  o.parts.isEmpty && o.ref = ref &&
    match o with
    | .schema s => s.discriminator.isNone
    | _ => true

/-- A document of bare references that lead nowhere has no others. -/
theorem asks_of_isBare {w : Source} {lone ref : String}
    (hobjects : w.doc.objects.all (isBare lone) = true)
    (hcanonical : Reference.canonical lone = lone)
    (hfetch : ∀ e kind, w.external = some e → Reference.isExternal lone = true →
      e.fetch lone kind = none)
    (h : w.Asks ref) : ref = lone := by
  have hparts {o : Object} (ho : isBare lone o = true) : o.parts = [] := by
    simp only [isBare, Bool.and_eq_true, List.isEmpty_iff] at ho
    exact ho.1.1
  have href {o : Object} (ho : isBare lone o = true) : o.ref = lone := by
    simp only [isBare, Bool.and_eq_true, decide_eq_true_eq] at ho
    exact ho.1.2
  refine @Source.Asks.rec w (fun o _ => isBare lone o = true) (fun ref _ => ref = lone)
    ?_ ?_ ?_ ?_ ?_ ?_ ref h
  · exact fun ho => List.all_eq_true.mp hobjects _ ho
  · intro o inner _ hinner ho
    rw [hparts ho] at hinner
    cases hinner
  · rintro e ref kind o hexternal _ hlone hsome rfl
    rw [hfetch e kind hexternal hlone] at hsome
    cases hsome
  · exact fun _ ho => href ho
  · intro s d name ref _ hd _ hs
    simp [isBare, hd] at hs
  · rintro ref _ rfl
    exact hcanonical

/-- An output of such a document is made from the description and the place where its references
would lead. -/
theorem uses_of_isBare {t : Target} {kind : ArtifactKind} {fs : FileSystem} {lone path : String}
    (hdocument : (t.document fs).toOption.all (fun doc => doc.objects.all (isBare lone)) = true)
    (hcanonical : Reference.canonical lone = lone)
    (hlost : (readLocation fs
      (FileResolver.locate ⟨fs, t.spec⟩ (Reference.split lone).1)).toOption = none)
    (h : t.Uses kind fs path) :
    path = t.spec ∨ path = FileResolver.locate ⟨fs, t.spec⟩ (Reference.split lone).1 := by
  cases h with
  | description => exact .inl rfl
  | @reference doc ref _ hdoc hasks _ =>
    rw [hdoc] at hdocument
    have hfetch : ∀ e kind, (t.request fs).external = some e → Reference.isExternal lone = true →
        e.fetch lone kind = none := by
      intro e kind hexternal _
      by_cases hspec : t.spec = ""
      · simp [Target.request, hspec] at hexternal
      · simp only [Target.request, if_neg hspec, Option.some.injEq] at hexternal
        subst hexternal
        have hload : (FileResolver.load ⟨fs, t.spec⟩ (FileResolver.locate ⟨fs, t.spec⟩
            (Reference.split lone).1)).toOption = none := by
          rw [FileResolver.load, toOption_bind, toOption_mapError]
          exact congrArg (Option.bind · _) hlost
        change (FileResolver.resolve ⟨fs, t.spec⟩ lone kind).toOption = none
        rw [FileResolver.toOption_resolve, hload]
        exact ite_self none
    have hobjects : doc.objects.all (isBare lone) = true := hdocument
    have hlone : ref = lone := asks_of_isBare hobjects hcanonical hfetch hasks
    rw [hlone]
    exact .inr rfl

theorem uses_of_unread {t : Target} {kind : ArtifactKind} {fs : FileSystem} {path : String}
    (hdocument : (t.document fs).toOption = none) (h : t.Uses kind fs path) : path = t.spec := by
  cases h with
  | description => rfl
  | reference _ hdoc =>
    rw [hdoc] at hdocument
    cases hdocument

/-- What an engine makes of a template that is nothing but a random name, at some moment. Other
templates it gives back as they are. -/
def draw (moment : Nat) (source : String) : String :=
  if source = "\x7b\x7b uuidv4 \x7d\x7d" then
    "00000000-0000-4000-8000-00000000000" ++ toString moment
  else source

/-- A description with a reference whose path goes through a directory that is not there. -/
def oddFiles : FileSystem :=
  { FileSystem.ofFiles "/w" [("openapi.yaml",
        "openapi: 3.1.0\ncomponents:\n  schemas:\n    X:\n      $ref: x:gen/../common.yaml#/X"),
      ("common.yaml", "X:\n  type: string")] with
    engine := fun moment _ source _ => .ok (draw moment source) }

def oddRef : String := "x:gen/../common.yaml#/X"

def listing (out : String) : Target := { type := "manifest", out, spec := "/w/openapi.yaml" }

def types (spec : String) : Target :=
  { type := "typescript", out := "/w/a.ts", spec, banner := "//"
    options := { typing := { silent := true } } }

/-- Declarations for the description. -/
def oddTypes : Target := types "/w/openapi.yaml"

/-- A listing, and the declarations. -/
def outputs (out : String) : List Target := [listing out, oddTypes]

/-- The files once the directory of the listing has been made. -/
def linked (out : String) : FileSystem :=
  { oddFiles with
    directories := oddFiles.housing (listing out).directory ++ oddFiles.directories }

theorem render_oddFiles {source : String} (hsource : source ≠ "") (moment : Nat)
    (data : Template.Data) :
    Banner.render (oddFiles.engine moment) source data =
      .ok (Banner.endLine (draw moment source)) := by
  rw [Banner.render, if_neg hsource]
  rfl

theorem steady_oddFiles {source : String} (hplain : source ≠ "\x7b\x7b uuidv4 \x7d\x7d") :
    Steady oddFiles.engine source := by
  intro moment moment' data
  by_cases hsource : source = ""
  · rw [Banner.render, Banner.render, if_pos hsource, if_pos hsource]
  · rw [render_oddFiles hsource, render_oddFiles hsource, draw, draw, if_neg hplain, if_neg hplain]

/-- The reference leads nowhere at the start, but somewhere through the directory that is made. -/
theorem types_differ :
    (oddTypes.document oddFiles).toOption.any (fun doc =>
      doc.objects.all (isBare oddRef) &&
        match Typing.generate doc (oddTypes.request oddFiles),
          Typing.generate doc (oddTypes.request (linked "/w/x:gen/b.json")) with
        | .ok alone, .ok both => decide (alone.text ≠ both.text)
        | _, _ => false) = true := by
  decide +kernel

theorem exists_types :
    ∃ doc alone both, oddTypes.document oddFiles = .ok doc ∧
      doc.objects.all (isBare oddRef) = true ∧
        Typing.generate doc (oddTypes.request oddFiles) = .ok alone ∧
          Typing.generate doc
              (oddTypes.request (linked "/w/x:gen/b.json")) = .ok both ∧
            alone.text ≠ both.text := by
  obtain ⟨doc, hdoc, hdiffer⟩ := Typing.exists_of_any types_differ
  rw [Bool.and_eq_true] at hdiffer
  obtain ⟨hobjects, hdiffer⟩ := hdiffer
  split at hdiffer
  next alone both halone hboth =>
    exact ⟨doc, alone, both, hdoc, hobjects, halone, hboth, of_decide_eq_true hdiffer⟩
  next => cases hdiffer

/-- The description reads the same wherever it has been left alone. -/
theorem toOption_document_of_grows {t t' : Target} {fs : FileSystem}
    (hspec : t.spec = "/w/openapi.yaml") (hspec' : t'.spec = t.spec)
    (hinclude : t'.includeTags = t.includeTags) (hexclude : t'.excludeTags = t.excludeTags)
    (hgrows : oddFiles.Grows fs)
    (hfile : fs.file? "/w/openapi.yaml" = oddFiles.file? "/w/openapi.yaml") :
    (t'.document fs).toOption = (t.document oddFiles).toOption := by
  have hplace : absolute oddFiles.workingDirectory "/w/openapi.yaml" = "/w/openapi.yaml" := by
    decide
  have hway : ∀ d ∈ FileSystem.above (oddFiles.fromRoot "/w/openapi.yaml"),
      oddFiles.isDirectory d = true := by decide
  refine Target.toOption_document hinclude hexclude ?_
  rw [hspec', hspec]
  refine toOption_readLocation hgrows.web fun _ => hgrows.text?_eq ?_ fun d hd _ => hway d hd
  rw [hplace]
  exact hfile

/-- The two files that the outputs are made from. -/
theorem uses_oddFiles {t : Target} {kind : ArtifactKind} {path : String}
    (hspec : t.spec = "/w/openapi.yaml") (hinclude : t.includeTags = none)
    (hexclude : t.excludeTags = none) (h : t.Uses kind oddFiles path) :
    path = "/w/openapi.yaml" ∨ path = "x:gen/../common.yaml" := by
  have hcanonical : Reference.canonical oddRef = oddRef := by decide
  have hlocated : FileResolver.locate ⟨oddFiles, "/w/openapi.yaml"⟩ (Reference.split oddRef).1 =
      "x:gen/../common.yaml" := by decide
  have hlost : (readLocation oddFiles "x:gen/../common.yaml").toOption = none := by decide
  have hdocument : (t.document oddFiles).toOption = (oddTypes.document oddFiles).toOption :=
    toOption_document_of_grows rfl hspec hinclude hexclude (.refl oddFiles) rfl
  obtain ⟨doc, -, -, hdoc, hobjects, -⟩ := exists_types
  rw [← hlocated] at hlost ⊢
  rw [← hspec] at hlost ⊢
  refine uses_of_isBare ?_ hcanonical hlost h
  rw [hdocument, hdoc]
  exact hobjects

/-- Neither of the two files is where an output goes that keeps off them. -/
theorem absolute_path_ne {t : Target} {kind : ArtifactKind} {path out : String}
    (hspec : t.spec = "/w/openapi.yaml") (hinclude : t.includeTags = none)
    (hexclude : t.excludeTags = none)
    (hout : absolute "/w" out ∉ ["/w/openapi.yaml", "/w/common.yaml"])
    (h : t.Uses kind oddFiles path) : absolute "/w" path ≠ absolute "/w" out := by
  have hplaces : absolute "/w" "/w/openapi.yaml" = "/w/openapi.yaml" ∧
      absolute "/w" "x:gen/../common.yaml" = "/w/common.yaml" := by decide
  rintro heq
  refine hout ?_
  rw [← heq]
  rcases uses_oddFiles hspec hinclude hexclude h with rfl | rfl
  · rw [hplaces.1]
    exact List.mem_cons_self
  · rw [hplaces.2]
    exact List.mem_cons_of_mem _ (List.mem_singleton_self _)

theorem mem_outputs {out : String} {t : Target} (ht : t ∈ outputs out) :
    t = listing out ∨ t = oddTypes :=
  (List.mem_cons.mp ht).imp_right List.mem_singleton.mp

theorem description_outputs {out : String} {t : Target} (ht : t ∈ outputs out) :
    t.spec = "/w/openapi.yaml" ∧ t.includeTags = none ∧ t.excludeTags = none := by
  rcases mem_outputs ht with rfl | rfl
  · exact ⟨rfl, rfl, rfl⟩
  · exact ⟨rfl, rfl, rfl⟩

theorem apart_outputs {out : String}
    (hout : absolute "/w" out ∉ ["/w/a.ts", "/w/openapi.yaml", "/w/common.yaml"]) :
    Apart (outputs out).get oddFiles := by
  have htypes : absolute "/w" "/w/a.ts" = "/w/a.ts" := by decide
  have hfree : absolute "/w" "/w/a.ts" ∉ ["/w/openapi.yaml", "/w/common.yaml"] := by decide
  obtain ⟨hne, hfiles⟩ := not_or.mp (List.mem_cons.not.mp hout)
  refine apart_get (by decide) (fun t ht => ?_) (fun t ht => ?_) ?_
    fun t ht kind path huses u hu => ?_
  · rcases mem_outputs ht with rfl | rfl
    · exact ⟨.manifest, rfl⟩
    · exact ⟨.declarations, rfl⟩
  · rcases mem_outputs ht with rfl | rfl
    · exact ⟨rfl, rfl⟩
    · exact ⟨rfl, rfl⟩
  · refine List.nodup_cons.mpr ⟨fun hmem => hne ?_, List.nodup_singleton _⟩
    exact (List.mem_singleton.mp hmem).trans htypes
  · obtain ⟨hspec, hinclude, hexclude⟩ := description_outputs ht
    refine absolute_path_ne hspec hinclude hexclude ?_ huses
    rcases mem_outputs hu with rfl | rfl
    · exact hfiles
    · exact hfree

/-- Neither output gets in the way of the other. -/
theorem room_outputs :
    ∀ out ∈ ["/w/gen/b.json", "/w/x:gen/b.json"],
      oddFiles.HasRoom (listing out).out ∧ (linked out).HasRoom oddTypes.out ∧
        absolute (linked out).workingDirectory oddTypes.out ∉
          (linked out).housing (listing out).directory ∧
            absolute (linked out).workingDirectory (listing out).out ∉
              (linked out).housing oddTypes.directory ∧
                absolute (linked out).workingDirectory oddTypes.out ≠
                  absolute (linked out).workingDirectory (listing out).out := by
  have hlisting : ∀ out ∈ ["/w/gen/b.json", "/w/x:gen/b.json"],
      (∀ d ∈ oddFiles.housing (directory out), oddFiles.file? d = none) ∧
        absolute "/w" out ∉ oddFiles.housing (directory out) ∧
          oddFiles.isDirectory (absolute "/w" out) = false := by decide
  have htypes : ∀ out ∈ ["/w/gen/b.json", "/w/x:gen/b.json"],
      (∀ d ∈ (linked out).housing (directory "/w/a.ts"), (linked out).file? d = none) ∧
        absolute "/w" "/w/a.ts" ∉ (linked out).housing (directory "/w/a.ts") ∧
          (linked out).isDirectory (absolute "/w" "/w/a.ts") = false := by decide
  have hboth : ∀ out ∈ ["/w/gen/b.json", "/w/x:gen/b.json"],
      absolute "/w" "/w/a.ts" ∉ (linked out).housing (directory out) ∧
        absolute "/w" out ∉ (linked out).housing (directory "/w/a.ts") ∧
          absolute "/w" "/w/a.ts" ≠ absolute "/w" out := by decide
  exact fun out hout => ⟨⟨(hlisting out hout).1, (hlisting out hout).2.1, (hlisting out hout).2.2⟩,
    ⟨(htypes out hout).1, (htypes out hout).2.1, (htypes out hout).2.2⟩, hboth out hout⟩

theorem makeDirectory_linked {out : String} (hroom : oddFiles.HasRoom (listing out).out) :
    oddFiles.makeDirectory (listing out).directory = .ok (linked out) :=
  FileSystem.makeDirectory_eq_ok_iff.mpr ⟨hroom.free, rfl⟩

/-- The directory of the declarations is there. -/
theorem reaches_types {t : Target} {kind : ArtifactKind} {fs : FileSystem}
    (hgrows : oddFiles.Grows fs) (hout : t.out = "/w/a.ts") :
    t.ReachesWithout kind fs (fs.housing t.directory) := by
  have hthere : ∀ d ∈ oddFiles.housing (directory "/w/a.ts"), oddFiles.isDirectory d = true := by
    decide
  intro path _ d _ hd
  rw [hgrows.housing_eq, Target.directory, hout] at hd
  exact hgrows.directories d (hthere d hd)

/-- The listing can be made wherever the description has been left alone. -/
theorem exists_text_listing {out : String} {fs : FileSystem} (hgrows : oddFiles.Grows fs)
    (hfile : fs.file? "/w/openapi.yaml" = oddFiles.file? "/w/openapi.yaml") :
    ∃ text, (listing out).text .manifest fs = .ok text := by
  obtain ⟨doc, -, -, hdoc, -⟩ := exists_types
  have hdocument : ((listing out).document fs).toOption = (oddTypes.document oddFiles).toOption :=
    toOption_document_of_grows rfl rfl rfl rfl hgrows hfile
  rw [hdoc] at hdocument
  refine ⟨(listing out).manifest doc, ?_⟩
  rw [Target.text, toOption_eq_some_iff.mp hdocument]
  rfl

/-- An order of moves in which both outputs are made. -/
theorem exists_finished {out text : String} (hout : out ∈ ["/w/gen/b.json", "/w/x:gen/b.json"])
    (htext : oddTypes.text .declarations (linked out) = .ok text) :
    ∃ s, Reachable (outputs out).get oddFiles s ∧ (∀ i, s.courses i = .underway .finished) ∧
      s.fs.file? (absolute oddFiles.workingDirectory oddTypes.out) = some text := by
  obtain ⟨hroom, hroom', hdirectory, hdirectory', hne⟩ := room_outputs out hout
  have hlinked := makeDirectory_linked hroom
  have hgrows := FileSystem.grows_of_makeDirectory hlinked
  have hrooted : isAbsolutePath oddFiles.workingDirectory = true := by decide
  have hlisting : (listing out).Commandless := ⟨rfl, rfl⟩
  have htypes : oddTypes.Commandless := ⟨rfl, rfl⟩
  have hreached : oddTypes.ReachesWithout .declarations (linked out)
      ((linked out).housing oddTypes.directory) := reaches_types hgrows rfl
  have hother (last : FileSystem) (hgains : (linked out).Gains last oddTypes.out text) :
      ∃ source, (listing out).text .manifest last = .ok source := by
    have hspec : "/w/openapi.yaml" ≠ absolute (linked out).workingDirectory oddTypes.out := by
      change "/w/openapi.yaml" ≠ absolute "/w" "/w/a.ts"
      decide
    refine exists_text_listing (hgrows.trans hgains.grows) ?_
    rw [hgains.file?_eq, if_neg hspec, FileSystem.file?_of_makeDirectory hlinked]
  exact exists_finished_between hlisting htypes (ArtifactKind.ofName?_name .manifest)
    (ArtifactKind.ofName?_name .declarations) hrooted hlinked hroom hroom' hreached htext hdirectory
    hdirectory' hne hother

theorem texts_oddTypes :
    ∃ alone both, oddTypes.text .declarations oddFiles = .ok alone ∧
      oddTypes.text .declarations (linked "/w/x:gen/b.json") = .ok both ∧ alone ≠ both := by
  obtain ⟨hroom, -⟩ := room_outputs "/w/x:gen/b.json" (by decide)
  have hlinked := makeDirectory_linked hroom
  obtain ⟨doc, alone, both, hdoc, -, halone, hboth, hne⟩ := exists_types
  have hbanner : oddTypes.banner ≠ "" := by decide
  have hdocument : (oddTypes.document (linked "/w/x:gen/b.json")).toOption =
      (oddTypes.document oddFiles).toOption :=
    toOption_document_of_grows rfl rfl rfl rfl (FileSystem.grows_of_makeDirectory hlinked)
      (congrFun (FileSystem.file?_of_makeDirectory hlinked) _)
  rw [hdoc] at hdocument
  refine ⟨_, _, Target.text_eq_ok hdoc halone (render_oddFiles hbanner _ _),
    Target.text_eq_ok (toOption_eq_some_iff.mp hdocument) hboth (render_oddFiles hbanner _ _),
    fun heq => hne ?_⟩
  exact (String.append_right_inj _).mp heq

theorem separate_outputs : Separate (outputs "/w/gen/b.json").get oddFiles where
  toApart := apart_outputs (by decide)
  steady i := by
    have hplain : ∀ t ∈ outputs "/w/gen/b.json", t.banner ≠ "\x7b\x7b uuidv4 \x7d\x7d" := by decide
    exact steady_oddFiles (hplain _ (List.get_mem ..))
  reached i kind _ j path huses d hd hmade := by
    have hway : ∀ path ∈ ["/w/openapi.yaml", "x:gen/../common.yaml"],
        ∀ d ∈ FileSystem.above (oddFiles.fromRoot path),
          oddFiles.isDirectory d = true ∨ d = "/w/x:gen" := by decide
    have hgen : ∀ t ∈ outputs "/w/gen/b.json", "/w/x:gen" ∉ oddFiles.housing t.directory := by
      decide
    obtain ⟨hspec, hinclude, hexclude⟩ := description_outputs (List.get_mem _ i)
    have hpath : path ∈ ["/w/openapi.yaml", "x:gen/../common.yaml"] := by
      simpa using uses_oddFiles hspec hinclude hexclude huses
    refine (hway path hpath d hd).resolve_right ?_
    rintro rfl
    exact hgen _ (List.get_mem ..) hmade

/-- An output whose description is not there. -/
def lost : Target := types "/w/none.yaml"

theorem document_lost : (lost.document oddFiles).toOption = none := by decide

theorem separate_lost : Separate [lost].get oddFiles where
  toApart := by
    have hpath : absolute "/w" lost.spec ≠ absolute "/w" lost.out := by decide
    refine apart_get (by decide) ?_ ?_ (List.nodup_singleton _) fun t ht kind path huses u hu => ?_
    · exact List.forall_mem_singleton.mpr ⟨.declarations, rfl⟩
    · exact List.forall_mem_singleton.mpr ⟨rfl, rfl⟩
    · cases List.mem_singleton.mp ht
      cases List.mem_singleton.mp hu
      rw [uses_of_unread document_lost huses]
      exact hpath
  steady i := by
    have hplain : ∀ t ∈ [lost], t.banner ≠ "\x7b\x7b uuidv4 \x7d\x7d" := by decide
    exact steady_oddFiles (hplain _ (List.get_mem ..))
  reached i kind _ j path huses d hd hmade := by
    have hway : ∀ t ∈ [lost], ∀ u ∈ [lost], ∀ d ∈ FileSystem.above (oddFiles.fromRoot t.spec),
      d ∈ oddFiles.housing u.directory → oddFiles.isDirectory d = true := by decide
    have hget : [lost].get i = lost := List.mem_singleton.mp (List.get_mem ..)
    have hpath : path = ([lost].get i).spec := by
      rw [hget] at huses ⊢
      exact uses_of_unread document_lost huses
    rw [hpath] at hd
    exact hway _ (List.get_mem ..) _ (List.get_mem ..) d hd hmade

theorem exists_failed :
    ∃ s, Reachable [lost].get oddFiles s ∧ ∃ e, s.courses 0 = .failed e := by
  have hfree : ∀ d ∈ oddFiles.housing lost.directory, oddFiles.file? d = none := by decide
  obtain ⟨housed, hhoused⟩ : ∃ housed, oddFiles.makeDirectory lost.directory = .ok housed :=
    ⟨_, FileSystem.makeDirectory_eq_ok_iff.mpr ⟨hfree, rfl⟩⟩
  have htext : (lost.text .declarations housed).toOption = none := by
    have hreached : lost.ReachesWithout .declarations oddFiles (oddFiles.housing lost.directory) :=
      separate_lost.reached 0 .declarations rfl 0
    rw [Target.toOption_text_of_makeDirectory hhoused hreached, Target.text, toOption_bind,
      document_lost, Option.bind_none]
  cases hfailed : lost.text .declarations housed with
  | ok text =>
    rw [hfailed] at htext
    cases htext
  | error e =>
    have hinitial : Reachable [lost].get oddFiles (.initial oddFiles) := .initial
    obtain ⟨s, hreachable, hcourse⟩ :=
      reachable_failure (separate_lost.commandless 0) rfl hinitial rfl hhoused hfailed
    exact ⟨s, hreachable, e, hcourse⟩

theorem schedule_independent_outputs :
    (∃ s, Reachable (outputs "/w/gen/b.json").get oddFiles s ∧
      ∀ i, ∃ alone text, Work.exec ((outputs "/w/gen/b.json").get i).generate oddFiles =
        (.ok (), alone) ∧
          alone.file? (absolute "/w" ((outputs "/w/gen/b.json").get i).out) = some text ∧
            s.fs.file? (absolute "/w" ((outputs "/w/gen/b.json").get i).out) = some text) ∧
    (∃ s e, Reachable [lost].get oddFiles s ∧ s.courses 0 = .failed e ∧
      s.fs.file? (absolute "/w" lost.out) = oddFiles.file? (absolute "/w" lost.out)) ∧
    ∃ e, Work.exec (Generation.carryOut { targets := [{ type := "swift", out := "/w/a" }] } "")
      oddFiles = (.error e, oddFiles) := by
  obtain ⟨hindependent, hunfit⟩ := schedule_independent
  have hout : "/w/gen/b.json" ∈ ["/w/gen/b.json", "/w/x:gen/b.json"] := by decide
  have hlinked := makeDirectory_linked (room_outputs _ hout).1
  obtain ⟨text, -, htext, -⟩ := texts_oddTypes
  have hreached : oddTypes.ReachesWithout .declarations oddFiles
      (oddFiles.housing (listing "/w/gen/b.json").directory) :=
    separate_outputs.reached (1 : Fin 2) .declarations rfl (0 : Fin 2)
  have htext' : oddTypes.text .declarations (linked "/w/gen/b.json") = .ok text := by
    rw [← toOption_eq_some_iff, Target.toOption_text_of_makeDirectory hlinked hreached,
      toOption_eq_some_iff]
    exact htext
  obtain ⟨s, hreachable, hfinished, -⟩ := exists_finished hout htext'
  obtain ⟨s', hreachable', e, hfailed⟩ := exists_failed
  refine ⟨⟨s, hreachable, (hindependent _ _ separate_outputs s hreachable).1 hfinished⟩,
    ⟨s', e, hreachable', hfailed,
      (hindependent _ _ separate_lost s' hreachable').2 0 (.inl ⟨e, hfailed⟩)⟩, ?_⟩
  exact hunfit _ _ _ (.inl ⟨_, List.mem_singleton_self _, rfl, rfl⟩)

/-- In some order of moves the file of an output gets another text than it does if the output is
made alone. -/
def DependsOnOrder (targets : List Target) (start : FileSystem) : Prop :=
  ∃ s i alone, Reachable targets.get start s ∧ (∀ j, s.courses j = .underway .finished) ∧
    Work.exec (targets.get i).generate start = (.ok (), alone) ∧
      alone.file? (absolute start.workingDirectory (targets.get i).out) ≠
        s.fs.file? (absolute start.workingDirectory (targets.get i).out)

/-- Declarations under a banner that is a random name. -/
def drawn : Target := { oddTypes with banner := "\x7b\x7b uuidv4 \x7d\x7d" }

/-- At each moment the declarations get another name. -/
theorem texts_drawn :
    ∃ body, ∀ fs, drawn.SameSources .declarations oddFiles fs → fs.engine = oddFiles.engine →
      drawn.text .declarations fs =
        .ok (Banner.endLine (draw fs.moment drawn.banner) ++ "\n" ++ body) := by
  obtain ⟨doc, alone, -, hdoc, -, halone, -⟩ := exists_types
  refine ⟨alone.text, fun fs hsame hengine => ?_⟩
  have hdocument : (drawn.document fs).toOption = (oddTypes.document oddFiles).toOption :=
    Target.toOption_document rfl rfl
      (toOption_readLocation hsame.web fun hfile => hsame.files _ (.description hfile))
  rw [hdoc] at hdocument
  have hbanner : drawn.banner ≠ "" := by decide
  refine Target.text_eq_ok (toOption_eq_some_iff.mp hdocument) ?_ ?_
  · rw [Target.generate_request hsame hdoc]
    exact halone
  · rw [hengine]
    exact render_oddFiles hbanner _ _

theorem room_oddTypes : oddFiles.HasRoom oddTypes.out := by
  have hfree : ∀ d ∈ oddFiles.housing (directory "/w/a.ts"), oddFiles.file? d = none := by decide
  exact ⟨hfree, by decide, by decide⟩

/-- Declarations of which the text is known are made alone. -/
theorem exists_alone {t : Target} {text : String} (hcommandless : t.Commandless)
    (hkind : ArtifactKind.ofName? t.type = some .declarations) (hout : t.out = oddTypes.out)
    (htext : t.text .declarations oddFiles = .ok text) :
    ∃ alone, Work.exec t.generate oddFiles = (.ok (), alone) ∧
      alone.file? (absolute oddFiles.workingDirectory t.out) = some text := by
  have hrooted : isAbsolutePath oddFiles.workingDirectory = true := by decide
  obtain ⟨alone, halone, hgains⟩ := Target.exists_generate hcommandless hkind hrooted
    (hout ▸ room_oddTypes) (reaches_types (.refl oddFiles) hout) htext
  exact ⟨alone, halone, (hgains.file?_eq _).trans (if_pos rfl)⟩

theorem dependsOnOrder_outputs : DependsOnOrder (outputs "/w/x:gen/b.json") oddFiles := by
  obtain ⟨text, text', htext, htext', hne⟩ := texts_oddTypes
  obtain ⟨s, hreachable, hfinished, hfile⟩ := exists_finished (by decide) htext'
  obtain ⟨alone, halone, hfile'⟩ := exists_alone (t := oddTypes) ⟨rfl, rfl⟩
    (ArtifactKind.ofName?_name .declarations) rfl htext
  refine ⟨s, (1 : Fin 2), alone, hreachable, hfinished, halone, fun heq => hne ?_⟩
  exact Option.some.inj (hfile'.symm.trans (heq.trans hfile))

theorem dependsOnOrder_drawn : DependsOnOrder [drawn] oddFiles := by
  obtain ⟨body, hbody⟩ := texts_drawn
  have hdrawn : drawn.Commandless := ⟨rfl, rfl⟩
  have hkind : ArtifactKind.ofName? drawn.type = some .declarations :=
    ArtifactKind.ofName?_name .declarations
  have hroom : oddFiles.HasRoom drawn.out := room_oddTypes
  have hrooted : isAbsolutePath oddFiles.workingDirectory = true := by decide
  obtain ⟨housed, hhoused⟩ := hroom.exists_makeDirectory
  have hgrows := FileSystem.grows_of_makeDirectory hhoused
  have hsame : drawn.SameSources .declarations oddFiles housed :=
    Target.sameSources_of_makeDirectory hhoused (reaches_types (.refl oddFiles) rfl)
  have hhouse : Work.exec (drawn.advance .declarations 1 .waiting) oddFiles =
      (.ok .housed, housed) :=
    (Target.exec_advance_eq_ok_iff hdrawn).mpr ⟨_, _, .house hhoused, rfl⟩
  have hinitial : Reachable [drawn].get oddFiles (.initial oddFiles) := .initial
  obtain ⟨s, hreachable, rfl, hcourse, -⟩ :=
    reachable_advance (i := (0 : Fin 1)) hdrawn hkind hinitial rfl hhouse
  obtain ⟨s', hreachable', hgains, hfinished, -⟩ :=
    reachable_finish (i := (0 : Fin 1)) 1 hdrawn hkind hreachable hcourse
      (hgrows.workingDirectory ▸ hrooted) (hroom.makeDirectory hhoused)
      (hbody { s.fs with moment := 1 } ⟨hsame.files, hsame.web⟩ hgrows.engine)
  obtain ⟨alone, halone, hfile⟩ := exists_alone hdrawn hkind rfl
    (hbody oddFiles ⟨fun _ _ => rfl, rfl⟩ rfl)
  refine ⟨s', (0 : Fin 1), alone, hreachable', fun i => ?_, halone, fun heq => ?_⟩
  · match i with
    | 0 => exact hfinished
  · have hfile' := (hgains.file?_eq _).trans (if_pos rfl)
    rw [hgrows.workingDirectory] at hfile'
    have hnames := (String.append_left_inj body).mp
      (Option.some.inj (hfile.symm.trans (heq.trans hfile')))
    have hne : Banner.endLine (draw 0 drawn.banner) ++ "\n" ≠
        Banner.endLine (draw 1 drawn.banner) ++ "\n" := by decide
    exact hne hnames

theorem apart_drawn : Apart [drawn].get oddFiles := by
  refine apart_get (by decide) ?_ ?_ (List.nodup_singleton _) fun t ht kind path huses u hu => ?_
  · exact List.forall_mem_singleton.mpr ⟨.declarations, rfl⟩
  · exact List.forall_mem_singleton.mpr ⟨rfl, rfl⟩
  · cases List.mem_singleton.mp ht
    cases List.mem_singleton.mp hu
    exact absolute_path_ne rfl rfl rfl (by decide) huses

/-- A directory that is made for one output can show a file to another: its reference, which leads
nowhere when it is made alone, is then followed. And a banner that draws a random name gets another
one each time. -/
theorem schedule_matters :
    (Apart (outputs "/w/x:gen/b.json").get oddFiles ∧
      (∀ t ∈ outputs "/w/x:gen/b.json", Steady oddFiles.engine t.banner) ∧
        DependsOnOrder (outputs "/w/x:gen/b.json") oddFiles) ∧
    Apart [drawn].get oddFiles ∧
      drawn.ReachesWithout .declarations oddFiles (oddFiles.housing drawn.directory) ∧
        DependsOnOrder [drawn] oddFiles := by
  have hplain : ∀ t ∈ outputs "/w/x:gen/b.json", t.banner ≠ "\x7b\x7b uuidv4 \x7d\x7d" := by
    decide
  exact ⟨⟨apart_outputs (by decide), fun t ht => steady_oddFiles (hplain t ht),
    dependsOnOrder_outputs⟩, apart_drawn, reaches_types (.refl oddFiles) rfl, dependsOnOrder_drawn⟩

end Interleaving

end ApiTypes
