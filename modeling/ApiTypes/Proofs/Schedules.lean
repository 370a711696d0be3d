import ApiTypes.Proofs.Making

/-!
Several outputs in the making at a time. A move takes one output a stage further; the text of an
output is made from files that are read at any moments up to then, each at one. What a move does to
the file system is told by `Advances`. Where the outputs are separate, every move keeps `Sound`,
which says what has become of every output so far.
-/

namespace ApiTypes

open Location

namespace Interleaving

/-- Where the making of one output stands. -/
inductive Course where
  | underway (stage : Stage)
  | failed (cause : TargetError)
  /-- Given up because another output has failed. -/
  | cancelled

/-- How a course goes on after a stage. -/
def Course.after : Except TargetError Stage → Course
  | .ok stage => .underway stage
  | .error e => .failed e

/-- Outputs in the making, and the file systems that there have been, with the present one. -/
structure State (ι : Type) where
  fs : FileSystem
  past : List FileSystem
  courses : ι → Course

variable {ι : Type} {targets : ι → Target} {start view : FileSystem} {s next : State ι}

/-- All outputs are to be made. -/
def State.initial (start : FileSystem) : State ι := ⟨start, [start], fun _ => .underway .waiting⟩

/-- Whether files may have been read like this, each at some moment up to now. The clock may show
any moment, and any random numbers may have been drawn. -/
structure State.Shows (s : State ι) (view : FileSystem) : Prop where
  workingDirectory : view.workingDirectory = s.fs.workingDirectory
  web : view.web = s.fs.web
  engine : view.engine = s.fs.engine
  text? : ∀ path, ∃ moment ∈ s.past, view.text? path = moment.text? path

section

variable [DecidableEq ι]

def State.course (s : State ι) (i : ι) (c : Course) : State ι :=
  { s with courses := Function.update s.courses i c }

def State.changeTo (s : State ι) (fs : FileSystem) : State ι :=
  { s with fs, past := fs :: s.past }

theorem State.courses_course (s : State ι) (i : ι) (c : Course) :
    (s.course i c).courses i = c :=
  Function.update_self ..

theorem State.courses_course_of_ne {i j : ι} (h : j ≠ i) (s : State ι) (c : Course) :
    (s.course i c).courses j = s.courses j :=
  Function.update_of_ne h ..

/-- One output goes on. -/
inductive Move (targets : ι → Target) : State ι → State ι → Prop
  /-- A stage that reads nothing. -/
  | act {s : State ι} {i : ι} {kind : ArtifactKind} {stage : Stage} :
    ArtifactKind.ofName? (targets i).type = some kind → s.courses i = .underway stage →
      stage ≠ .ready →
        Move targets s ((s.changeTo (Work.exec ((targets i).step kind stage) s.fs).2).course i
          (.after (Work.exec ((targets i).step kind stage) s.fs).1))
  /-- The stage that makes the text. -/
  | read {s : State ι} {i : ι} {kind : ArtifactKind} {view : FileSystem} :
    ArtifactKind.ofName? (targets i).type = some kind → s.courses i = .underway .ready →
      s.Shows view →
        Move targets s (s.course i (.after (Work.exec ((targets i).step kind .ready) view).1))
  | refuse {s : State ι} {i : ι} :
    ArtifactKind.ofName? (targets i).type = none → s.courses i = .underway .waiting →
      Move targets s (s.course i (.failed (.unsupported (targets i).type)))
  /-- A failure stops outputs whose text is not made yet. -/
  | cancel {s : State ι} {i j : ι} {e : TargetError} :
    s.courses j = .failed e → s.courses i = .underway .ready →
      Move targets s (s.course i .cancelled)

/-- What can become of outputs, whatever the order of moves. -/
inductive Reachable (targets : ι → Target) (start : FileSystem) : State ι → Prop
  | initial : Reachable targets start (.initial start)
  | move {s next : State ι} : Reachable targets start s → Move targets s next →
      Reachable targets start next

end

/-- Whether what is made of the template of a banner depends on its data alone, as for the standard
one: it neither tells the time nor draws random numbers. -/
def Steady (engine : Nat → Template.Engine) (source : String) : Prop :=
  ∀ moment moment' data,
    Banner.render (engine moment) source data = Banner.render (engine moment') source data

/-- The outputs are of known kinds and need no commands, write different files, and are made from
files that none of them writes. -/
structure Apart (targets : ι → Target) (start : FileSystem) : Prop where
  rooted : isAbsolutePath start.workingDirectory = true
  known : ∀ i, ∃ kind, ArtifactKind.ofName? (targets i).type = some kind
  commandless : ∀ i, (targets i).Commandless
  distinct : ∀ i j, absolute start.workingDirectory (targets i).out =
    absolute start.workingDirectory (targets j).out → i = j
  unread : ∀ i kind path, ArtifactKind.ofName? (targets i).type = some kind →
    (targets i).Uses kind start path → ∀ j, absolute start.workingDirectory path ≠
      absolute start.workingDirectory (targets j).out

/-- Besides, the banners are steady, and the files that the outputs are made from are reached
without the directories that are made for them. -/
structure Separate (targets : ι → Target) (start : FileSystem) : Prop
    extends Apart targets start where
  steady : ∀ i, Steady start.engine (targets i).banner
  reached : ∀ i kind, ArtifactKind.ofName? (targets i).type = some kind →
    ∀ j, (targets i).ReachesWithout kind start (start.housing (targets j).directory)

/-! ### What is the same at every moment -/

/-- A file system that the making of the outputs leads to from the start. -/
structure Follows (targets : ι → Target) (start fs : FileSystem) : Prop where
  grows : start.Grows fs
  files : ∀ path, (∀ i, path ≠ absolute start.workingDirectory (targets i).out) →
    fs.file? path = start.file? path
  directories : ∀ d, fs.isDirectory d = true →
    start.isDirectory d = true ∨ ∃ i, d ∈ start.housing (targets i).directory

theorem Follows.refl (targets : ι → Target) (start : FileSystem) : Follows targets start start where
  grows := .refl start
  files _ _ := rfl
  directories _ hd := .inl hd

theorem Follows.advance {fs after : FileSystem} {i : ι} {kind : ArtifactKind} {stage stage' : Stage}
    (h : Follows targets start fs) (hadvances : (targets i).Advances kind stage fs stage' after) :
    Follows targets start after where
  grows := h.grows.trans hadvances.grows
  files path hpath := by
    rw [hadvances.file?_eq, h.files path hpath]
    rw [h.grows.workingDirectory]
    exact hpath i
  directories d hd := by
    rcases hadvances.isDirectory hd with hhoused | hbefore
    · rw [h.grows.housing_eq] at hhoused
      exact .inr ⟨i, hhoused⟩
    · exact h.directories d hbefore

/-- The files that an output is made from read at every moment as at the start. -/
theorem Follows.text?_eq {fs : FileSystem} {i : ι} {kind : ArtifactKind} {path : String}
    (h : Follows targets start fs) (hseparate : Separate targets start)
    (hkind : ArtifactKind.ofName? (targets i).type = some kind)
    (huses : (targets i).Uses kind start path) : fs.text? path = start.text? path := by
  refine h.grows.text?_eq (h.files _ (hseparate.unread i kind path hkind huses)) fun d hd hfs => ?_
  rcases h.directories d hfs with hstart | ⟨j, hhoused⟩
  · exact hstart
  · exact hseparate.reached i kind hkind j path huses d hd hhoused

/-- Whatever the moments are at which the files are read, the text is that from the start. -/
theorem toOption_text_of_shows {i : ι} {kind : ArtifactKind} (hseparate : Separate targets start)
    (hpresent : s.fs ∈ s.past) (hpast : ∀ moment ∈ s.past, Follows targets start moment)
    (hshows : s.Shows view) (hkind : ArtifactKind.ofName? (targets i).type = some kind) :
    ((targets i).text kind view).toOption = ((targets i).text kind start).toOption := by
  have hgrows := (hpast _ hpresent).grows
  refine Target.toOption_text ⟨fun path huses => ?_, hshows.web.trans hgrows.web⟩ fun data => ?_
  · obtain ⟨moment, hmoment, hview⟩ := hshows.text? path
    rw [hview]
    exact (hpast moment hmoment).text?_eq hseparate hkind huses
  · rw [hshows.engine, hgrows.engine]
    exact hseparate.steady i view.moment start.moment data

/-! ### What has become of an output -/

/-- The file of an output is as it was at the start. -/
def Untouched (t : Target) (start fs : FileSystem) : Prop :=
  fs.file? (absolute start.workingDirectory t.out) =
    start.file? (absolute start.workingDirectory t.out)

/-- The directory of an output is there, and could be made at the start. -/
structure Housed (t : Target) (start fs : FileSystem) : Prop where
  free : ∀ d ∈ start.housing t.directory, start.file? d = none
  there : ∀ d ∈ start.housing t.directory, fs.isDirectory d = true

/-- An output has a text at the start. -/
def Makes (t : Target) (start : FileSystem) (text : String) : Prop :=
  ∃ kind, ArtifactKind.ofName? t.type = some kind ∧ t.text kind start = .ok text

/-- The file of an output holds its text, and there was room for it at the start. -/
structure Written (t : Target) (start fs : FileSystem) : Prop where
  room : start.HasRoom t.out
  holds : ∃ text, Makes t start text ∧
    fs.file? (absolute start.workingDirectory t.out) = some text

/-- What has become of an output that stands at a point of its course. -/
def Accounts (t : Target) (start fs : FileSystem) : Course → Prop
  | .underway .waiting | .failed _ | .cancelled => Untouched t start fs
  | .underway .housed | .underway .ready => Untouched t start fs ∧ Housed t start fs
  | .underway (.rendered text) | .underway (.placed text) =>
    Untouched t start fs ∧ Housed t start fs ∧ Makes t start text
  | .underway .written | .underway .finished => Written t start fs

section

variable {t : Target} {fs after : FileSystem} {kind : ArtifactKind} {stage stage' : Stage}

theorem Housed.mono (h : Housed t start fs)
    (hdirectories : ∀ d, fs.isDirectory d = true → after.isDirectory d = true) :
    Housed t start after :=
  ⟨h.free, fun d hd => hdirectories d (h.there d hd)⟩

/-- What others do, which leaves the file alone and takes no directory away, changes nothing. -/
theorem Accounts.transfer {c : Course} (h : Accounts t start fs c)
    (hfile : after.file? (absolute start.workingDirectory t.out) =
      fs.file? (absolute start.workingDirectory t.out))
    (hdirectories : ∀ d, fs.isDirectory d = true → after.isDirectory d = true) :
    Accounts t start after c := by
  have huntouched (h : Untouched t start fs) : Untouched t start after := hfile.trans h
  have hwritten (h : Written t start fs) : Written t start after :=
    { h with holds := by rw [hfile]; exact h.holds }
  cases c with
  | failed e => exact huntouched h
  | cancelled => exact huntouched h
  | underway stage =>
    cases stage with
    | waiting => exact huntouched h
    | housed => exact ⟨huntouched h.1, h.2.mono hdirectories⟩
    | ready => exact ⟨huntouched h.1, h.2.mono hdirectories⟩
    | rendered text => exact ⟨huntouched h.1, h.2.1.mono hdirectories, h.2.2⟩
    | placed text => exact ⟨huntouched h.1, h.2.1.mono hdirectories, h.2.2⟩
    | written => exact hwritten h
    | finished => exact hwritten h

theorem housed_of_makeDirectory (hgrows : start.Grows fs)
    (hmade : fs.makeDirectory t.directory = .ok after) : Housed t start after where
  free d hd := by
    rw [← hgrows.housing_eq] at hd
    have hnone := (FileSystem.makeDirectory_eq_ok_iff.mp hmade).1 d hd
    exact not_not.mp fun hsome => hgrows.files d hsome hnone
  there d hd := by
    rw [← hgrows.housing_eq] at hd
    exact (FileSystem.isDirectory_of_makeDirectory hmade d).mpr (.inl hd)

/-- A stage that reads nothing takes an output from what had become of it to what becomes next. -/
theorem Accounts.advance (h : Accounts t start fs (.underway stage)) (hgrows : start.Grows fs)
    (hstage : stage ≠ .ready) (hadvances : t.Advances kind stage fs stage' after) :
    Accounts t start after (.underway stage') := by
  cases hadvances with
  | house hmade =>
    refine ⟨?_, housed_of_makeDirectory hgrows hmade⟩
    rw [Untouched, FileSystem.file?_of_makeDirectory hmade]
    exact h
  | prepare => exact h
  | render => exact absurd rfl hstage
  | place hmade =>
    obtain ⟨huntouched, -, hmakes⟩ := h
    refine ⟨?_, housed_of_makeDirectory hgrows hmade, hmakes⟩
    rw [Untouched, FileSystem.file?_of_makeDirectory hmade]
    exact huntouched
  | write hwritten =>
    obtain ⟨-, hhoused, hmakes⟩ := h
    have hclear := (FileSystem.write_eq_ok_iff.mp hwritten).2.1
    rw [hgrows.workingDirectory] at hclear
    refine ⟨⟨hhoused.free, fun hmem => ?_, ?_⟩, _, hmakes, ?_⟩
    · rw [hhoused.there _ hmem] at hclear
      cases hclear
    · refine Bool.eq_false_iff.mpr fun hdirectory => ?_
      rw [hgrows.directories _ hdirectory] at hclear
      cases hclear
    · rw [FileSystem.file?_of_write hwritten, hgrows.workingDirectory, if_pos rfl]
  | finish => exact h
  | rest => exact h

/-- An output that has not got to its file has left it alone. -/
theorem Accounts.untouched (h : Accounts t start fs (.underway stage)) (hwritten : stage ≠ .written)
    (hfinished : stage ≠ .finished) : Untouched t start fs := by
  cases stage with
  | waiting => exact h
  | housed | ready | rendered | placed => exact h.1
  | written => exact absurd rfl hwritten
  | finished => exact absurd rfl hfinished

end

/-! ### What every order of moves keeps -/

/-- What holds whatever the order of moves has been. -/
structure Sound (targets : ι → Target) (start : FileSystem) (s : State ι) : Prop where
  present : s.fs ∈ s.past
  past : ∀ moment ∈ s.past, Follows targets start moment
  accounts : ∀ i, Accounts (targets i) start s.fs (s.courses i)

theorem sound_initial (targets : ι → Target) (start : FileSystem) :
    Sound targets start (.initial start) where
  present := List.mem_singleton_self start
  past moment hmoment := by
    rw [List.mem_singleton.mp hmoment]
    exact .refl targets start
  accounts _ := rfl

section

variable [DecidableEq ι] {i : ι} {kind : ArtifactKind} {stage stage' : Stage}

omit [DecidableEq ι] in
/-- Only an output that has not got to its file can fail. -/
theorem untouched_of_error {t : Target} {fs after : FileSystem} {e : TargetError}
    (hcommandless : t.Commandless) (h : Accounts t start fs (.underway stage))
    (hrun : Work.exec (t.step kind stage) fs = (.error e, after)) : Untouched t start fs := by
  rw [Target.exec_step hcommandless] at hrun
  refine h.untouched ?_ ?_
  · rintro rfl
    cases hrun
  · rintro rfl
    cases hrun

theorem Sound.course {c : Course} (h : Sound targets start s)
    (hc : Accounts (targets i) start s.fs c) : Sound targets start (s.course i c) where
  present := h.present
  past := h.past
  accounts j := by
    by_cases hj : j = i
    · rw [hj, State.courses_course]
      exact hc
    · rw [State.courses_course_of_ne hj]
      exact h.accounts j

/-- A stage of one output that reads nothing keeps what holds, of this output and the others. -/
theorem Sound.advance {after : FileSystem} (hseparate : Separate targets start)
    (h : Sound targets start s) (hcourse : s.courses i = .underway stage) (hstage : stage ≠ .ready)
    (hadvances : (targets i).Advances kind stage s.fs stage' after) :
    Sound targets start ((s.changeTo after).course i (.underway stage')) where
  present := List.mem_cons_self
  past moment hmoment := by
    rcases List.mem_cons.mp hmoment with rfl | hbefore
    · exact (h.past _ h.present).advance hadvances
    · exact h.past moment hbefore
  accounts j := by
    have hgrows := (h.past _ h.present).grows
    have hj := h.accounts j
    by_cases hsame : j = i
    · rw [hsame, hcourse] at hj
      rw [hsame, State.courses_course]
      exact hj.advance hgrows hstage hadvances
    · have hfile : absolute start.workingDirectory (targets j).out ≠
          absolute s.fs.workingDirectory (targets i).out := by
        rw [hgrows.workingDirectory]
        exact fun heq => hsame (hseparate.distinct j i heq)
      rw [State.courses_course_of_ne hsame]
      exact hj.transfer (hadvances.file?_eq hfile) hadvances.grows.directories

/-- A failure changes nothing. -/
theorem Sound.fail {e : TargetError} (h : Sound targets start s)
    (huntouched : Untouched (targets i) start s.fs) :
    Sound targets start ((s.changeTo s.fs).course i (.failed e)) := by
  refine Sound.course ⟨List.mem_cons_self, fun moment hmoment => ?_, h.accounts⟩ huntouched
  rcases List.mem_cons.mp hmoment with rfl | hbefore
  · exact h.past _ h.present
  · exact h.past moment hbefore

/-- An output whose text is made at the moments that it is read at has the text from the start. -/
theorem Sound.read (hseparate : Separate targets start) (h : Sound targets start s)
    (hkind : ArtifactKind.ofName? (targets i).type = some kind)
    (hcourse : s.courses i = .underway .ready) (hshows : s.Shows view) :
    Sound targets start
      (s.course i (.after (Work.exec ((targets i).step kind .ready) view).1)) := by
  have haccounts := h.accounts i
  rw [hcourse] at haccounts
  obtain ⟨huntouched, hhoused⟩ := haccounts
  refine h.course ?_
  cases hrun : Work.exec ((targets i).step kind .ready) view with
  | mk outcome after =>
    cases outcome with
    | error e => exact huntouched
    | ok stage' =>
      have hadvances := (Target.exec_step_eq_ok_iff (hseparate.commandless i)).mp hrun
      cases hadvances with
      | render htext =>
        have hstart := toOption_text_of_shows hseparate h.present h.past hshows hkind
        rw [toOption_eq_some_iff.mpr htext] at hstart
        exact ⟨huntouched, hhoused, kind, hkind, toOption_eq_some_iff.mp hstart.symm⟩

/-- Every move keeps what holds. -/
theorem sound_move (hseparate : Separate targets start) (h : Sound targets start s)
    (hmove : Move targets s next) : Sound targets start next := by
  cases hmove with
  | @act i kind stage hkind hcourse hstage =>
    cases hrun : Work.exec ((targets i).step kind stage) s.fs with
    | mk outcome after =>
      cases outcome with
      | ok stage' =>
        have hadvances := (Target.exec_step_eq_ok_iff (hseparate.commandless i)).mp hrun
        exact h.advance hseparate hcourse hstage hadvances
      | error e =>
        have haccounts := h.accounts i
        rw [hcourse] at haccounts
        have hsame : after = s.fs := Target.exec_step_error (hseparate.commandless i) hrun
        subst hsame
        exact h.fail (untouched_of_error (hseparate.commandless i) haccounts hrun)
  | read hkind hcourse hshows => exact h.read hseparate hkind hcourse hshows
  | @refuse i hunknown hcourse =>
    have haccounts := h.accounts i
    rw [hcourse] at haccounts
    exact h.course haccounts
  | @cancel i j e hfailed hcourse =>
    have haccounts := h.accounts i
    rw [hcourse] at haccounts
    exact h.course haccounts.1

theorem present_of_reachable (h : Reachable targets start s) : s.fs ∈ s.past := by
  induction h with
  | initial => exact List.mem_singleton_self start
  | move _ hmove ih =>
    cases hmove with
    | act => exact List.mem_cons_self
    | read | refuse | cancel => exact ih

theorem sound_of_reachable (hseparate : Separate targets start)
    (h : Reachable targets start s) : Sound targets start s := by
  induction h with
  | initial => exact sound_initial targets start
  | move _ hmove ih => exact sound_move hseparate ih hmove

end

end Interleaving

end ApiTypes
