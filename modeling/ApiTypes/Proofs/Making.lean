import ApiTypes.Generation.Basic
import ApiTypes.Proofs.FileAccess

/-!
The making of an output, stage by stage. `Advances` is what a stage that succeeds does to the file
system; a stage that fails leaves the file system as it was. All stages in a row make the directory,
make the text, and write it.
-/

namespace ApiTypes

namespace Work

variable {ε ε' α β : Type} {fs last : FileSystem}

/-- The outcome of work on a file system, and the file system after it. -/
def exec (act : Work ε α) (fs : FileSystem) : Except ε α × FileSystem := act.run.run fs

theorem exec_pure (x : α) (fs : FileSystem) : exec (pure x : Work ε α) fs = (.ok x, fs) := rfl

theorem exec_get (fs : FileSystem) : exec (get : Work ε FileSystem) fs = (.ok fs, fs) := rfl

theorem exec_bind (act : Work ε α) (next : α → Work ε β) (fs : FileSystem) :
    exec (act >>= next) fs =
      match exec act fs with
      | (.ok x, after) => exec (next x) after
      | (.error e, after) => (.error e, after) := by
  unfold exec
  rw [ExceptT.run_bind, StateT.run_bind]
  cases hrun : act.run.run fs with
  | mk result after => cases result <;> rfl

theorem exec_bind_eq_ok_iff {act : Work ε α} {next : α → Work ε β} {y : β} :
    exec (act >>= next) fs = (.ok y, last) ↔
      ∃ x after, exec act fs = (.ok x, after) ∧ exec (next x) after = (.ok y, last) := by
  rw [exec_bind]
  constructor
  · intro h
    split at h
    next x after hact => exact ⟨x, after, hact, h⟩
    next => cases h
  · rintro ⟨x, after, hact, hnext⟩
    rw [hact]
    exact hnext

/-- A change, and a result if it succeeds. -/
theorem exec_change (act : FileSystem → Except ε FileSystem) (f : ε → ε') (x : α)
    (fs : FileSystem) :
    exec (do change fun fs => (act fs).mapError f; return x) fs =
      match act fs with
      | .ok next => (.ok x, next)
      | .error e => (.error (f e), fs) := by
  unfold change
  rw [exec_bind, exec_bind, exec_get]
  dsimp only
  cases act fs <;> rfl

theorem exec_discard_eq_ok_iff {act : Work ε α} {x : Unit} :
    exec (discard act) fs = (.ok x, last) ↔ ∃ y, exec act fs = (.ok y, last) := by
  change exec ((fun _ => ()) <$> act) fs = _ ↔ _
  rw [← bind_pure_comp, exec_bind_eq_ok_iff]
  constructor
  · rintro ⟨y, after, hact, hafter⟩
    cases hafter
    exact ⟨y, hact⟩
  · rintro ⟨y, hact⟩
    exact ⟨y, last, hact, rfl⟩

theorem exec_look (act : FileSystem → Except ε α) (fs : FileSystem) :
    exec (look act) fs = (act fs, fs) := by
  unfold look
  rw [exec_bind, exec_get]
  dsimp only
  cases act fs <;> rfl

theorem exec_adapt (f : ε → ε') (act : Work ε α) (fs : FileSystem) :
    exec (ExceptT.adapt f act) fs = ((exec act fs).1.mapError f, (exec act fs).2) := by
  unfold exec ExceptT.adapt
  rw [ExceptT.run_mk, StateT.run_map]
  rfl

end Work

namespace Target

open Work

/-- No command runs before or after the making of an output. -/
structure Commandless (t : Target) : Prop where
  pre : t.preCommand.getD [] = []
  post : t.postCommand.getD [] = []

/-- What a stage of an output that needs no command does when it succeeds. -/
inductive Advances (t : Target) (kind : ArtifactKind) :
    Stage → FileSystem → Stage → FileSystem → Prop
  | house {fs next : FileSystem} : fs.makeDirectory t.directory = .ok next →
      Advances t kind .waiting fs .housed next
  | prepare {fs : FileSystem} : Advances t kind .housed fs .ready fs
  | render {fs : FileSystem} {text : String} : t.text kind fs = .ok text →
      Advances t kind .ready fs (.rendered text) fs
  | place {fs next : FileSystem} {text : String} : fs.makeDirectory t.directory = .ok next →
      Advances t kind (.rendered text) fs (.placed text) next
  | write {fs next : FileSystem} {text : String} : fs.write t.out text = .ok next →
      Advances t kind (.placed text) fs .written next
  | finish {fs : FileSystem} : Advances t kind .written fs .finished fs
  | rest {fs : FileSystem} : Advances t kind .finished fs .finished fs

variable {t : Target} {kind : ArtifactKind} {stage after : Stage} {fs next : FileSystem}

theorem exec_command_nil (failed : List String → CommandFault → TargetError) :
    exec (t.command [] failed) fs = (.ok (), fs) := rfl

/-- What a stage does, in all cases. -/
theorem exec_step (h : t.Commandless) (stage : Stage) (fs : FileSystem) :
    exec (t.step kind stage) fs =
      match stage with
      | .waiting =>
        match fs.makeDirectory t.directory with
        | .ok next => (.ok .housed, next)
        | .error e => (.error (.directory e), fs)
      | .housed => (.ok .ready, fs)
      | .ready =>
        match t.text kind fs with
        | .ok text => (.ok (.rendered text), fs)
        | .error e => (.error e, fs)
      | .rendered text =>
        match fs.makeDirectory t.directory with
        | .ok next => (.ok (.placed text), next)
        | .error e => (.error (.place e), fs)
      | .placed text =>
        match fs.write t.out text with
        | .ok next => (.ok .written, next)
        | .error e => (.error (.write t.out e), fs)
      | .written => (.ok .finished, fs)
      | .finished => (.ok .finished, fs) := by
  cases stage with
  | waiting =>
    rw [step, exec_change]
    dsimp only
    cases fs.makeDirectory t.directory <;> rfl
  | housed =>
    rw [step, h.pre, exec_bind, exec_command_nil]
    dsimp only
    rw [exec_pure]
  | ready =>
    rw [step, exec_bind, exec_look]
    cases t.text kind fs with
    | ok text => dsimp only; rw [exec_pure]
    | error e => dsimp only
  | rendered text =>
    rw [step, exec_change]
    dsimp only
    cases fs.makeDirectory t.directory <;> rfl
  | placed text =>
    rw [step, exec_change]
    dsimp only
    cases fs.write t.out text <;> rfl
  | written =>
    rw [step, h.post, exec_bind, exec_command_nil]
    dsimp only
    rw [exec_pure]
  | finished => rfl

theorem exec_step_eq_ok_iff (h : t.Commandless) :
    exec (t.step kind stage) fs = (.ok after, next) ↔ t.Advances kind stage fs after next := by
  rw [exec_step h]
  constructor
  · intro hrun
    split at hrun
    · split at hrun
      · rename_i hmade
        cases hrun
        exact .house hmade
      · cases hrun
    · cases hrun
      exact .prepare
    · split at hrun
      · rename_i htext
        cases hrun
        exact .render htext
      · cases hrun
    · split at hrun
      · rename_i hmade
        cases hrun
        exact .place hmade
      · cases hrun
    · split at hrun
      · rename_i hwritten
        cases hrun
        exact .write hwritten
      · cases hrun
    · cases hrun
      exact .finish
    · cases hrun
      exact .rest
  · intro hadvances
    cases hadvances with
    | house hmade => simp only [hmade]
    | prepare => rfl
    | render htext => simp only [htext]
    | place hmade => simp only [hmade]
    | write hwritten => simp only [hwritten]
    | finish => rfl
    | rest => rfl

theorem Advances.grows (h : t.Advances kind stage fs after next) : fs.Grows next := by
  cases h with
  | house hmade => exact FileSystem.grows_of_makeDirectory hmade
  | place hmade => exact FileSystem.grows_of_makeDirectory hmade
  | write hwritten => exact FileSystem.grows_of_write hwritten
  | prepare | render | finish | rest => exact FileSystem.Grows.refl fs

/-- The only file that a stage changes is that of the output. -/
theorem Advances.file?_eq (h : t.Advances kind stage fs after next) {path : String}
    (hpath : path ≠ Location.absolute fs.workingDirectory t.out) :
    next.file? path = fs.file? path := by
  cases h with
  | house hmade => rw [FileSystem.file?_of_makeDirectory hmade]
  | place hmade => rw [FileSystem.file?_of_makeDirectory hmade]
  | write hwritten => rw [FileSystem.file?_of_write hwritten, if_neg hpath]
  | prepare | render | finish | rest => rfl

/-- The only directories that a stage makes are those that house the output. -/
theorem Advances.isDirectory (h : t.Advances kind stage fs after next) {d : String}
    (hd : next.isDirectory d = true) :
    d ∈ fs.housing t.directory ∨ fs.isDirectory d = true := by
  cases h with
  | house hmade => exact (FileSystem.isDirectory_of_makeDirectory hmade d).mp hd
  | place hmade => exact (FileSystem.isDirectory_of_makeDirectory hmade d).mp hd
  | write hwritten =>
    rw [FileSystem.isDirectory_of_write hwritten] at hd
    exact .inr hd
  | prepare | render | finish | rest => exact .inr hd

/-- A stage that fails leaves the file system as it was. -/
theorem exec_step_error (h : t.Commandless) {e : TargetError}
    (hrun : exec (t.step kind stage) fs = (.error e, next)) : next = fs := by
  rw [exec_step h] at hrun
  split at hrun
  · split at hrun
    · cases hrun
    · exact (Prod.mk.inj hrun).2.symm
  · cases hrun
  · split at hrun
    · cases hrun
    · exact (Prod.mk.inj hrun).2.symm
  · split at hrun
    · cases hrun
    · exact (Prod.mk.inj hrun).2.symm
  · split at hrun
    · cases hrun
    · exact (Prod.mk.inj hrun).2.symm
  · cases hrun
  · cases hrun

theorem exec_advance_eq_ok_iff (h : t.Commandless) {n : Nat} {final : Stage}
    {last : FileSystem} :
    exec (t.advance kind (n + 1) stage) fs = (.ok final, last) ↔
      ∃ after next, t.Advances kind stage fs after next ∧
        exec (t.advance kind n after) next = (.ok final, last) := by
  rw [advance, exec_bind_eq_ok_iff]
  simp only [exec_step_eq_ok_iff h]

/-- All stages in a row make the directory of an output, then its text, and then, in a directory
that is sure to be there, its file. -/
theorem exec_advance_stepCount_eq_ok_iff (h : t.Commandless) {final : Stage} {last : FileSystem} :
    exec (t.advance kind stepCount .waiting) fs = (.ok final, last) ↔
      final = .finished ∧
        ∃ housed text placed, fs.makeDirectory t.directory = .ok housed ∧
          t.text kind housed = .ok text ∧ housed.makeDirectory t.directory = .ok placed ∧
            placed.write t.out text = .ok last := by
  unfold stepCount
  constructor
  · intro hrun
    obtain ⟨_, housed, ⟨hhoused⟩, hrun⟩ := (exec_advance_eq_ok_iff h).mp hrun
    obtain ⟨_, _, ⟨⟩, hrun⟩ := (exec_advance_eq_ok_iff h).mp hrun
    obtain ⟨_, _, htext, hrun⟩ := (exec_advance_eq_ok_iff h).mp hrun
    cases htext with | render htext => ?_
    obtain ⟨_, placed, hplaced, hrun⟩ := (exec_advance_eq_ok_iff h).mp hrun
    cases hplaced with | place hplaced => ?_
    obtain ⟨_, written, hwritten, hrun⟩ := (exec_advance_eq_ok_iff h).mp hrun
    cases hwritten with | write hwritten => ?_
    obtain ⟨_, _, ⟨⟩, hrun⟩ := (exec_advance_eq_ok_iff h).mp hrun
    rw [advance, exec_pure] at hrun
    cases hrun
    exact ⟨rfl, housed, _, placed, hhoused, htext, hplaced, hwritten⟩
  · rintro ⟨rfl, housed, text, placed, hhoused, htext, hplaced, hwritten⟩
    refine (exec_advance_eq_ok_iff h).mpr ⟨_, _, .house hhoused, ?_⟩
    refine (exec_advance_eq_ok_iff h).mpr ⟨_, _, .prepare, ?_⟩
    refine (exec_advance_eq_ok_iff h).mpr ⟨_, _, .render htext, ?_⟩
    refine (exec_advance_eq_ok_iff h).mpr ⟨_, _, .place hplaced, ?_⟩
    refine (exec_advance_eq_ok_iff h).mpr ⟨_, _, .write hwritten, ?_⟩
    refine (exec_advance_eq_ok_iff h).mpr ⟨_, _, .finish, ?_⟩
    rw [advance, exec_pure]

theorem exec_generate (hkind : ArtifactKind.ofName? t.type = some kind) {last : FileSystem} :
    exec t.generate fs = (.ok (), last) ↔
      ∃ final, exec (t.advance kind stepCount .waiting) fs = (.ok final, last) := by
  rw [generate, hkind]
  exact exec_discard_eq_ok_iff

theorem exec_generate_eq_ok_iff (h : t.Commandless)
    (hkind : ArtifactKind.ofName? t.type = some kind) {last : FileSystem} :
    exec t.generate fs = (.ok (), last) ↔
      ∃ housed text placed, fs.makeDirectory t.directory = .ok housed ∧
        t.text kind housed = .ok text ∧ housed.makeDirectory t.directory = .ok placed ∧
          placed.write t.out text = .ok last := by
  simp only [exec_generate hkind, exec_advance_stepCount_eq_ok_iff h, exists_eq_left]

/-- Whether the files that an output is made from are reached without the given directories, as far
as these are not there. -/
def ReachesWithout (t : Target) (kind : ArtifactKind) (fs : FileSystem) (made : List String) :
    Prop :=
  ∀ path, t.Uses kind fs path → ∀ d ∈ FileSystem.above (fs.fromRoot path), d ∈ made →
    fs.isDirectory d = true

/-- An output is made from the same files after directories are made that these are reached
without. -/
theorem sameSources_of_makeDirectory {path : String} (hmade : fs.makeDirectory path = .ok next)
    (h : t.ReachesWithout kind fs (fs.housing path)) : t.SameSources kind fs next := by
  have hgrows := FileSystem.grows_of_makeDirectory hmade
  refine ⟨fun used huses => hgrows.text?_eq ?_ fun d hd hnext => ?_, hgrows.web⟩
  · rw [FileSystem.file?_of_makeDirectory hmade]
  · rcases (FileSystem.isDirectory_of_makeDirectory hmade d).mp hnext with hhoused | hdirectory
    · exact h used huses d hd hhoused
    · exact hdirectory

/-- So its text stays the same. -/
theorem toOption_text_of_makeDirectory {path : String}
    (hmade : fs.makeDirectory path = .ok next)
    (h : t.ReachesWithout kind fs (fs.housing path)) :
    (t.text kind next).toOption = (t.text kind fs).toOption := by
  have hgrows := FileSystem.grows_of_makeDirectory hmade
  refine toOption_text (sameSources_of_makeDirectory hmade h) fun data => ?_
  rw [hgrows.engine, hgrows.moment]

/-- An output is made if its text is, and there is room for its file. -/
theorem exists_generate {text : String} (h : t.Commandless)
    (hkind : ArtifactKind.ofName? t.type = some kind)
    (hrooted : Location.isAbsolutePath fs.workingDirectory = true) (hroom : fs.HasRoom t.out)
    (hreached : t.ReachesWithout kind fs (fs.housing t.directory))
    (htext : t.text kind fs = .ok text) :
    ∃ last, exec t.generate fs = (.ok (), last) ∧ fs.Gains last t.out text := by
  obtain ⟨housed, hhoused⟩ := hroom.exists_makeDirectory
  have hroot := (FileSystem.grows_of_makeDirectory hhoused).workingDirectory
  obtain ⟨placed, last, hplaced, hlast, hgains⟩ :=
    (hroom.makeDirectory hhoused).exists_place (hroot ▸ hrooted) text
  have hhere : t.text kind housed = .ok text := by
    rw [← toOption_eq_some_iff, toOption_text_of_makeDirectory hhoused hreached,
      toOption_eq_some_iff]
    exact htext
  exact ⟨last, (exec_generate_eq_ok_iff h hkind).mpr
    ⟨housed, text, placed, hhoused, hhere, hplaced, hlast⟩, hgains.of_makeDirectory hhoused⟩

end Target

namespace Generation

open Work

variable {only : String} {targets wanted : List Target} {fs last : FileSystem}

theorem selection_eq_ok_iff :
    selection only targets = .ok wanted ↔
      wanted = targets.filter (wants only) ∧
        (∀ t ∈ wanted, (ArtifactKind.ofName? t.type).isSome = true) ∧
          (only ≠ "" → wanted ≠ []) := by
  unfold selection
  generalize targets.filter (wants only) = chosen
  dsimp only
  split
  next t hfound =>
    have hmem := List.mem_of_find?_eq_some hfound
    have hunknown := List.find?_some hfound
    refine iff_of_false nofun ?_
    rintro ⟨rfl, hknown, -⟩
    have hsome := hknown t hmem
    rw [Option.isNone_iff_eq_none.mp hunknown] at hsome
    cases hsome
  next hnone =>
    have hknown : ∀ t ∈ chosen, (ArtifactKind.ofName? t.type).isSome = true := by
      intro t ht
      simpa [Option.ne_none_iff_isSome] using List.find?_eq_none.mp hnone t ht
    split
    next hempty =>
      refine iff_of_false nofun ?_
      rintro ⟨rfl, -, hsome⟩
      simp only [ne_eq, decide_not, Bool.and_eq_true, Bool.not_eq_true', decide_eq_false_iff_not,
        List.isEmpty_iff] at hempty
      exact hsome hempty.1 hempty.2
    next hsome =>
      constructor
      · rintro ⟨⟩
        refine ⟨rfl, hknown, fun honly hempty => hsome ?_⟩
        simp [honly, hempty]
      · rintro ⟨rfl, -, -⟩
        rfl

/-- Nothing is changed unless all outputs that are wanted can be made. -/
theorem exec_carryOut_error {c : Config} {e : GenerationError}
    (h : selection only c.targets = .error e) :
    exec (carryOut c only) fs = (.error e, fs) := by
  rw [carryOut, exec_bind, exec_look, h]

theorem exec_carryOut {c : Config} (h : selection only c.targets = .ok wanted) :
    exec (carryOut c only) fs = exec (generateAll wanted) fs := by
  rw [carryOut, exec_bind, exec_look, h]

theorem exec_generateAll_cons_eq_ok_iff {t : Target} :
    exec (generateAll (t :: targets)) fs = (.ok (), last) ↔
      ∃ after, exec t.generate fs = (.ok (), after) ∧
        exec (generateAll targets) after = (.ok (), last) := by
  rw [generateAll, exec_bind_eq_ok_iff]
  constructor
  · rintro ⟨_, after, hfirst, hrest⟩
    rw [exec_adapt] at hfirst
    obtain ⟨hresult, hafter⟩ := Prod.mk.inj hfirst
    exact ⟨after, Prod.ext (mapError_eq_ok_iff.mp hresult) hafter, hrest⟩
  · rintro ⟨after, hfirst, hrest⟩
    refine ⟨(), after, ?_, hrest⟩
    rw [exec_adapt, hfirst]
    rfl

end Generation

end ApiTypes
