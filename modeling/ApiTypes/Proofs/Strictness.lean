import ApiTypes.Proofs.Names
import ApiTypes.Proofs.Typing.Lockstep
import Mathlib

/-!
The silent mode and the strict one. In silent mode nothing fails but an array whose bounds no tuple
can have, given that no alternative of a schema is null and that operations may repeat an id. The
strict mode gives the same as the silent one if that reports no dangling reference, and otherwise
fails with the first one that it reports.
-/

namespace ApiTypes.Typing

/-- The request in silent mode, or in strict mode. -/
def Request.silenced (request : Request) (silent : Bool) : Request :=
  { request with options := { request.options with silent } }

/-- Whatever the hooks are, what is made in strict mode follows what is made in silent mode. -/
theorem generate_follows (doc : Document) (request : Request) :
    match generate doc (request.silenced true) with
    | .ok output =>
      firstUnresolved output.warnings = none ∧
          generate doc (request.silenced false) = .ok output ∨
        ∃ ref place, firstUnresolved output.warnings = some (unresolvedWarning ref place) ∧
          generate doc (request.silenced false) = .error (.typing (.unresolvedRef ref place))
    | .error _ => ∀ output, generate doc (request.silenced false) ≠ .ok output := by
  obtain ⟨added, hadded, hfollows⟩ :=
    (documentDecls_lockstep doc).follows (settingOf doc request) (startOf doc request)
  rw [generate_eq, generate_eq]
  cases doc.checkVersion with
  | error e => exact nofun
  | ok _ =>
    change Follows added
      (exec _ (settingOf doc (request.silenced true)) (startOf doc (request.silenced true)))
      (exec _ (settingOf doc (request.silenced false)) (startOf doc (request.silenced false)))
      at hfollows
    change (exec _ (settingOf doc (request.silenced true))
      (startOf doc (request.silenced true))).2.warnings = [] ++ added at hadded
    dsimp only
    cases hsilent : exec (documentDecls doc) (settingOf doc (request.silenced true))
        (startOf doc (request.silenced true)) with
    | mk result q =>
      cases hstrict : exec (documentDecls doc) (settingOf doc (request.silenced false))
          (startOf doc (request.silenced false)) with
      | mk strictResult q' =>
        rw [hsilent] at hadded hfollows
        rw [hstrict] at hfollows
        rw [List.nil_append] at hadded
        subst hadded
        cases hfollows with
        | same hnone hsame =>
          cases hsame
          cases result with
          | error e => exact nofun
          | ok decls => exact .inl ⟨hnone, rfl⟩
        | stops hfirst hfails =>
          cases hfails
          cases result with
          | error e => exact nofun
          | ok decls => exact .inr ⟨_, _, hfirst, rfl⟩

/-- How the outcomes of the two modes belong together. -/
structure ModesAgree (w : Source) (options : Options) (silent strict : Except Failure Output) :
    Prop where
  /-- In silent mode only bounds that no tuple can have fail, and references that lead on without
  end. -/
  silent_error : ∀ e, silent = .error e →
    e = .typing .oversizedTuple ∧ options.arrayLength = true ∧
        (∃ s, w.Reaches (.schema s) ∧ s.Oversized) ∨
      e = .typing .exhausted ∧ ¬ w.Bounded
  strict_eq : ∀ output, silent = .ok output → firstUnresolved output.warnings = none →
    strict = .ok output
  strict_error : ∀ output warning, silent = .ok output →
    firstUnresolved output.warnings = some warning →
      ∃ ref place, warning = unresolvedWarning ref place ∧
        strict = .error (.typing (.unresolvedRef ref place))
  silent_eq : ∀ output, strict = .ok output →
    silent = .ok output ∧ firstUnresolved output.warnings = none

/-- For a document of a supported version, without nulls among alternatives, the two modes agree. -/
theorem generate_modes_agree {doc : Document} {options : Options}
    {external : Option ExternalResolver} (hversion : doc.checkVersion = .ok ())
    (hids : options.strictOperationIds = false)
    (halternatives : ∀ s, Source.Reaches ⟨doc, external⟩ (.schema s) → none ∉ s.oneOf.getD []) :
    ModesAgree ⟨doc, external⟩ options
      (generate doc (Request.silenced { options, external } true))
      (generate doc (Request.silenced { options, external } false)) := by
  have hfollows := generate_follows doc { options, external }
  cases hsilent : generate doc (Request.silenced { options, external } true) with
  | ok output =>
    rw [hsilent] at hfollows
    constructor
    case silent_error => exact nofun
    case strict_eq =>
      rintro _ ⟨⟩ hnone
      rcases hfollows with ⟨-, hstrict⟩ | ⟨ref, place, hfirst, -⟩
      · exact hstrict
      · rw [hnone] at hfirst
        cases hfirst
    case strict_error =>
      rintro _ warning ⟨⟩ hwarning
      rcases hfollows with ⟨hnone, -⟩ | ⟨ref, place, hfirst, hstrict⟩
      · rw [hnone] at hwarning
        cases hwarning
      · rw [hfirst] at hwarning
        cases hwarning
        exact ⟨ref, place, rfl, hstrict⟩
    case silent_eq =>
      intro output' hok
      rcases hfollows with ⟨hnone, hstrict⟩ | ⟨ref, place, -, hstrict⟩
      · rw [hok] at hstrict
        cases hstrict
        exact ⟨rfl, hnone⟩
      · rw [hok] at hstrict
        cases hstrict
  | error e =>
    rw [hsilent] at hfollows
    constructor
    case silent_error =>
      rintro _ ⟨⟩
      cases e with
      | version e =>
        have hfails := version_of_generate hsilent
        rw [hversion] at hfails
        cases hfails
      | typing e =>
        -- Dangling references are no cause in silent mode, and the conditions rule out all but two
        -- others.
        have houtcome := cause_of_generate hsilent
        cases e with
        | unresolvedRef ref place => cases houtcome
        | duplicateOperationId earlier later =>
          have hstrictIds : options.strictOperationIds = true := houtcome
          rw [hids] at hstrictIds
          cases hstrictIds
        | nullAlternative =>
          obtain ⟨s, hs, hnull⟩ := houtcome
          exact absurd hnull (halternatives s hs)
        | oversizedTuple => exact .inl ⟨rfl, houtcome⟩
        | exhausted => exact .inr ⟨rfl, houtcome⟩
    case strict_eq => exact nofun
    case strict_error => exact nofun
    case silent_eq => exact fun output hok => absurd hok (hfollows output)

theorem itemsDocument_alternatives {items : String} {maxItems : Option Int} (s : Schema)
    (hs : Source.Reaches ⟨itemsDocument items maxItems, none⟩ (.schema s)) :
    none ∉ s.oneOf.getD [] := by
  obtain ⟨_, ⟨⟩, -, -, hnone⟩ := reaches_itemsDocument hs
  rw [hnone]
  exact List.not_mem_nil

/-- Items with a dangling reference: reported in one mode, an error in the other. -/
theorem generate_modes_agree_dangling :
    ∃ output, generate (itemsDocument "#/components/schemas/Lost") (Request.silenced {} true) =
        .ok output ∧
      firstUnresolved output.warnings =
        some (unresolvedWarning "#/components/schemas/Lost" "#/components/schemas/List/items") ∧
      ModesAgree ⟨itemsDocument "#/components/schemas/Lost", none⟩ {}
        (generate (itemsDocument "#/components/schemas/Lost") (Request.silenced {} true))
        (generate (itemsDocument "#/components/schemas/Lost") (Request.silenced {} false)) := by
  obtain ⟨output, hrun, hfirst⟩ := @exists_output (itemsDocument "#/components/schemas/Lost")
    (Request.silenced {} true) (fun output => firstUnresolved output.warnings =
      some (unresolvedWarning "#/components/schemas/Lost" "#/components/schemas/List/items")) _
    (by decide +kernel)
  exact ⟨output, hrun, hfirst, generate_modes_agree rfl rfl itemsDocument_alternatives⟩

/-- With bounds so large that the number of elements overflows, nothing is made in silent mode. -/
theorem silent_fails_on_overflow :
    (∀ s, Source.Reaches ⟨itemsDocument "#/components/schemas/Kept" (some (2 ^ 63 - 1)), none⟩
      (.schema s) → none ∉ s.oneOf.getD []) ∧
    ¬ ∃ output, generate (itemsDocument "#/components/schemas/Kept" (some (2 ^ 63 - 1)))
      (Request.silenced { options := { arrayLength := true } } true) = .ok output := by
  refine ⟨itemsDocument_alternatives, ?_⟩
  rintro ⟨output, hok⟩
  have hfails : (generate (itemsDocument "#/components/schemas/Kept" (some (2 ^ 63 - 1)))
      (Request.silenced { options := { arrayLength := true } } true)).isOk = false := by
    decide +kernel
  rw [hok] at hfails
  cases hfails

end ApiTypes.Typing
