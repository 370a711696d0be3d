import ApiTypes.Proofs.DeclaredOperations
import ApiTypes.Proofs.Typing.Emissions

/-!
Operation ids that are strict. Where ids are strict, what is made of a document is what is made of
it otherwise, unless two of the operations that are emitted have one id at different places. Then
the failure names the first operation whose id is in use, and the one that uses it.
-/

namespace ApiTypes

/-- Two declarations have one id at different places. -/
def Declaration.Clash (d d' : Declaration) : Prop :=
  d.id = d'.id ∧ (d.place ≠ d'.place ∨ d.method ≠ d'.method)

namespace Typing

/-- The request with operation ids that are strict, or not. -/
def Request.strictly (request : Request) (strict : Bool) : Request :=
  { request with options := { request.options with strictOperationIds := strict } }

/-- What is made of a document fails because two operations have one id. -/
def FailsAt (doc : Document) (request : Request) (earlier later : OperationEntry) : Prop :=
  generate doc request = .error (.typing (.duplicateOperationId earlier later))

/-- How the outcome with strict ids belongs to the one without, and both to a log of the operations
that are declared. -/
structure IdsAgree (doc : Document) (request : Request) (log : List OperationEntry) : Prop where
  /-- The log holds the operations that are emitted and have an id, up to where the run ends. -/
  upTo : log.map (·.declaration) <+: declarations (emissions request.options doc)
  all : ∀ output, generate doc (request.strictly false) = .ok output →
    log.map (·.declaration) = declarations (emissions request.options doc)
  registered : doc.checkVersion = .ok () →
    (runOn (documentDecls doc) doc (request.strictly false)).2.operations =
      OperationRegistry.registerAll .empty log
  fails_iff : (∃ earlier later, FailsAt doc (request.strictly true) earlier later) ↔
    ∃ d ∈ log.map (·.declaration), ∃ d' ∈ log.map (·.declaration), d.Clash d'
  /-- The failure names the first operation whose id is in use, and the one that uses it. -/
  names : ∀ earlier later, FailsAt doc (request.strictly true) earlier later →
    OperationRegistry.FirstClash log earlier later
  same : (∀ earlier later, ¬ FailsAt doc (request.strictly true) earlier later) →
    generate doc (request.strictly true) = generate doc (request.strictly false)
  quiet : ∀ output, generate doc (request.strictly true) = .ok output →
    ∀ warning ∈ output.warnings, warning.kind ≠ .duplicateOperationId

theorem exists_clash_iff {log : List OperationEntry} :
    (∃ d ∈ log.map (·.declaration), ∃ d' ∈ log.map (·.declaration), d.Clash d') ↔
      OperationRegistry.clash? .empty log ≠ none := by
  rw [Ne, OperationRegistry.clash?_eq_none_iff, OperationRegistry.clashFree_iff]
  constructor
  · rintro ⟨_, hd, _, hd', hclash⟩ hfree
    obtain ⟨e, he, rfl⟩ := List.mem_map.mp hd
    obtain ⟨e', he', rfl⟩ := List.mem_map.mp hd'
    exact hfree e he e' he' hclash
  · intro hclash
    push Not at hclash
    obtain ⟨e, he, e', he', hclash⟩ := hclash
    exact ⟨_, List.mem_map_of_mem he, _, List.mem_map_of_mem he', hclash⟩

/-- A document of no supported version fails before any operation is declared. -/
theorem idsAgree_of_version {doc : Document} {request : Request} {e : DocumentError}
    (hversion : doc.checkVersion = .error e) : IdsAgree doc request [] := by
  have hfails (strict : Bool) : generate doc (request.strictly strict) = .error (.version e) := by
    rw [generate_eq, hversion]
  constructor
  case upTo => exact List.nil_prefix
  case all =>
    intro output hok
    rw [hfails] at hok
    cases hok
  case registered =>
    intro hok
    rw [hversion] at hok
    cases hok
  case fails_iff => simp [FailsAt, hfails]
  case names =>
    intro earlier later hclash
    rw [FailsAt, hfails] at hclash
    cases hclash
  case same => exact fun _ => by rw [hfails, hfails]
  case quiet =>
    intro output hok
    rw [hfails] at hok
    cases hok

/-- Without external references, strict ids make a difference only where two operations that are
emitted have one id at different places. -/
theorem generate_ids_agree {doc : Document} {options : Options}
    {external : Option ExternalResolver}
    (hlocal : ∀ item ∈ doc.pathItems, Reference.isExternal item.ref = false) :
    ∃ log, IdsAgree doc { options, external } log := by
  generalize hrequest : ({ options, external } : Request) = request
  have hrelaxed (earlier later : OperationEntry) :
      ¬ FailsAt doc (request.strictly false) earlier later := by
    subst hrequest
    exact fun hfails => Bool.false_ne_true (cause_of_generate hfails)
  cases hversion : doc.checkVersion with
  | error e => exact ⟨[], idsAgree_of_version hversion⟩
  | ok _ =>
    obtain ⟨log, hlog⟩ := (documentDecls_declares (σ := settingOf doc request) hlocal).declared
      (startOf doc request)
    have hgenerate (strict : Bool) : generate doc (request.strictly strict) = outcome
        (exec (documentDecls doc) (strictly (settingOf doc request) strict)
          (startOf doc request)) := generate_of_version hversion
    have hrelaxedRun : runOn (documentDecls doc) doc (request.strictly false) =
        exec (documentDecls doc) (strictly (settingOf doc request) false) (startOf doc request) :=
      runOn_eq (documentDecls doc) doc (request.strictly false)
    have hoptions : (settingOf doc request).options = request.options := rfl
    have hfails_iff (earlier later : OperationEntry) :
        FailsAt doc (request.strictly true) earlier later ↔
          OperationRegistry.clash? .empty log = some (earlier, later) := by
      rw [FailsAt, hgenerate, outcome_error_iff]
      cases hclash : OperationRegistry.clash? .empty log with
      | none =>
        -- Without a clash this is a failure of the other run, which has none of this kind.
        rw [hlog.same hclash, ← outcome_error_iff, ← hgenerate]
        exact ⟨fun h => absurd h (hrelaxed earlier later), nofun⟩
      | some pair =>
        rw [hlog.stops pair.1 pair.2 hclash]
        simp [Prod.ext_iff]
    have hclash_of_same (h : ∀ earlier later, ¬ FailsAt doc (request.strictly true) earlier later) :
        OperationRegistry.clash? .empty log = none :=
      Option.eq_none_iff_forall_ne_some.mpr fun pair hpair =>
        h pair.1 pair.2 ((hfails_iff pair.1 pair.2).mpr hpair)
    refine ⟨log, ?_⟩
    constructor
    case upTo => exact hlog.upTo
    case all =>
      intro output hok
      rw [hgenerate] at hok
      obtain ⟨decls, hdecls, -⟩ := outcome_ok hok
      exact hlog.all decls hdecls
    case registered =>
      rw [hrelaxedRun]
      exact fun _ => hlog.operations
    case fails_iff =>
      rw [exists_clash_iff, Option.ne_none_iff_exists']
      simp only [hfails_iff, Prod.exists]
    case names =>
      exact fun earlier later hfails =>
        OperationRegistry.clash?_eq_some_iff.mp ((hfails_iff earlier later).mp hfails)
    case same =>
      intro hsame
      rw [hgenerate, hgenerate, hlog.same (hclash_of_same hsame)]
    case quiet =>
      intro output hok warning hwarning hkind
      have hnone := hclash_of_same fun earlier later hfails => by
        rw [FailsAt, hok] at hfails
        cases hfails
      rw [hgenerate, hlog.same hnone] at hok
      obtain ⟨decls, -, rfl⟩ := outcome_ok hok
      exact List.not_mem_nil (hlog.quiet hnone warning hwarning hkind)

/-- Two paths of a shop have operations with one id. -/
theorem generate_ids_agree_shop :
    (∀ item ∈ shopDocument.pathItems, Reference.isExternal item.ref = false) ∧
      ∃ log, IdsAgree shopDocument {} log ∧
        ∃ earlier later, FailsAt shopDocument (Request.strictly {} true) earlier later ∧
          OperationRegistry.FirstClash log earlier later := by
  have hlocal : ∀ item ∈ shopDocument.pathItems, Reference.isExternal item.ref = false := by
    decide +kernel
  obtain ⟨log, hlog⟩ := @generate_ids_agree shopDocument {} none hlocal
  obtain ⟨output, hok, -⟩ := @exists_output shopDocument (Request.strictly {} false)
    (fun _ => True) _ (by decide +kernel)
  have hclash : ∃ d ∈ log.map (·.declaration), ∃ d' ∈ log.map (·.declaration), d.Clash d' := by
    rw [hlog.all output hok]
    exact ⟨⟨"list", "#/paths/~1orders", "get"⟩, by decide +kernel,
      ⟨"list", "#/paths/~1items", "get"⟩, by decide, rfl, .inl (by decide)⟩
  obtain ⟨earlier, later, hfails⟩ := hlog.fails_iff.mpr hclash
  exact ⟨hlocal, log, hlog, earlier, later, hfails, hlog.names earlier later hfails⟩

end Typing

end ApiTypes
