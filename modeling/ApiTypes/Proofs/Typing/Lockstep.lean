import ApiTypes.Proofs.Typing.DocumentJudgement

/-!
A strict run and a silent run of one action, from one state. A silent run reports a dangling
reference and goes on, a strict one fails at it. Up to there both do the same: if the silent run
reports no dangling reference, the strict run ends as it does, and otherwise the strict run fails
with the first reference that the silent one reports.

Nothing but the report of a dangling reference looks at the option, so this is a judgement that goes
from actions to the actions that are put together from them. It needs no condition on the state, the
document or the hooks.
-/

namespace ApiTypes.Typing

variable {α β : Type}

/-- The setting in which dangling references are reported, or in which they fail. -/
def silenced (σ : Setting) (silent : Bool) : Setting :=
  { σ with options := { σ.options with silent } }

/-- The report of a dangling reference. -/
def unresolvedWarning (ref place : String) : Warning :=
  ⟨.unresolvedRef, place, "can't resolve $ref " ++ Text.quoteDiagnostic ref ++ ", using unknown"⟩

/-- The first report of a dangling reference among some warnings. -/
def firstUnresolved (warnings : List Warning) : Option Warning :=
  warnings.find? fun warning => warning.kind = .unresolvedRef

theorem firstUnresolved_append (first second : List Warning) :
    firstUnresolved (first ++ second) = (firstUnresolved first).or (firstUnresolved second) :=
  List.find?_append

/-- How a strict run ends if the silent one ends as given after some warnings. -/
inductive Follows (added : List Warning) (silent strict : Except TypingError α × Progress) : Prop
    where
  | same : firstUnresolved added = none → strict = silent → Follows added silent strict
  | stops {ref place : String} : firstUnresolved added = some (unresolvedWarning ref place) →
    strict.1 = .error (.unresolvedRef ref place) → Follows added silent strict

/-- From every state, a strict run of the action follows the silent one, and what an action gives
satisfies `post`. -/
structure Lockstep (act : Typing α) (post : α → Prop) : Prop where
  follows : ∀ σ p, ∃ added,
    (exec act (silenced σ true) p).2.warnings = p.warnings ++ added ∧
      Follows added (exec act (silenced σ true) p) (exec act (silenced σ false) p)
  gives : ∀ σ, Gives σ act post

namespace Lockstep

variable {post : α → Prop}

/-- An action that does the same in both modes and reports no dangling reference. -/
theorem of_eq {act : Typing α}
    (hsame : ∀ σ p, exec act (silenced σ false) p = exec act (silenced σ true) p)
    (hwarnings : ∀ σ p, (exec act (silenced σ true) p).2.warnings = p.warnings)
    (hgives : ∀ σ, Gives σ act post) : Lockstep act post := by
  refine ⟨fun σ p => ⟨[], ?_, .same rfl (hsame σ p)⟩, hgives⟩
  rw [hwarnings, List.append_nil]

theorem warn {kind : WarningKind} (hkind : kind ≠ .unresolvedRef) (place message : String) :
    Lockstep (warn kind place message) fun _ => True := by
  refine ⟨fun σ p => ⟨[⟨kind, place, message⟩], rfl, .same ?_ rfl⟩, fun σ => .any _⟩
  simp [firstUnresolved, hkind]

/-- The one action that differs between the modes. -/
theorem unresolved (ref place : String) : Lockstep (unresolved ref place) fun _ => True :=
  ⟨fun _ _ => ⟨[unresolvedWarning ref place], rfl, .stops rfl rfl⟩, fun _ => .any _⟩

/-- Steps in turn: the strict run goes on only as long as it has done the same. -/
theorem bind {act : Typing α} {next : α → Typing β} {mid : α → Prop} {post : β → Prop}
    (hact : Lockstep act mid) (hnext : ∀ x, mid x → Lockstep (next x) post) :
    Lockstep (act >>= next) post := by
  refine ⟨fun σ p => ?_, fun σ => (hact.gives σ).bind fun x hx => (hnext x hx).gives σ⟩
  obtain ⟨added, hadded, hfollows⟩ := hact.follows σ p
  rw [exec_bind act next (silenced σ true)]
  cases hsilent : exec act (silenced σ true) p with
  | mk result q =>
    rw [hsilent] at hadded hfollows
    cases result with
    | error e =>
      cases hfollows with
      | same hnone hsame => exact ⟨added, hadded, .same hnone (by rw [exec_bind, hsame])⟩
      | stops hstop hfails => exact ⟨added, hadded, .stops hstop (exec_bind_error hfails)⟩
    | ok x =>
      obtain ⟨more, hmore, hrest⟩ := (hnext x ((hact.gives _).result p x q hsilent)).follows σ q
      refine ⟨added ++ more, by rw [hmore, hadded, List.append_assoc], ?_⟩
      cases hfollows with
      | same hnone hsame =>
        have hfirst : firstUnresolved (added ++ more) = firstUnresolved more := by
          rw [firstUnresolved_append, hnone, Option.none_or]
        rw [exec_bind, hsame]
        cases hrest with
        | same hmoreNone hrestSame => exact .same (hfirst.trans hmoreNone) hrestSame
        | stops hstop hfails => exact .stops (hfirst.trans hstop) hfails
      | stops hstop hfails =>
        -- The strict run is over. Whatever the silent one reports from here comes after the first.
        refine .stops ?_ (exec_bind_error hfails)
        rw [firstUnresolved_append, hstop, Option.some_or]

/-- What is read of the options does not depend on the mode. -/
theorem options_bind {next : Options → Typing β} {post : β → Prop}
    (hsame : ∀ o : Options, next { o with silent := false } = next { o with silent := true })
    (hnext : ∀ o, Lockstep (next o) post) : Lockstep (options >>= next) post := by
  refine ⟨fun σ p => ?_, fun σ => .options_bind ((hnext σ.options).gives σ)⟩
  have hmodes : next (silenced σ false).options = next (silenced σ true).options :=
    hsame σ.options
  have hstrict : exec (options >>= next) (silenced σ false) p =
      exec (next (silenced σ true).options) (silenced σ false) p := by
    rw [← hmodes]
    rfl
  rw [hstrict]
  exact (hnext (silenced σ true).options).follows σ p

theorem read_bind {next : Setting → Typing β} {post : β → Prop}
    (hsame : ∀ σ, next (silenced σ false) = next (silenced σ true))
    (hnext : ∀ σ, Lockstep (next σ) post) : Lockstep (read >>= next) post := by
  refine ⟨fun σ p => ?_, fun σ => .read_bind ((hnext σ).gives σ)⟩
  have hstrict : exec (read >>= next) (silenced σ false) p =
      exec (next (silenced σ true)) (silenced σ false) p := by
    rw [← hsame]
    rfl
  rw [hstrict]
  exact (hnext (silenced σ true)).follows σ p

theorem inliningRef {key : String} {act : Typing α} (hact : Lockstep act post) :
    Lockstep (inliningRef key act) post := by
  constructor
  case follows =>
    intro σ p
    obtain ⟨added, hadded, hfollows⟩ := hact.follows σ { p with inlining := key :: p.inlining }
    rw [exec_inliningRef, exec_inliningRef]
    refine ⟨added, hadded, ?_⟩
    cases hfollows with
    | same hnone hsame => exact .same hnone (by rw [hsame])
    | stops hstop hfails => exact .stops hstop hfails
  case gives => exact fun σ => (hact.gives σ).inliningRef

end Lockstep

/-- The judgement that strict runs follow the silent ones. -/
def lockstep : Judgement where
  Good _ := True
  closed := TypeExpr.closed_true
  Holds := Lockstep
  pure h := .of_eq (fun _ _ => rfl) (fun _ _ => rfl) fun _ => .pure h
  throw _ _ := .of_eq (fun _ _ => rfl) (fun _ _ => rfl) fun _ => .throw
  bind := .bind
  options_bind hsame := .options_bind fun o =>
    hsame o ⟨false, o.strictOperationIds⟩ ⟨true, o.strictOperationIds⟩
  read_bind hsame := .read_bind fun σ =>
    hsame σ ⟨false, σ.options.strictOperationIds⟩ ⟨true, σ.options.strictOperationIds⟩
  Known _ := True
  get_bind _ h := ⟨fun σ p => (h p trivial).follows σ p,
    fun σ => .get_bind fun p => (h p trivial).gives σ⟩
  hoisting _ _ _ := .of_eq (fun _ _ => rfl) (fun _ _ => rfl) fun _ => .any _
  requiring := .of_eq (fun _ _ => rfl) (fun _ _ => rfl) fun _ => .any _
  resolving _ := .of_eq (fun _ _ => rfl) (fun _ _ => rfl) fun _ => .any _
  inliningRef := .inliningRef
  warn hkind := .warn (by rintro rfl; exact absurd hkind (by decide))
  Naming := True
  nameCollision _ := .warn (by decide)
  unresolved := .unresolved
  schemaHook _ _ := .of_eq (fun _ _ => rfl) (fun _ _ => rfl) fun _ =>
    (Gives.any _).weaken fun _ _ _ _ => trivial
  typeHook _ _ _ := .of_eq (fun _ _ => rfl) (fun _ _ => rfl) fun _ =>
    (Gives.any _).weaken fun _ _ _ _ _ _ => trivial

theorem registerOperation_lockstep (e : OperationEntry) :
    lockstep.Holds (registerOperation e) fun _ => True := by
  refine lockstep.get_bind (fun _ _ => rfl) fun p _ => ?_
  obtain ⟨earlier, operations⟩ := p.operations.register e
  have hstored : Lockstep (modify fun p => { p with operations }) fun _ => True :=
    .of_eq (fun _ _ => rfl) (fun _ _ => rfl) fun _ => .any _
  refine lockstep.bind hstored fun _ _ => ?_
  cases earlier with
  | none => exact lockstep.pure trivial
  | some earlier =>
    -- The option that is read here is a mode as well, so the rule of the judgement does not apply.
    refine Lockstep.options_bind (fun _ => rfl) fun o => ?_
    dsimp only
    split
    · exact lockstep.bind (lockstep.throw _ fun _ => True) fun _ _ => .warn (by decide) _ _
    · exact .warn (by decide) _ _

theorem documentDecls_lockstep (doc : Document) :
    Lockstep (documentDecls doc) fun _ => True :=
  documentDecls_holds (J := lockstep) (fun e _ => registerOperation_lockstep e)
    (fun _ => .of_eq (fun _ _ => rfl) (fun _ _ => rfl) fun _ => .any _) doc

end ApiTypes.Typing
