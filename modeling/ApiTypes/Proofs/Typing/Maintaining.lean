import ApiTypes.Proofs.Typing.DocumentJudgement

/-!
Properties of the operations and the enums that have been declared. If a further declaration keeps
such a property, every run that succeeds does.
-/

namespace ApiTypes

/-- A property of what has been declared, for operations and for enums. -/
structure DeclaredProperty where
  operations : OperationRegistry → Prop
  enums : EnumRegistry → Prop

/-- What has been declared has the property. -/
structure Progress.Has (p : Progress) (I : DeclaredProperty) : Prop where
  operations : I.operations p.operations
  enums : I.enums p.enums

namespace Typing

variable {α β : Type} {σ : Setting}

/-- A run that succeeds maintains the property of what has been declared and gives what satisfies
`post`. -/
structure Maintains (I : DeclaredProperty) (σ : Setting) (act : Typing α) (post : α → Prop) :
    Prop where
  kept : ∀ p x q, exec act σ p = (.ok x, q) → p.Has I → q.Has I ∧ post x

namespace Maintains

variable {I : DeclaredProperty}

/-- An action that declares nothing. -/
theorem of_eq {act : Typing α} {post : α → Prop}
    (hoperations : ∀ p, (exec act σ p).2.operations = p.operations)
    (henums : ∀ p, (exec act σ p).2.enums = p.enums) (hgives : Gives σ act post) :
    Maintains I σ act post := by
  constructor
  intro p x q hrun hp
  have hoperations := hoperations p
  have henums := henums p
  rw [hrun] at hoperations henums
  exact ⟨⟨hoperations ▸ hp.operations, henums ▸ hp.enums⟩, hgives.result p x q hrun⟩

theorem bind {act : Typing α} {next : α → Typing β} {mid : α → Prop} {post : β → Prop}
    (hact : Maintains I σ act mid) (hnext : ∀ x, mid x → Maintains I σ (next x) post) :
    Maintains I σ (act >>= next) post := by
  constructor
  intro p y r hrun hp
  rw [exec_bind] at hrun
  cases hfirst : exec act σ p with
  | mk result q =>
    rw [hfirst] at hrun
    cases result with
    | error e => cases hrun
    | ok x =>
      obtain ⟨hq, hx⟩ := hact.kept p x q hfirst hp
      exact (hnext x hx).kept q y r hrun hq

theorem modify {change : Progress → Progress}
    (h : ∀ p, p.Has I → (change p).Has I) :
    Maintains I σ (modify change) fun _ => True := by
  constructor
  rintro p _ _ ⟨⟩ hp
  exact ⟨h p hp, trivial⟩

theorem inliningRef {key : String} {act : Typing α} {post : α → Prop}
    (hact : Maintains I σ act post) : Maintains I σ (inliningRef key act) post := by
  constructor
  intro p x q hrun hp
  rw [exec_inliningRef] at hrun
  cases hinner : exec act σ { p with inlining := key :: p.inlining } with
  | mk result r =>
    rw [hinner] at hrun
    obtain ⟨rfl, rfl⟩ := Prod.mk.inj hrun
    obtain ⟨hr, hx⟩ := hact.kept _ x r hinner ⟨hp.operations, hp.enums⟩
    exact ⟨⟨hr.operations, hr.enums⟩, hx⟩

theorem pure {x : α} {post : α → Prop} (h : post x) : Maintains I σ (Pure.pure x) post :=
  .of_eq (fun _ => rfl) (fun _ => rfl) (.pure h)

theorem throw (e : TypingError) {post : α → Prop} :
    Maintains I σ (MonadExcept.throw e) post :=
  .of_eq (fun _ => rfl) (fun _ => rfl) .throw

theorem warn (kind : WarningKind) (place message : String) :
    Maintains I σ (warn kind place message) fun _ => True :=
  .of_eq (fun _ => rfl) (fun _ => rfl) (.any _)

theorem options_bind {next : Options → Typing β} {post : β → Prop}
    (h : Maintains I σ (next σ.options) post) : Maintains I σ (options >>= next) post :=
  ⟨h.kept⟩

theorem get_bind {next : Progress → Typing β} {post : β → Prop}
    (h : ∀ p, p.Has I → Maintains I σ (next p) post) :
    Maintains I σ (get >>= next) post :=
  ⟨fun p x q hrun hp => (h p hp).kept p x q hrun hp⟩

theorem unresolved (ref place : String) :
    Maintains I σ (unresolved ref place) (· = .unknown) := by
  refine options_bind ?_
  dsimp only
  split
  · exact (throw _).bind fun _ (h : False) => h.elim
  · exact (warn _ _ _).bind fun _ _ => .pure rfl

end Maintains

/-- The judgement that a property of what has been declared is maintained while good types are
made. -/
def maintaining (I : DeclaredProperty) (σ : Setting)
    (hhoist : ∀ r place s, I.enums r → I.enums (r.hoist place s).2)
    {Good : TypeExpr → Prop} (hGood : TypeExpr.Closed Good)
    (hschemaHook : ∀ s place, Gives σ (schemaHook? s place) fun taken => ∀ t ∈ taken, Good t.1)
    (htypeHook : ∀ t s place, Gives σ (typeHook? t s place) fun result =>
      ∀ r ∈ result, ∀ t ∈ r.type, Good t) : Judgement where
  Good := Good
  closed := hGood
  Holds := Maintains I σ
  pure := .pure
  throw e _ := .throw e
  bind := .bind
  options_bind _ h := .options_bind (h _)
  read_bind _ h := ⟨(h σ).kept⟩
  Known p := p.Has I
  get_bind _ := .get_bind
  hoisting hp place s := .modify fun _ hq => ⟨hq.operations, hhoist _ place s hp.enums⟩
  requiring := .modify fun _ hq => ⟨hq.operations, hq.enums⟩
  resolving _ := .of_eq (fun _ => rfl) (fun _ => rfl) (.any _)
  inliningRef := .inliningRef
  warn _ := .warn _
  Naming := True
  nameCollision _ := .warn _
  unresolved ref place := by
    have hunknown : ∀ t, t = .unknown → Good t := by
      rintro _ rfl
      exact hGood.keyword _
    exact ⟨fun p x q hrun hp => ((Maintains.unresolved ref place).kept p x q hrun hp).imp_right
      (hunknown x)⟩
  schemaHook s place := .of_eq (fun _ => rfl) (fun _ => rfl) (hschemaHook s place)
  typeHook t s place := .of_eq (fun _ => rfl) (fun _ => rfl) (htypeHook t s place)

/-- A declaration of an operation maintains what it keeps. -/
theorem registerOperation_maintains {I : DeclaredProperty} {e : OperationEntry}
    (hregister : ∀ r, I.operations r → I.operations (r.register e).2) :
    Maintains I σ (registerOperation e) fun _ => True := by
  refine .get_bind fun p hp => ?_
  have hregistered := hregister _ hp.operations
  rcases hfound : p.operations.register e with ⟨earlier, operations⟩
  rw [hfound] at hregistered
  have hstored : Maintains I σ (modify fun p => { p with operations }) fun _ => True :=
    .modify fun _ hq => ⟨hregistered, hq.enums⟩
  refine hstored.bind fun _ _ => ?_
  cases earlier with
  | none => exact .pure trivial
  | some earlier =>
    refine .options_bind ?_
    dsimp only
    split
    · exact (Maintains.throw _).bind fun _ (h : False) => h.elim
    · exact .warn _ _ _

end Typing

end ApiTypes
