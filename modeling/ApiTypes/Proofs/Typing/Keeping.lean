import ApiTypes.Proofs.Typing.DocumentJudgement
import ApiTypes.Proofs.Typing.Registrations

/-!
Parts of the state that a transformation leaves as they were, whether it succeeds or fails. A part
is left alone by the whole walk if it is left alone by the few actions that change the state.
-/

namespace ApiTypes.Typing

variable {α β γ : Type}

/-- From every state, the action leaves a part of it as it was, and what it gives satisfies
`post`. -/
structure Keeps (part : Progress → γ) (act : Typing α) (post : α → Prop) : Prop where
  keeps : ∀ σ p, part (exec act σ p).2 = part p
  gives : ∀ σ, Gives σ act post

namespace Keeps

variable {part : Progress → γ}

/-- An action of whose results nothing is said. -/
theorem of_eq {act : Typing α} (h : ∀ σ p, part (exec act σ p).2 = part p) :
    Keeps part act fun _ => True := ⟨h, fun _ => .any _⟩

theorem bind {act : Typing α} {next : α → Typing β} {mid : α → Prop} {post : β → Prop}
    (hact : Keeps part act mid) (hnext : ∀ x, mid x → Keeps part (next x) post) :
    Keeps part (act >>= next) post := by
  refine ⟨fun σ p => ?_, fun σ => (hact.gives σ).bind fun x hx => (hnext x hx).gives σ⟩
  have hfirst := hact.keeps σ p
  rw [exec_bind]
  cases hrun : exec act σ p with
  | mk result q =>
    rw [hrun] at hfirst
    cases result with
    | error e => exact hfirst
    | ok x => exact ((hnext x ((hact.gives σ).result p x q hrun)).keeps σ q).trans hfirst

theorem options_bind {next : Options → Typing β} {post : β → Prop}
    (h : ∀ o, Keeps part (next o) post) : Keeps part (options >>= next) post :=
  ⟨fun σ p => (h σ.options).keeps σ p, fun σ => .options_bind ((h σ.options).gives σ)⟩

end Keeps

theorem Runs.keeps {part : Progress → γ} {σ : Setting} {p q : Progress} {act : Typing α}
    {post : α → Prop} {x : α} (h : Runs σ act p x q) (hact : Keeps part act post) :
    part q = part p := by
  have hkeeps := hact.keeps σ p
  rwa [show exec act σ p = (.ok x, q) from h] at hkeeps

/-- A part of the state that nothing changes on the way to a type but the declaration of an
operation, or of an alias whose name is taken. -/
structure Aside (part : Progress → γ) : Prop where
  warning : ∀ p (w : Warning), w.kind ≠ .nameCollision →
    part { p with warnings := p.warnings ++ [w] } = part p
  enums : ∀ p enums, part { p with enums } = part p
  usesWithRequired : ∀ p uses, part { p with usesWithRequired := uses } = part p
  resolver : ∀ p resolver, resolver.index = p.resolver.index → part { p with resolver } = part p
  inliningRef : ∀ {α : Type} {key : String} {act : Typing α} {post : α → Prop},
    Keeps part act post → Keeps part (inliningRef key act) post

/-- A part that does not show which references are being written out. -/
theorem Aside.of_inlining {part : Progress → γ}
    (warning : ∀ p (w : Warning), w.kind ≠ .nameCollision →
      part { p with warnings := p.warnings ++ [w] } = part p)
    (enums : ∀ p enums, part { p with enums } = part p)
    (usesWithRequired : ∀ p uses, part { p with usesWithRequired := uses } = part p)
    (resolver : ∀ p resolver, resolver.index = p.resolver.index →
      part { p with resolver } = part p)
    (inlining : ∀ p inlining, part { p with inlining } = part p) : Aside part where
  warning := warning
  enums := enums
  usesWithRequired := usesWithRequired
  resolver := resolver
  inliningRef hact := by
    refine ⟨fun σ p => ?_, fun σ => (hact.gives σ).inliningRef⟩
    rw [exec_inliningRef, inlining, hact.keeps, inlining]

/-- The report of a problem, or a failure over it. -/
theorem Aside.warn_unless {part : Progress → γ} (h : Aside part) {fails : Bool} {e : TypingError}
    {kind : WarningKind} (hkind : kind ≠ .nameCollision) {place message : String}
    {next : Typing α} (hnext : Keeps part next fun _ => True) :
    Keeps part (do
      if fails then throw e
      warn kind place message
      next) fun _ => True := by
  cases fails with
  | true => exact .of_eq fun _ _ => rfl
  | false => exact .bind (.of_eq fun _ p => h.warning p _ hkind) fun _ _ => hnext

/-- The judgement that a part of the state is left as it was. It says something on the names of
aliases if the part shows nothing of the warnings. -/
def keeping {part : Progress → γ} (h : Aside part) : Judgement where
  Good _ := True
  closed := TypeExpr.closed_true
  Holds := Keeps part
  pure h := ⟨fun _ _ => rfl, fun _ => .pure h⟩
  throw _ _ := ⟨fun _ _ => rfl, fun _ => .throw⟩
  bind := .bind
  options_bind _ := .options_bind
  read_bind _ h := ⟨fun σ p => (h σ).keeps σ p, fun σ => .read_bind ((h σ).gives σ)⟩
  Known _ := True
  get_bind _ h := ⟨fun σ p => (h p trivial).keeps σ p,
    fun σ => .get_bind fun p => (h p trivial).gives σ⟩
  hoisting _ _ _ := .of_eq fun _ p => h.enums p _
  requiring := .of_eq fun _ p => h.usesWithRequired p _
  resolving hact := .of_eq fun _ p => h.resolver p _ (hact _ p.resolver rfl).1
  inliningRef := h.inliningRef
  warn hkind _ _ := .of_eq fun _ p => h.warning p _ (by rintro rfl; simp at hkind)
  Naming := ∀ p (w : Warning), part { p with warnings := p.warnings ++ [w] } = part p
  nameCollision hnaming _ _ := .of_eq fun _ p => hnaming p _
  unresolved _ _ := .options_bind fun _ => h.warn_unless (by decide) (.of_eq fun _ _ => rfl)
  schemaHook _ _ := ⟨fun _ _ => rfl, fun _ => (Gives.any _).weaken fun _ _ _ _ => trivial⟩
  typeHook _ _ _ := ⟨fun _ _ => rfl, fun _ => (Gives.any _).weaken fun _ _ _ _ _ _ => trivial⟩

/-- A declaration changes nothing but the declared operations and the warnings. -/
theorem registerOperation_keeps {part : Progress → γ} (h : Aside part)
    (hoperations : ∀ p operations, part { p with operations } = part p) (e : OperationEntry) :
    Keeps part (registerOperation e) fun _ => True := by
  refine (keeping h).get_bind (fun _ _ => rfl) fun p _ => ?_
  obtain ⟨earlier, operations⟩ := p.operations.register e
  have hstored : Keeps part (modify fun p => { p with operations }) fun _ => True :=
    .of_eq fun _ p => hoperations p operations
  refine hstored.bind fun _ _ => ?_
  cases earlier with
  | none => exact (keeping h).pure trivial
  | some earlier =>
    exact .options_bind fun _ => h.warn_unless (by decide) (.of_eq fun _ _ => rfl)

end ApiTypes.Typing
