import ApiTypes.Proofs.Typing.Judgement

/-!
Two runs abreast. They start from states that agree but for whether the helper that makes keys
required is used, end alike, with related results, and leave states that agree in the same way.

Nothing that types a schema looks at whether the helper is used, so each action runs abreast of
itself. That is a judgement, given here by what it says on the basic actions.
-/

namespace ApiTypes.Typing

variable {α β γ δ : Type} {σ : Setting}

/-- States that agree but for whether the helper is used. -/
def Beside (p p' : Progress) : Prop :=
  ∃ uses, p' = { p with usesWithRequired := uses }

/-- Both runs give related results or fail in the same way, in states that agree. -/
inductive EndsBeside (R : α → β → Prop) :
    Except TypingError α × Progress → Except TypingError β × Progress → Prop where
  | ok {x : α} {y : β} {q q' : Progress} :
    R x y → Beside q q' → EndsBeside R (.ok x, q) (.ok y, q')
  | error (e : TypingError) {q q' : Progress} :
    Beside q q' → EndsBeside R (.error e, q) (.error e, q')

/-- From states that agree, the actions end alike, with related results. -/
structure Abreast (σ : Setting) (R : α → β → Prop) (act : Typing α) (act' : Typing β) : Prop where
  ends : ∀ p p', Beside p p' → EndsBeside R (exec act σ p) (exec act' σ p')

namespace Abreast

variable {R : α → β → Prop} {S : γ → δ → Prop} {act : Typing α} {act' : Typing β}

theorem pure {x : α} {y : β} (h : R x y) : Abreast σ R (Pure.pure x) (Pure.pure y) :=
  ⟨fun _ _ hp => .ok h hp⟩

theorem throw (e : TypingError) : Abreast σ R (MonadExcept.throw e) (MonadExcept.throw e) :=
  ⟨fun _ _ hp => .error e hp⟩

theorem bind {next : α → Typing γ} {next' : β → Typing δ} (hact : Abreast σ R act act')
    (hnext : ∀ x y, R x y → Abreast σ S (next x) (next' y)) :
    Abreast σ S (act >>= next) (act' >>= next') := by
  constructor
  intro p p' hp
  have hends := hact.ends p p' hp
  rw [exec_bind, exec_bind]
  generalize exec act σ p = run, exec act' σ p' = run' at hends
  cases hends with
  | ok hxy hq => exact (hnext _ _ hxy).ends _ _ hq
  | error e hq => exact .error e hq

/-- Of an action that runs abreast of itself both runs give the same. -/
theorem bind_eq {act : Typing α} {next : α → Typing γ} {next' : α → Typing δ}
    (hact : Abreast σ Eq act act) (hnext : ∀ x, Abreast σ S (next x) (next' x)) :
    Abreast σ S (act >>= next) (act >>= next') :=
  hact.bind fun x _ h => h ▸ hnext x

theorem map {f : α → γ} {g : β → δ} (hact : Abreast σ R act act')
    (h : ∀ x y, R x y → S (f x) (g y)) : Abreast σ S (f <$> act) (g <$> act') := by
  rw [← bind_pure_comp, ← bind_pure_comp]
  exact hact.bind fun x y hxy => .pure (h x y hxy)

theorem mono {R' : α → β → Prop} (hact : Abreast σ R act act') (h : ∀ x y, R x y → R' x y) :
    Abreast σ R' act act' := by
  rw [← id_map act, ← id_map act']
  exact hact.map h

theorem options_bind {next : Options → Typing γ} {next' : Options → Typing δ}
    (h : Abreast σ S (next σ.options) (next' σ.options)) :
    Abreast σ S (options >>= next) (options >>= next') := ⟨h.ends⟩

theorem read_bind {next : Setting → Typing γ} {next' : Setting → Typing δ}
    (h : Abreast σ S (next σ) (next' σ)) :
    Abreast σ S (read >>= next) (read >>= next') := ⟨h.ends⟩

/-- An action that does the same whether the helper is used or not. -/
theorem self {act : Typing α} {post : α → Prop} (hpost : ∀ x, post x)
    (h : ∀ p uses, ∃ uses', exec act σ { p with usesWithRequired := uses } =
      ((exec act σ p).1, { (exec act σ p).2 with usesWithRequired := uses' })) :
    Abreast σ (fun x y => x = y ∧ post x) act act := by
  constructor
  rintro p _ ⟨uses, rfl⟩
  obtain ⟨uses', hrun⟩ := h p uses
  rw [hrun]
  cases exec act σ p with
  | mk result q =>
    cases result with
    | ok x => exact .ok ⟨rfl, hpost x⟩ ⟨uses', rfl⟩
    | error e => exact .error e ⟨uses', rfl⟩

/-- Only the results of the runs count. -/
theorem congr {f : Typing α} {g : Typing β} (hf : ∀ p, exec f σ p = exec act σ p)
    (hg : ∀ p, exec g σ p = exec act' σ p) (h : Abreast σ R act act') : Abreast σ R f g :=
  ⟨fun p p' hp => hf p ▸ hg p' ▸ h.ends p p' hp⟩

theorem inliningRef {key : String} (hact : Abreast σ R act act') :
    Abreast σ R (inliningRef key act) (inliningRef key act') := by
  constructor
  rintro p _ ⟨uses, rfl⟩
  have hends := hact.ends { p with inlining := key :: p.inlining }
    { p with inlining := key :: p.inlining, usesWithRequired := uses } ⟨uses, rfl⟩
  rw [exec_inliningRef, exec_inliningRef]
  generalize exec act σ { p with inlining := key :: p.inlining } = run,
    exec act' σ { p with inlining := key :: p.inlining, usesWithRequired := uses } = run' at hends
  cases hends with
  | ok hxy hq =>
    obtain ⟨uses', rfl⟩ := hq
    exact .ok hxy ⟨uses', rfl⟩
  | error e hq =>
    obtain ⟨uses', rfl⟩ := hq
    exact .error e ⟨uses', rfl⟩

end Abreast

/-- The judgement that an action runs abreast of itself in every setting, so that it does not look
at whether the helper is used. -/
def unheeding : Judgement where
  Good _ := True
  closed := TypeExpr.closed_true
  Holds act post := ∀ σ, Abreast σ (fun x y => x = y ∧ post x) act act
  pure h _ := .pure ⟨rfl, h⟩
  throw e _ _ := .throw e
  bind hact hnext σ := (hact σ).bind fun x _ ⟨heq, hx⟩ => heq ▸ hnext x hx σ
  options_bind _ h σ := .options_bind (h σ.options σ)
  read_bind _ h σ := .read_bind (h σ σ)
  Known _ := True
  get_bind hblind h σ := by
    constructor
    rintro p _ ⟨uses, rfl⟩
    rw [exec_get_bind, exec_get_bind, hblind p uses]
    exact (h p trivial σ).ends p _ ⟨uses, rfl⟩
  hoisting _ _ _ _ := .self (fun _ => trivial) fun _ uses => ⟨uses, rfl⟩
  requiring _ := .self (fun _ => trivial) fun _ _ => ⟨true, rfl⟩
  resolving _ _ := .self (fun _ => trivial) fun _ uses => ⟨uses, rfl⟩
  inliningRef h σ := .inliningRef (h σ)
  warn _ _ _ _ := .self (fun _ => trivial) fun _ uses => ⟨uses, rfl⟩
  Naming := True
  nameCollision _ _ _ _ := .self (fun _ => trivial) fun _ uses => ⟨uses, rfl⟩
  unresolved _ _ σ := by
    have hwarn (kind place message) : Abreast σ (fun x y => x = y ∧ True)
        (warn kind place message) (warn kind place message) :=
      .self (fun _ => trivial) fun _ uses => ⟨uses, rfl⟩
    have hreported {kind place message} : Abreast σ (fun x y => x = y ∧ True)
        (do warn kind place message; return TypeExpr.unknown)
        (do warn kind place message; return TypeExpr.unknown) :=
      (hwarn _ _ _).bind fun _ _ _ => .pure ⟨rfl, trivial⟩
    refine .options_bind ?_
    split
    · exact Abreast.bind (R := Eq) (.throw _) fun _ _ _ => hreported
    · exact hreported
  schemaHook _ _ _ := .self (fun _ _ _ => trivial) fun _ uses => ⟨uses, rfl⟩
  typeHook _ _ _ _ := .self (fun _ _ _ _ _ => trivial) fun _ uses => ⟨uses, rfl⟩

end ApiTypes.Typing
