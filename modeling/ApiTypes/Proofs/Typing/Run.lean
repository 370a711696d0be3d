import ApiTypes.Proofs.Lookup
import ApiTypes.Typing.Document
import Mathlib.Data.List.Forall2

/-!
Runs of the actions that make types. A run either gives a result or fails, and in both cases leaves
what was collected. A sequence runs its parts in turn, and what a run does that works on what was
collected is stated as an equation.

`Gives` says what holds of every result of an action, whatever the state is in which it runs.
-/

namespace ApiTypes.Typing

variable {α β : Type}

/-- What evaluates to a success with a certain property is one. -/
theorem exists_of_any {ε α : Type} {x : Except ε α} {p : α → Bool} (h : x.toOption.any p = true) :
    ∃ a, x = .ok a ∧ p a = true := by
  cases x with
  | error e => cases h
  | ok a => exact ⟨a, rfl, h⟩

/-- The outcome of an action in a setting, and what is collected after it. -/
def exec (act : Typing α) (σ : Setting) (p : Progress) : Except TypingError α × Progress :=
  (act σ).run.run p

theorem exec_bind (act : Typing α) (next : α → Typing β) (σ : Setting) (p : Progress) :
    exec (act >>= next) σ p =
      match exec act σ p with
      | (.ok x, q) => exec (next x) σ q
      | (.error e, q) => (.error e, q) := by
  change ((act σ >>= fun x => next x σ).run).run p = _
  rw [ExceptT.run_bind, StateT.run_bind]
  unfold exec
  cases hrun : (act σ).run.run p with
  | mk result q => cases result <;> rfl

/-- A sequence fails as soon as a step does. -/
theorem exec_bind_error {act : Typing α} {next : α → Typing β} {σ : Setting} {p : Progress}
    {e : TypingError} (h : (exec act σ p).1 = .error e) :
    (exec (act >>= next) σ p).1 = .error e := by
  rw [exec_bind]
  cases hrun : exec act σ p with
  | mk result q =>
    rw [hrun] at h
    cases h
    rfl

theorem exec_map (f : α → β) (act : Typing α) (σ : Setting) (p : Progress) :
    exec (f <$> act) σ p =
      match exec act σ p with
      | (.ok x, q) => (.ok (f x), q)
      | (.error e, q) => (.error e, q) := by
  rw [← bind_pure_comp, exec_bind]
  rfl

theorem exec_get_bind (next : Progress → Typing β) (σ : Setting) (p : Progress) :
    exec (get >>= next) σ p = exec (next p) σ p := rfl

theorem exec_warn (kind : WarningKind) (place message : String) (σ : Setting) (p : Progress) :
    exec (warn kind place message) σ p =
      (.ok (), { p with warnings := p.warnings ++ [⟨kind, place, message⟩] }) := rfl

theorem exec_resolving (act : Resolver.Resolving α) (σ : Setting) (p : Progress) :
    exec (resolving act) σ p =
      (.ok (act.run p.resolver).1, { p with resolver := (act.run p.resolver).2 }) := rfl

/-- Writing out a reference adds it to those being written out and takes it away afterwards,
whatever the outcome. -/
theorem exec_inliningRef (key : String) (act : Typing α) (σ : Setting) (p : Progress) :
    exec (inliningRef key act) σ p =
      ((exec act σ { p with inlining := key :: p.inlining }).1,
        { (exec act σ { p with inlining := key :: p.inlining }).2 with
          inlining :=
            (exec act σ { p with inlining := key :: p.inlining }).2.inlining.erase key }) :=
  rfl

/-- The entries that are written are those of the map, in some order. -/
theorem exec_entries_bind {m : Option (OrderedMap α)} (next : List (String × α) → Typing β)
    (σ : Setting) (p : Progress) :
    ∃ listed : List (String × α), listed.Perm (entriesOf m) ∧
      exec (entries m >>= next) σ p = exec (next listed) σ p := by
  cases halphabetize : σ.options.alphabetize with
  | true =>
    refine ⟨(entriesOf m).mergeSort fun a b => a.1 ≤ b.1, List.mergeSort_perm _ _, ?_⟩
    change exec ((if σ.options.alphabetize = true then _ else _) >>= next) σ p = _
    rw [if_pos halphabetize]
    rfl
  | false =>
    refine ⟨entriesOf m, List.Perm.refl _, ?_⟩
    change exec ((if σ.options.alphabetize = true then _ else _) >>= next) σ p = _
    rw [if_neg (by simp [halphabetize])]
    rfl

/-- The operation of a path item that is written for a method. -/
def shownOperation? (options : Options) (item : PathItem) (method : Method) : Option Operation :=
  (item.operation? method).filter fun o => !(options.excludeDeprecated && o.deprecated)

/-- The type of an operation, with the parameters of its path item. -/
def operationType (item : PathItem) (o : Operation) (place : String) (method : Method) :
    Typing TypeExpr := do
  let parameters ← mergeParameters item o place method
  return .object (← operationMembers { o with parameters := some parameters }
    (Reference.join place [method.name]))

/-- An operation is typed before it is declared. -/
theorem methodMember_eq (item : PathItem) (place : String) (method : Method) :
    methodMember item place method = do
      let options ← options
      match shownOperation? options item method with
      | none => return .property method.name true options.immutable .never []
      | some o =>
        let t ← operationType item o place method
        let t ← declaredType o place method t
        return .property method.name false options.immutable t o.doc := by
  unfold methodMember operationType
  simp only [bind_assoc, pure_bind]
  rfl

/-- The setting that a document and a request give. -/
def settingOf (doc : Document) (request : Request) : Setting :=
  ⟨request.options, request.schemaHooks, request.typeHooks,
    ((Discriminators.scan).run (Resolver.ofDocument doc request.external)).1⟩

/-- What is there before any type is made: the resolver after the scan for discriminators. -/
def startOf (doc : Document) (request : Request) : Progress :=
  { resolver := ((Discriminators.scan).run (Resolver.ofDocument doc request.external)).2 }

theorem runOn_eq (act : Typing α) (doc : Document) (request : Request) :
    runOn act doc request = exec act (settingOf doc request) (startOf doc request) := rfl

/-- What is made of a document is what the run on it leaves. -/
theorem generate_eq (doc : Document) (request : Request) :
    generate doc request =
      match doc.checkVersion with
      | .error e => .error (.version e)
      | .ok _ =>
        match exec (documentDecls doc) (settingOf doc request) (startOf doc request) with
        | (.error e, _) => .error (.typing e)
        | (.ok decls, q) => .ok ⟨decls, q.warnings, q.operations.values⟩ := by
  unfold generate
  rw [runOn_eq]
  cases doc.checkVersion with
  | error e => rfl
  | ok _ =>
    cases exec (documentDecls doc) (settingOf doc request) (startOf doc request) with
    | mk result q => cases result <;> rfl

/-- What is made of a run for a document of a supported version. -/
def outcome (run : Except TypingError (List Decl) × Progress) : Except Failure Output :=
  (run.1.map fun decls => ⟨decls, run.2.warnings, run.2.operations.values⟩).mapError .typing

theorem generate_of_version {doc : Document} {request : Request}
    (hversion : doc.checkVersion = .ok ()) :
    generate doc request =
      outcome (exec (documentDecls doc) (settingOf doc request) (startOf doc request)) := by
  rw [generate_eq, hversion]
  cases exec (documentDecls doc) (settingOf doc request) (startOf doc request) with
  | mk result q => cases result <;> rfl

theorem outcome_error_iff {run : Except TypingError (List Decl) × Progress} {e : TypingError} :
    outcome run = .error (.typing e) ↔ run.1 = .error e := by
  obtain ⟨result, q⟩ := run
  cases result with
  | error e' =>
    change Except.error (Failure.typing e') = _ ↔ _
    simp
  | ok decls => exact ⟨nofun, nofun⟩

theorem outcome_ok {run : Except TypingError (List Decl) × Progress} {output : Output}
    (h : outcome run = .ok output) : ∃ decls, run.1 = .ok decls ∧
      output = ⟨decls, run.2.warnings, run.2.operations.values⟩ := by
  obtain ⟨result, q⟩ := run
  cases result with
  | error e => cases h
  | ok decls =>
    cases h
    exact ⟨decls, rfl, rfl⟩

/-- No hook takes anything over. -/
structure HookFree (σ : Setting) : Prop where
  schemaHooks : σ.schemaHooks = []
  typeHooks : σ.typeHooks = []

section Hooks

variable {σ : Setting} (hσ : HookFree σ) (body : SchemaBody) (s : Option Schema) (place : String)
  (p : Progress)

include hσ

theorem exec_schemaHook_bind (next : Option (TypeExpr × Bool) → Typing β) :
    exec (schemaHook? s place >>= next) σ p = exec (next none) σ p := by
  change exec (next (s.bind fun s => σ.schemaHooks.findSome? _)) σ p = _
  rw [hσ.schemaHooks]
  cases s <;> rfl

theorem exec_typeHook_bind (t : TypeExpr) (next : Option HookResult → Typing β) :
    exec (typeHook? t s place >>= next) σ p = exec (next none) σ p := by
  change exec (next (σ.typeHooks.findSome? _)) σ p = _
  rw [hσ.typeHooks]
  rfl

theorem exec_hookedType :
    exec (hookedType body s place) σ p = exec ((·, false) <$> body s place) σ p := by
  unfold hookedType
  rw [exec_schemaHook_bind hσ, exec_bind, exec_map]
  cases exec (body s place) σ p with
  | mk result q =>
    cases result with
    | error e => rfl
    | ok t =>
      dsimp only
      rw [pure_bind, exec_typeHook_bind hσ]
      rfl

theorem exec_typeWith : exec (typeWith body s place) σ p = exec (body s place) σ p := by
  unfold typeWith
  rw [exec_map, exec_hookedType hσ, exec_map]
  cases exec (body s place) σ p with
  | mk result q => cases result <;> rfl

theorem exec_unfinishedWith : exec (unfinishedWith body s place) σ p = exec (body s place) σ p := by
  unfold unfinishedWith
  rw [exec_schemaHook_bind hσ]

end Hooks

/-- A schema is unfolded at least four times. -/
theorem exists_exec_schemaType (s : Schema) (place : String) (σ : Setting) (p : Progress) :
    ∃ steps, exec (schemaType (some s) place) σ p =
      exec (typeWith (schemaBody (steps + 4)) (some s) place) σ p := by
  obtain ⟨count, hcount, hmany⟩ :
      ∃ count, exec (unfoldings (some s)) σ p = (.ok count, p) ∧ 4 ≤ count := by
    have hself : 0 < s.walk.length := by
      rw [Schema.walk]
      exact Nat.succ_pos _
    refine ⟨_, rfl, ?_⟩
    rw [Option.elim_some]
    omega
  obtain ⟨steps, rfl⟩ := Nat.exists_eq_add_of_le' hmany
  refine ⟨steps, ?_⟩
  rw [schemaType, exec_bind, hcount]

/-- Whenever the action gives a result, that result satisfies `post`. -/
structure Gives (σ : Setting) (act : Typing α) (post : α → Prop) : Prop where
  result : ∀ p x q, exec act σ p = (.ok x, q) → post x

namespace Gives

variable {σ : Setting}

theorem any (act : Typing α) : Gives σ act fun _ => True := ⟨fun _ _ _ _ => trivial⟩

theorem pure {x : α} {post : α → Prop} (h : post x) : Gives σ (Pure.pure x) post := by
  constructor
  intro p y q hrun
  cases hrun
  exact h

theorem throw {e : TypingError} {post : α → Prop} :
    Gives σ (MonadExcept.throw e : Typing α) post := ⟨nofun⟩

theorem bind {act : Typing α} {next : α → Typing β} {mid : α → Prop} {post : β → Prop}
    (hact : Gives σ act mid) (hnext : ∀ x, mid x → Gives σ (next x) post) :
    Gives σ (act >>= next) post := by
  constructor
  intro p y r hrun
  rw [exec_bind] at hrun
  cases hfirst : exec act σ p with
  | mk result q =>
    rw [hfirst] at hrun
    cases result with
    | error e => cases hrun
    | ok x => exact (hnext x (hact.result p x q hfirst)).result q y r hrun

theorem weaken {act : Typing α} {mid post : α → Prop} (hact : Gives σ act mid)
    (h : ∀ x, mid x → post x) : Gives σ act post :=
  ⟨fun p x q hrun => h x (hact.result p x q hrun)⟩

theorem map {act : Typing α} {f : α → β} {mid : α → Prop} {post : β → Prop}
    (hact : Gives σ act mid) (h : ∀ x, mid x → post (f x)) : Gives σ (f <$> act) post := by
  rw [← bind_pure_comp]
  exact hact.bind fun x hx => .pure (h x hx)

theorem options_bind {next : Options → Typing β} {post : β → Prop}
    (h : Gives σ (next σ.options) post) : Gives σ (options >>= next) post := ⟨h.result⟩

theorem read_bind {next : Setting → Typing β} {post : β → Prop} (h : Gives σ (next σ) post) :
    Gives σ (read >>= next) post := ⟨h.result⟩

theorem get_bind {next : Progress → Typing β} {post : β → Prop}
    (h : ∀ p, Gives σ (next p) post) : Gives σ (get >>= next) post :=
  ⟨fun p => (h p).result p⟩

theorem inliningRef {key : String} {act : Typing α} {post : α → Prop} (hact : Gives σ act post) :
    Gives σ (inliningRef key act) post := by
  constructor
  intro p x q hrun
  rw [exec_inliningRef] at hrun
  obtain ⟨hresult, -⟩ := Prod.mk.inj hrun
  exact hact.result { p with inlining := key :: p.inlining } x _ (Prod.ext hresult rfl)

/-- Only the runs of an action count. -/
theorem congr {act act' : Typing α} {post : α → Prop} (hexec : ∀ p, exec act σ p = exec act' σ p)
    (h : Gives σ act' post) : Gives σ act post :=
  ⟨fun p x q hrun => h.result p x q (hexec p ▸ hrun)⟩

theorem entries (m : Option (OrderedMap α)) :
    Gives σ (entries m) fun listed => listed.Perm (entriesOf m) := by
  apply options_bind
  split
  · exact .pure (List.mergeSort_perm _ _)
  · exact .pure (.refl _)

theorem ofExcept {x : Except TypingError α} {post : α → Prop} (h : ∀ y, x = .ok y → post y) :
    Gives σ (ofExcept x) post := by
  cases x with
  | ok y => exact .pure (h y rfl)
  | error e => exact .throw

theorem mapM {f : α → Typing β} {R : α → β → Prop} {list : List α}
    (hf : ∀ x ∈ list, Gives σ (f x) (R x)) :
    Gives σ (list.mapM f) fun ys => List.Forall₂ R list ys := by
  induction list with
  | nil =>
    rw [List.mapM_nil]
    exact .pure .nil
  | cons x rest ih =>
    rw [List.mapM_cons]
    refine (hf x List.mem_cons_self).bind fun y hy => ?_
    refine (ih fun z hz => hf z (List.mem_cons_of_mem x hz)).bind fun ys hys => ?_
    exact .pure (.cons hy hys)

theorem filterMapM {f : α → Typing (Option β)} {post : β → Prop} {list : List α}
    (hf : ∀ x ∈ list, Gives σ (f x) fun y => ∀ z, y = some z → post z) :
    Gives σ (list.filterMapM f) fun ys => ∀ y ∈ ys, post y := by
  induction list with
  | nil =>
    rw [List.filterMapM_nil]
    exact .pure nofun
  | cons x rest ih =>
    have hrest := ih fun z hz => hf z (List.mem_cons_of_mem x hz)
    rw [List.filterMapM_cons]
    refine (hf x List.mem_cons_self).bind fun y hy => ?_
    cases y with
    | none => exact hrest
    | some y =>
      exact hrest.bind fun ys hys => .pure (List.forall_mem_cons.mpr ⟨hy y rfl, hys⟩)

/-- A dangling reference is an unknown type. -/
theorem unresolved (ref place : String) : Gives σ (unresolved ref place) (· = .unknown) := by
  refine options_bind ?_
  dsimp only
  split
  · exact Gives.throw.bind fun _ (h : False) => h.elim
  · exact (Gives.any _).bind fun _ _ => .pure rfl

/-- A reference into the document at hand is accessed by its name, unless it is dangling. -/
theorem refType [Referable α] {inline : α → String → Typing TypeExpr} {ref : String}
    (hlocal : Reference.isExternal ref = false) (place : String) :
    Gives σ (refType inline ref place) fun t => t = Reference.toType ref ∨ t = .unknown := by
  unfold Typing.refType
  rw [hlocal, if_pos (by decide)]
  refine get_bind fun p => ?_
  split
  · exact .pure (.inl rfl)
  · exact (unresolved ref place).weaken fun _ h => .inr h

end Gives

end ApiTypes.Typing
