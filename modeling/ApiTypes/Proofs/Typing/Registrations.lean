import ApiTypes.Proofs.Registry
import ApiTypes.Proofs.Typing.DocumentParallel
import ApiTypes.Proofs.Typing.DocumentTyped

/-!
The operations that are declared on the way to the types of a document. A run goes over the paths,
the webhooks and the path items among the components, in the order in which they are written, and in
each path item over the methods. An operation with an id that is not left out is declared with the
type it has at that point. What a reference names in the document is written elsewhere; a path item
of another document is written out in place, with its operations.

The relations say which declarations this makes between two states. Everything else leaves the
declared operations alone and does not look at them, and accesses no operation.
-/

namespace ApiTypes

/-- The id of an operation that is accessed. -/
def Use.operationId? (u : Use) : Option String :=
  if u.name = "operations" then u.keys.head? else none

/-- The ids of the operations that are accessed, in turn. -/
def operationIds (uses : List Use) : List String := uses.filterMap Use.operationId?

theorem operationIds_object (members : List Member) :
    operationIds (TypeExpr.object members).uses =
      members.flatMap fun m => operationIds m.uses := by
  change (TypeExpr.usesOfMembers members).filterMap _ = _
  rw [TypeExpr.usesOfMembers_eq, List.filterMap_flatMap]
  rfl

/-- The type of the values of a member. -/
def Member.type : Member → TypeExpr
  | .property _ _ _ t _ => t
  | .indexSignature _ _ t _ _ => t

/-- The ids of the operations that are accessed in the types of members, in turn. -/
def memberIds (members : List Member) : List String :=
  members.flatMap fun m => operationIds m.type.uses

theorem memberIds_singleton (m : Member) : memberIds [m] = operationIds m.type.uses :=
  List.append_nil _

namespace Typing

variable {α β ι : Type} {w : Source} {σ : Setting} {p q r : Progress}

/-- The action gives `x` and leads from the first state to the second. -/
def Runs (σ : Setting) (act : Typing α) (p : Progress) (x : α) (q : Progress) : Prop :=
  exec act σ p = (.ok x, q)

/-- The entries of a map in the order in which they are written. -/
def written (options : Options) (m : Option (OrderedMap α)) : List (String × α) :=
  if options.alphabetize then (entriesOf m).mergeSort fun a b => a.1 ≤ b.1 else entriesOf m

theorem written_perm (options : Options) (m : Option (OrderedMap α)) :
    (written options m).Perm (entriesOf m) := by
  unfold written
  split
  · exact List.mergeSort_perm _ _
  · exact .refl _

theorem mem_written {options : Options} {m : Option (OrderedMap α)} {entry : String × α}
    (h : entry ∈ written options m) : entry ∈ entriesOf m :=
  (written_perm options m).subset h

/-! How a run of an action that is put together runs through its parts. -/

namespace Runs

variable {act : Typing α} {next : α → Typing β} {x : α} {y : β}

theorem bind_iff :
    Runs σ (act >>= next) p y r ↔ ∃ x q, Runs σ act p x q ∧ Runs σ (next x) q y r := by
  unfold Runs
  rw [exec_bind]
  cases hrun : exec act σ p with
  | mk result q =>
    cases result with
    | error e => simp
    | ok x => simp

theorem pure_iff {y : α} : Runs σ (pure x) p y q ↔ x = y ∧ p = q := by
  change ((Except.ok x, p) : Except TypingError α × Progress) = (.ok y, q) ↔ _
  rw [Prod.mk.injEq, Except.ok.injEq]

theorem options_bind {next : Options → Typing β} (h : Runs σ (options >>= next) p y q) :
    Runs σ (next σ.options) p y q := h

theorem get_bind {next : Progress → Typing β} (h : Runs σ (get >>= next) p y q) :
    Runs σ (next p) p y q := h

theorem entries_bind {m : Option (OrderedMap α)} {next : List (String × α) → Typing β}
    (h : Runs σ (entries m >>= next) p y q) : Runs σ (next (written σ.options m)) p y q := by
  obtain ⟨listed, r, hlisted, hnext⟩ := bind_iff.mp h
  have hrun := hlisted.options_bind
  unfold written
  split at hrun
  · rename_i hsorted
    obtain ⟨rfl, rfl⟩ := pure_iff.mp hrun
    rw [if_pos hsorted]
    exact hnext
  · rename_i hsorted
    obtain ⟨rfl, rfl⟩ := pure_iff.mp hrun
    rw [if_neg hsorted]
    exact hnext

theorem of_valid {post : Progress → α → Prop} (h : Runs σ act p x q) (hact : Ensures w σ p act post)
    (hp : Valid w p) : Valid w q ∧ Extends p q ∧ post q x := by
  have houtcome := hact.outcome hp
  rw [h] at houtcome
  exact houtcome

theorem inliningRef_iff {key : String} :
    Runs σ (inliningRef key act) p x q ↔
      ∃ r, Runs σ act { p with inlining := key :: p.inlining } x r ∧
        q = { r with inlining := r.inlining.erase key } := by
  unfold Runs
  rw [exec_inliningRef]
  cases exec act σ { p with inlining := key :: p.inlining } with
  | mk result r =>
    simp only [Prod.mk.injEq]
    constructor
    · rintro ⟨hresult, rfl⟩
      exact ⟨r, ⟨hresult, rfl⟩, rfl⟩
    · rintro ⟨_, ⟨hresult, rfl⟩, rfl⟩
      exact ⟨hresult, rfl⟩

end Runs

/-! Actions that do not declare operations. -/

theorem twins_self {sorted : Bool} {O : OperationRegistry → OperationRegistry → Prop}
    {operations : OperationRegistry} (h : O p.operations operations) :
    Twins sorted O p { p with operations } where
  resolver := ⟨fun _ => List.forall₂_same.mpr fun o _ => Object.Alike.refl o, rfl, fun _ => rfl⟩
  warnings := rfl
  operations := h
  enums := rfl
  inlining := rfl
  usesWithRequired := rfl

/-- An action that goes the same way whatever has been declared declares nothing. -/
theorem Runs.operations_eq {act : Typing α} {R : α → α → Prop} {x : α}
    (h : Runs σ act p x q) (hact : ∀ O, Parallel σ O act act R) :
    q.operations = p.operations := by
  have hends := (hact fun o _ => o = p.operations).ends p p (twins_self rfl)
  rw [h] at hends
  cases hends with
  | ok _ hq => exact hq.operations

/-- What such an action gives, it gives without any operation as well. -/
theorem Runs.of_no_operations {act : Typing α} {post : Progress → α → Prop} {x : α}
    (h : Runs σ act p x q) (hact : ∀ O, Parallel σ O act act Eq)
    (hpost : ∀ p, Ensures w σ p act post) (hp : Valid w p) :
    ∃ r, r.operations = .empty ∧ post r x := by
  have hends := (hact fun _ o => o = .empty).ends p { p with operations := .empty }
    (twins_self rfl)
  have houtcome := (hpost { p with operations := .empty }).outcome
    ⟨hp.knows, hp.places, hp.enums, nofun⟩
  rw [h] at hends
  generalize exec act σ { p with operations := .empty } = run at hends houtcome
  cases hends with
  | ok hxy hq =>
    subst hxy
    exact ⟨_, hq.operations, houtcome.2.2⟩

/-- Without operations none is accessed. -/
theorem Named.operationId?_eq {u : Use} (h : Named w p u) (hp : p.operations = .empty) :
    u.operationId? = none := by
  cases h with
  | builtin hname => rcases hname with rfl | rfl <;> rfl
  | helper => rfl
  | enum =>
    unfold Use.operationId?
    split <;> rfl
  | operation hid =>
    rw [hp] at hid
    cases hid
  | entry hnames =>
    rcases hnames with ⟨_, _, _, _, _, _, hkeys⟩ | ⟨_, _, _, hkeys⟩ | ⟨_, _, _, hkeys⟩ |
      ⟨_, _, _, hkeys⟩ <;> cases hkeys <;> rfl

theorem operationIds_eq_nil {uses : List Use} (h : ∀ u ∈ uses, Named w p u)
    (hp : p.operations = .empty) : operationIds uses = [] :=
  List.filterMap_eq_nil_iff.mpr fun u hu => (h u hu).operationId?_eq hp

/-! The relations. -/

/-- The entry under which an operation of some type is declared. -/
def operationEntry (o : Operation) (place : String) (method : Method) (t : TypeExpr) :
    OperationEntry :=
  { id := o.operationId, type := t, doc := o.doc, place, method := method.name }

/-- What is declared for a method of a path item. -/
inductive MethodLog (σ : Setting) (item : PathItem) (place : String) (method : Method) :
    Progress → List OperationEntry → Progress → Prop where
  | absent {p : Progress} : shownOperation? σ.options item method = none →
    MethodLog σ item place method p [] p
  | unnamed {o : Operation} {t : TypeExpr} {p q : Progress} :
    shownOperation? σ.options item method = some o → o.operationId = "" →
    Runs σ (operationType item o place method) p t q → MethodLog σ item place method p [] q
  | named {o : Operation} {t : TypeExpr} {p q r : Progress} :
    shownOperation? σ.options item method = some o → o.operationId ≠ "" →
    Runs σ (operationType item o place method) p t q →
    Runs σ (registerOperation (operationEntry o place method t)) q () r →
    MethodLog σ item place method p [operationEntry o place method t] r

/-- What is declared for the members of a list, one after the other. -/
inductive Chain (step : ι → Progress → List OperationEntry → Progress → Prop) :
    List ι → Progress → List OperationEntry → Progress → Prop where
  | nil {p : Progress} : Chain step [] p [] p
  | cons {x : ι} {rest : List ι} {p q r : Progress} {log log' : List OperationEntry} :
    step x p log q → Chain step rest q log' r → Chain step (x :: rest) p (log ++ log') r

theorem Chain.exists_step {step : ι → Progress → List OperationEntry → Progress → Prop}
    {list : List ι} {log : List OperationEntry} (h : Chain step list p log q)
    {e : OperationEntry} (he : e ∈ log) :
    ∃ x ∈ list, ∃ p q log, step x p log q ∧ e ∈ log := by
  induction h with
  | nil => cases he
  | cons hstep _ ih =>
    rcases List.mem_append.mp he with hfirst | hrest
    · exact ⟨_, List.mem_cons_self, _, _, _, hstep, hfirst⟩
    · obtain ⟨x, hx, hfound⟩ := ih hrest
      exact ⟨x, List.mem_cons_of_mem _ hx, hfound⟩

/-- What holds of what each step declares from a valid state holds of what the chain declares. -/
theorem Chain.forall_mem_of_valid {step : ι → Progress → List OperationEntry → Progress → Prop}
    {good : OperationEntry → Prop} {list : List ι} {log : List OperationEntry}
    (h : Chain step list p log q) (hp : Valid w p)
    (hstep : ∀ x ∈ list, ∀ p log q, Valid w p → step x p log q →
      Valid w q ∧ ∀ e ∈ log, good e) :
    Valid w q ∧ ∀ e ∈ log, good e := by
  induction h with
  | nil => exact ⟨hp, List.forall_mem_nil _⟩
  | cons hfirst _ ih =>
    obtain ⟨hr, hgood⟩ := hstep _ List.mem_cons_self _ _ _ hp hfirst
    obtain ⟨hq, hrest⟩ := ih hr fun x hx => hstep x (List.mem_cons_of_mem _ hx)
    exact ⟨hq, List.forall_mem_append.mpr ⟨hgood, hrest⟩⟩

/-- What is declared for a path item: for its methods in turn, after its shared parameters. -/
inductive ItemLog (σ : Setting) (item : PathItem) (place : String) :
    Progress → List OperationEntry → Progress → Prop where
  | methods {shared : Member} {p q r : Progress} {log : List OperationEntry} :
    Runs σ (parametersMember (item.parameters.getD []) (Reference.join place ["parameters"]))
      p shared q →
    Chain (MethodLog σ item place) Method.all q log r → ItemLog σ item place p log r

/-- What is declared for a path item that may be a reference. A reference that is not written out
declares nothing. -/
inductive ShownLog (σ : Setting) (item : PathItem) (place : String) :
    Progress → List OperationEntry → Progress → Prop where
  | own {p q : Progress} {log : List OperationEntry} :
    item.ref = "" → ItemLog σ item place p log q → ShownLog σ item place p log q
  | writtenOut {target : PathItem} {p q r : Progress} {log : List OperationEntry} :
    Reference.isExternal item.ref = true → Reference.canonical item.ref ∉ p.inlining →
    Runs σ (find? PathItem item.ref) p (some target) q →
    ItemLog σ target (Reference.canonical item.ref)
      { q with inlining := Reference.canonical item.ref :: q.inlining } log r →
    ShownLog σ item place p log
      { r with inlining := r.inlining.erase (Reference.canonical item.ref) }
  | accessed {t : TypeExpr} {p q : Progress} :
    item.ref ≠ "" →
    (Reference.isExternal item.ref = false ∨ Reference.canonical item.ref ∈ p.inlining ∨
      ∃ r, Runs σ (find? PathItem item.ref) p none r) →
    Runs σ (pathItemRefType item place) p t q → ShownLog σ item place p [] q

/-- What is declared for an entry of a map of path items. `made` says when its member is made. -/
inductive EntryLog (σ : Setting) (root : List String)
    (made : String → PathItem → Progress → Progress → Prop) :
    String × Option PathItem → Progress → List OperationEntry → Progress → Prop where
  | null {name : String} {p : Progress} : EntryLog σ root made (name, none) p [] p
  | item {name : String} {item : PathItem} {p q r : Progress} {log : List OperationEntry} :
    ShownLog σ item (Reference.join "#" (root ++ [name])) p log q → made name item p r →
    EntryLog σ root made (name, some item) p log r

def PathMade (σ : Setting) (path : String) (item : PathItem) (p q : Progress) : Prop :=
  ∃ members, Runs σ (pathMembers [(path, some item)]) p members q

def WebhookMade (σ : Setting) (name : String) (item : PathItem) (p q : Progress) : Prop :=
  ∃ members, Runs σ (webhookMembers [(name, some item)]) p members q

/-- A path item among the components. -/
def itemComponent (name : String) (item : PathItem) : Component :=
  { name, doc := item.doc, typeAt := namedType pathItemType item }

def ComponentMade (σ : Setting) (name : String) (item : PathItem) (p q : Progress) : Prop :=
  ∃ aliases found,
    Runs σ (componentMembers .pathItems aliases [itemComponent name item]) p found q

/-- The categories that are written before the path items. -/
def earlierCategories : List Category :=
  [.schemas, .responses, .parameters, .requestBodies, .headers]

/-- What is declared for components that may be absent. -/
inductive ComponentsLog (σ : Setting) :
    Option Components → Progress → List OperationEntry → Progress → Prop where
  | absent {p : Progress} : ComponentsLog σ none p [] p
  | present {c : Components} {found : List Member × Aliases} {p q r : Progress}
    {log : List OperationEntry} :
    Runs σ (categoryMembers c {} earlierCategories) p found q →
    Chain (EntryLog σ ["components", "pathItems"] (ComponentMade σ))
      (written σ.options c.pathItems) q log r →
    ComponentsLog σ (some c) p log r

/-- What is declared for a document: for its paths, its webhooks and the path items among its
components. -/
inductive DocumentLog (σ : Setting) (doc : Document) :
    Progress → List OperationEntry → Prop where
  | roots {p p₁ p₂ q : Progress} {paths webhooks components : List OperationEntry} :
    Chain (EntryLog σ ["paths"] (PathMade σ)) (written σ.options doc.paths) p paths p₁ →
    Chain (EntryLog σ ["webhooks"] (WebhookMade σ)) (written σ.options doc.webhooks)
      p₁ webhooks p₂ →
    ComponentsLog σ doc.components p₂ components q →
    DocumentLog σ doc p (paths ++ webhooks ++ components)

/-- A log between two states that accounts for the registry and for the operations accessed. -/
def Logged (spec : Progress → List OperationEntry → Progress → Prop) (p q : Progress)
    (ids : List String) : Prop :=
  ∃ log, spec p log q ∧ q.operations = p.operations.registerAll log ∧ ids = log.map (·.id)

namespace Logged

variable {spec : Progress → List OperationEntry → Progress → Prop}
  {step : ι → Progress → List OperationEntry → Progress → Prop} {ids ids' : List String}

theorem nothing (hspec : spec p [] q) (hoperations : q.operations = p.operations)
    (hids : ids = []) : Logged spec p q ids := ⟨[], hspec, hoperations, hids⟩

theorem cons {x : ι} {rest : List ι} (hfirst : Logged (step x) p q ids)
    (hrest : Logged (Chain step rest) q r ids') :
    Logged (Chain step (x :: rest)) p r (ids ++ ids') := by
  obtain ⟨log, hstep, hq, rfl⟩ := hfirst
  obtain ⟨log', hchain, hr, rfl⟩ := hrest
  refine ⟨log ++ log', .cons hstep hchain, ?_, List.map_append.symm⟩
  rw [OperationRegistry.registerAll_append, ← hq, hr]

theorem weaken {spec' : Progress → List OperationEntry → Progress → Prop} {p' q' : Progress}
    (h : Logged spec p q ids) (hp : p.operations = p'.operations)
    (hq : q'.operations = q.operations) (hspec : ∀ log, spec p log q → spec' p' log q') :
    Logged spec' p' q' ids := by
  obtain ⟨log, hlog, hoperations, hids⟩ := h
  exact ⟨log, hspec log hlog, by rw [hq, hoperations, hp], hids⟩

end Logged

/-! What each step declares. -/

theorem Runs.registerOperation_operations {e : OperationEntry}
    (h : Runs σ (registerOperation e) p () q) : q.operations = p.operations.registerAll [e] := by
  obtain ⟨_, r, hmodify, hrest⟩ := Runs.bind_iff.mp h.get_bind
  have hr : r.operations = p.operations.registerAll [e] := by
    cases hmodify
    rfl
  rw [← hr]
  split at hrest
  · obtain ⟨-, rfl⟩ := Runs.pure_iff.mp hrest
    rfl
  · have hafter := hrest.options_bind
    split at hafter
    · cases hafter
    · exact hafter.operations_eq fun O => .warn _ _ _

section Items

variable (hσ : HookFree σ)

include hσ

/-- The type of an operation declares nothing and accesses no operation. -/
theorem operationType_runs {item : PathItem} {o : Operation} {method : Method} {place : String}
    {t : TypeExpr} (hp : Valid w p) (hitem : w.Reaches (.pathItem item))
    (ho : shownOperation? σ.options item method = some o)
    (h : Runs σ (operationType item o place method) p t q) :
    q.operations = p.operations ∧ operationIds t.uses = [] := by
  have hparallel (O) := operationType_parallel (O := O) hσ (PathItem.Alike.refl item)
    (Operation.Alike.refl o) place method
  obtain ⟨r, hr, htyped⟩ := h.of_no_operations hparallel
    (fun _ => operationType_ensures hσ hitem ho place) hp
  exact ⟨h.operations_eq hparallel, operationIds_eq_nil htyped hr⟩

theorem parametersMember_runs {parameters : List (Option Parameter)} {place : String} {m : Member}
    (hp : Valid w p) (hparameters : HeldParameters w parameters)
    (h : Runs σ (parametersMember parameters place) p m q) :
    q.operations = p.operations ∧ operationIds m.uses = [] := by
  have hrefl : List.Forall₂ (Option.Rel (Parameter.Alike σ.options.alphabetize)) parameters
      parameters := List.forall₂_same.mpr fun x _ => optionRel_refl Parameter.Alike.refl x
  have hparallel (O) := parametersMember_parallel (O := O) hσ hrefl place
  obtain ⟨r, hr, htyped⟩ := h.of_no_operations hparallel
    (fun _ => parametersMember_ensures hσ hparameters place) hp
  exact ⟨h.operations_eq hparallel, operationIds_eq_nil htyped hr⟩

/-- A method accesses the operation that it declares. -/
theorem methodMember_logged {item : PathItem} {place : String} {method : Method} {m : Member}
    (hp : Valid w p) (hitem : w.Reaches (.pathItem item))
    (h : Runs σ (methodMember item place method) p m q) :
    Logged (MethodLog σ item place method) p q (operationIds m.uses) := by
  rw [methodMember_eq] at h
  have hshown := h.options_bind
  split at hshown
  · rename_i hnone
    obtain ⟨rfl, rfl⟩ := Runs.pure_iff.mp hshown
    exact .nothing (.absent hnone) rfl rfl
  · rename_i o ho
    obtain ⟨t, r, htype, hrest⟩ := Runs.bind_iff.mp hshown
    obtain ⟨declared, r', hdeclared, hlast⟩ := Runs.bind_iff.mp hrest
    obtain ⟨rfl, rfl⟩ := Runs.pure_iff.mp hlast
    obtain ⟨hr, hids⟩ := operationType_runs hσ hp hitem ho htype
    unfold declaredType at hdeclared
    split at hdeclared
    · rename_i hid
      obtain ⟨rfl, rfl⟩ := Runs.pure_iff.mp hdeclared
      exact .nothing (.unnamed ho hid htype) hr hids
    · rename_i hid
      obtain ⟨_, r₁, hregister, hpure⟩ := Runs.bind_iff.mp hdeclared
      obtain ⟨rfl, rfl⟩ := Runs.pure_iff.mp hpure
      refine ⟨_, .named ho hid htype hregister, ?_, rfl⟩
      rw [← hr]
      exact hregister.registerOperation_operations

/-- A path item accesses the operations that it declares. -/
theorem pathItemType_logged {item : PathItem} {place : String} {t : TypeExpr} (hp : Valid w p)
    (hitem : w.Reaches (.pathItem item)) (h : Runs σ (pathItemType item place) p t q) :
    Logged (ItemLog σ item place) p q (operationIds t.uses) := by
  have hmethods (methods : List Method) (p q : Progress) (hp : Valid w p) (members : List Member)
      (h : Runs σ (methods.mapM (methodMember item place)) p members q) :
      Logged (Chain (MethodLog σ item place) methods) p q
        (members.flatMap fun m => operationIds m.uses) := by
    induction methods generalizing p members with
    | nil =>
      rw [List.mapM_nil] at h
      obtain ⟨rfl, rfl⟩ := Runs.pure_iff.mp h
      exact .nothing .nil rfl rfl
    | cons method rest ih =>
      rw [List.mapM_cons] at h
      obtain ⟨m, r, hfirst, h⟩ := Runs.bind_iff.mp h
      obtain ⟨others, r', hrest, h⟩ := Runs.bind_iff.mp h
      obtain ⟨rfl, rfl⟩ := Runs.pure_iff.mp h
      have hr := (hfirst.of_valid (methodMember_ensures hσ hitem place method) hp).1
      exact (methodMember_logged hσ hp hitem hfirst).cons (ih r hr others hrest)
  have hshared : HeldParameters w (item.parameters.getD []) :=
    .of_objects fun x hx => .part hitem (List.mem_append_left _ hx)
  obtain ⟨shared, r, hparameters, h⟩ := Runs.bind_iff.mp h
  obtain ⟨methods, r', hrest, h⟩ := Runs.bind_iff.mp h
  obtain ⟨rfl, rfl⟩ := Runs.pure_iff.mp h
  obtain ⟨hr, hids⟩ := parametersMember_runs hσ hp hshared hparameters
  have hvalid := (hparameters.of_valid (parametersMember_ensures hσ hshared _) hp).1
  rw [operationIds_object, List.flatMap_cons, hids, List.nil_append]
  exact (hmethods Method.all r r' hvalid methods hrest).weaken hr rfl
    fun log hlog => .methods hparameters hlog

end Items

/-- A dangling reference is an unknown type. -/
theorem Runs.unresolved_eq {ref place : String} {t : TypeExpr}
    (h : Runs σ (unresolved ref place) p t q) : t = .unknown ∧ q.operations = p.operations := by
  refine ⟨?_, h.operations_eq fun O => .unresolved ref place⟩
  have hrest := h.options_bind
  split at hrest
  · cases hrest
  · obtain ⟨_, r, -, hpure⟩ := Runs.bind_iff.mp hrest
    exact (Runs.pure_iff.mp hpure).1.symm

/-- A reference is written out, or it is accessed by its name or unknown. -/
theorem refType_cases [Referable α] [Comparable α] {inline : α → String → Typing TypeExpr}
    {ref place : String} {t : TypeExpr} (h : Runs σ (refType inline ref place) p t q) :
    (Reference.isExternal ref = true ∧ Reference.canonical ref ∉ p.inlining ∧
      ∃ target r, Runs σ (find? α ref) p (some target) r ∧
        Runs σ (inliningRef (Reference.canonical ref)
          (inline target (Reference.canonical ref))) r t q) ∨
    (Reference.isExternal ref = false ∨ Reference.canonical ref ∈ p.inlining ∨
      ∃ r, Runs σ (find? α ref) p none r) ∧ q.operations = p.operations ∧
      (t = .unknown ∨ Reference.isExternal ref = false ∧ p.resolver.exists? ref = true ∧
        t = Reference.toType ref) := by
  unfold refType at h
  cases hexternal : Reference.isExternal ref with
  | false =>
    rw [if_pos (by rw [hexternal]; rfl)] at h
    have hhere := h.get_bind
    split at hhere
    · rename_i hexists
      obtain ⟨rfl, rfl⟩ := Runs.pure_iff.mp hhere
      exact .inr ⟨.inl rfl, rfl, .inr ⟨rfl, hexists, rfl⟩⟩
    · obtain ⟨ht, hq⟩ := hhere.unresolved_eq
      exact .inr ⟨.inl rfl, hq, .inl ht⟩
  | true =>
    rw [if_neg (by rw [hexternal]; decide)] at h
    have hhere := h.get_bind
    split at hhere
    · rename_i hcycle
      obtain ⟨_, r, hwarn, hpure⟩ := Runs.bind_iff.mp hhere
      obtain ⟨rfl, rfl⟩ := Runs.pure_iff.mp hpure
      exact .inr ⟨.inr (.inl (by simpa using hcycle)),
        hwarn.operations_eq fun O => .warn _ _ _, .inl rfl⟩
    · rename_i hnew
      obtain ⟨found, r, hfind, hrest⟩ := Runs.bind_iff.mp hhere
      cases found with
      | none =>
        obtain ⟨ht, hq⟩ := hrest.unresolved_eq
        exact .inr ⟨.inr (.inr ⟨r, hfind⟩), hq.trans (hfind.operations_eq fun O => .find? ref),
          .inl ht⟩
      | some target => exact .inl ⟨rfl, by simpa using hnew, target, r, hfind, hrest⟩

/-- A path item that may be a reference accesses the operations that it declares. -/
theorem pathItemRefType_logged (hσ : HookFree σ) {item : PathItem} {place : String} {t : TypeExpr}
    (hp : Valid w p) (hitem : w.Reaches (.pathItem item))
    (h : Runs σ (pathItemRefType item place) p t q) :
    Logged (ShownLog σ item place) p q (operationIds t.uses) := by
  have hrun := h
  have hasks : w.Asks item.ref := Source.Asks.held hitem
  unfold pathItemRefType at h
  split at h
  · rename_i hown
    exact (pathItemType_logged hσ hp hitem h).weaken rfl rfl fun log hlog => .own hown hlog
  · rename_i href
    rcases refType_cases h with ⟨hexternal, hnew, target, r, hfind, hinline⟩ |
      ⟨hcase, hoperations, htype⟩
    · obtain ⟨r', hwritten, rfl⟩ := Runs.inliningRef_iff.mp hinline
      obtain ⟨hr, -, htarget⟩ := hfind.of_valid (find?_ensures hasks) hp
      have hvalid : Valid w { r with inlining := Reference.canonical item.ref :: r.inlining } :=
        hr.carry ⟨fun _ h => h, fun _ h => h, id⟩ hr.knows rfl rfl
      exact (pathItemType_logged hσ hvalid (htarget target rfl).finds.reaches hwritten).weaken
        (hfind.operations_eq fun O => .find? item.ref) rfl
        fun log hlog => .writtenOut hexternal hnew hfind hlog
    · refine .nothing (.accessed href hcase hrun) hoperations ?_
      rcases htype with hunknown | ⟨hlocal, hexists, hnamed⟩
      · rw [hunknown]
        rfl
      · rw [hnamed]
        exact operationIds_eq_nil (p := { p with operations := .empty })
          (typed_toType hp.knows hasks hlocal hexists) rfl

/-! Maps of path items. -/

/-- The members for path items are made one after the other. -/
theorem itemMembers_logged {run : List (String × Option PathItem) → Typing (List Member)}
    {root : List String} {made : String → PathItem → Progress → Progress → Prop}
    (hcons : ∀ entry rest, run (entry :: rest) = do
      let members ← run [entry]
      return members ++ (← run rest))
    (hnil : run [] = pure []) (hnull : ∀ name, run [(name, none)] = pure [])
    (hitem : ∀ name item p q members, w.Reaches (.pathItem item) → Valid w p →
      Runs σ (run [(name, some item)]) p members q →
      Valid w q ∧ Logged (EntryLog σ root made (name, some item)) p q (memberIds members))
    (listed : List (String × Option PathItem))
    (hlisted : ∀ name x, (name, some x) ∈ listed → w.Reaches (.pathItem x))
    {members : List Member} (hp : Valid w p) (h : Runs σ (run listed) p members q) :
    Logged (Chain (EntryLog σ root made) listed) p q (memberIds members) := by
  induction listed generalizing p members with
  | nil =>
    rw [hnil] at h
    obtain ⟨rfl, rfl⟩ := Runs.pure_iff.mp h
    exact .nothing .nil rfl rfl
  | cons entry rest ih =>
    rw [hcons] at h
    obtain ⟨first, r, hfirst, h⟩ := Runs.bind_iff.mp h
    obtain ⟨others, r', hrest, h⟩ := Runs.bind_iff.mp h
    obtain ⟨rfl, rfl⟩ := Runs.pure_iff.mp h
    have hstep : Valid w r ∧ Logged (EntryLog σ root made entry) p r (memberIds first) := by
      obtain ⟨name, item⟩ := entry
      cases item with
      | none =>
        rw [hnull] at hfirst
        obtain ⟨rfl, rfl⟩ := Runs.pure_iff.mp hfirst
        exact ⟨hp, .nothing .null rfl rfl⟩
      | some item =>
        exact hitem name item p r first (hlisted name item List.mem_cons_self) hp hfirst
    have hothers (name : String) (x : PathItem) (hx : (name, some x) ∈ rest) :=
      hlisted name x (List.mem_cons_of_mem _ hx)
    rw [memberIds, List.flatMap_append]
    exact hstep.2.cons (ih hothers hstep.1 hrest)

theorem pathMembers_cons (entry : String × Option PathItem)
    (rest : List (String × Option PathItem)) :
    pathMembers (entry :: rest) = do
      let members ← pathMembers [entry]
      return members ++ (← pathMembers rest) := by
  obtain ⟨path, item⟩ := entry
  cases item with
  | none => simp [pathMembers]
  | some item =>
    simp only [pathMembers, bind_assoc, pure_bind]
    congr 1
    funext t
    congr 1
    funext options
    split <;> simp

theorem webhookMembers_cons (entry : String × Option PathItem)
    (rest : List (String × Option PathItem)) :
    webhookMembers (entry :: rest) = do
      let members ← webhookMembers [entry]
      return members ++ (← webhookMembers rest) := by
  obtain ⟨name, item⟩ := entry
  cases item with
  | none => simp [webhookMembers]
  | some item => simp [webhookMembers]

theorem componentMembers_cons (category : Category) (aliases : Aliases) (k : Component)
    (rest : List Component) :
    componentMembers category aliases (k :: rest) = do
      let first ← componentMembers category aliases [k]
      let others ← componentMembers category first.2 rest
      return (first.1 ++ others.1, others.2) := by
  simp only [componentMembers, bind_assoc, pure_bind]
  congr 1
  funext options
  split <;> simp

theorem namedType_pathItemType (item : PathItem) (place : String) :
    namedType pathItemType item place = pathItemRefType item place := by
  unfold namedType pathItemRefType
  change (if item.ref = "" then pathItemType item else refType pathItemType item.ref) place = _
  split <;> rfl

theorem addAlias_kept (category : Category) (name place : String) (aliases : Aliases) :
    Ensures w σ p (addAlias category name place aliases) fun _ _ => True := by
  apply Ensures.options_bind
  dsimp only
  split
  · exact .pure trivial
  · split
    · exact Ensures.bind (.warn _ _ _) fun _ _ _ _ => .pure trivial
    · exact .pure trivial

section Maps

variable (hσ : HookFree σ)

include hσ

theorem PathMade.valid {path : String} {item : PathItem} (hp : Valid w p)
    (hitem : w.Reaches (.pathItem item)) (h : PathMade σ path item p q) : Valid w q := by
  obtain ⟨members, hrun⟩ := h
  refine (hrun.of_valid (pathMembers_ensures hσ _ fun name x hx => ?_) hp).1
  cases List.mem_singleton.mp hx
  exact hitem

theorem WebhookMade.valid {name : String} {item : PathItem} (hp : Valid w p)
    (hitem : w.Reaches (.pathItem item)) (h : WebhookMade σ name item p q) : Valid w q := by
  obtain ⟨members, hrun⟩ := h
  refine (hrun.of_valid (webhookMembers_ensures hσ _ fun name x hx => ?_) hp).1
  cases List.mem_singleton.mp hx
  exact hitem

/-- The member for a path accesses what its path item declares. -/
theorem pathMember_logged {path : String} {item : PathItem} {members : List Member}
    (hp : Valid w p) (hitem : w.Reaches (.pathItem item))
    (h : Runs σ (pathMembers [(path, some item)]) p members q) :
    Logged (EntryLog σ ["paths"] (PathMade σ) (path, some item)) p q (memberIds members) := by
  have hmade : PathMade σ path item p q := ⟨members, h⟩
  rw [pathMembers] at h
  obtain ⟨t, r, htype, h⟩ := Runs.bind_iff.mp h
  have hfinish (hids : memberIds members = operationIds t.uses)
      (hq : q.operations = r.operations) :
      Logged (EntryLog σ ["paths"] (PathMade σ) (path, some item)) p q (memberIds members) := by
    rw [hids]
    exact (pathItemRefType_logged hσ hp hitem htype).weaken rfl hq fun log hlog => .item hlog hmade
  replace h := h.options_bind
  dsimp only at h
  split at h
  · obtain ⟨resolved, r₁, hresolved, h⟩ := Runs.bind_iff.mp h
    obtain ⟨types, r₂, htypes, h⟩ := Runs.bind_iff.mp h
    rw [pathMembers, pure_bind] at h
    obtain ⟨rfl, rfl⟩ := Runs.pure_iff.mp h
    have hr₁ := hresolved.operations_eq fun O => resolvedItem_parallel (PathItem.Alike.refl item)
    have hr₂ := htypes.operations_eq fun O => pathParamTypes_parallel (PathItem.Alike.refl resolved)
    exact hfinish (memberIds_singleton _) (hr₂.trans hr₁)
  · rw [pathMembers, pure_bind] at h
    obtain ⟨rfl, rfl⟩ := Runs.pure_iff.mp h
    exact hfinish (memberIds_singleton _) rfl

theorem webhookMember_logged {name : String} {item : PathItem} {members : List Member}
    (hp : Valid w p) (hitem : w.Reaches (.pathItem item))
    (h : Runs σ (webhookMembers [(name, some item)]) p members q) :
    Logged (EntryLog σ ["webhooks"] (WebhookMade σ) (name, some item)) p q
      (memberIds members) := by
  have hmade : WebhookMade σ name item p q := ⟨members, h⟩
  rw [webhookMembers] at h
  obtain ⟨t, r, htype, h⟩ := Runs.bind_iff.mp h
  rw [webhookMembers, pure_bind] at h
  obtain ⟨rfl, rfl⟩ := Runs.pure_iff.mp h
  rw [memberIds_singleton]
  exact (pathItemRefType_logged hσ hp hitem htype).weaken rfl rfl
    fun log hlog => .item hlog hmade

/-- The paths access the operations that they declare. -/
theorem pathMembers_logged (listed : List (String × Option PathItem))
    (hlisted : ∀ name x, (name, some x) ∈ listed → w.Reaches (.pathItem x))
    {members : List Member} (hp : Valid w p) (h : Runs σ (pathMembers listed) p members q) :
    Logged (Chain (EntryLog σ ["paths"] (PathMade σ)) listed) p q (memberIds members) := by
  refine itemMembers_logged pathMembers_cons rfl (fun _ => rfl) ?_ listed hlisted hp h
  intro path item p q members hitem hp hrun
  exact ⟨PathMade.valid hσ hp hitem ⟨members, hrun⟩, pathMember_logged hσ hp hitem hrun⟩

/-- The webhooks access the operations that they declare. -/
theorem webhookMembers_logged (listed : List (String × Option PathItem))
    (hlisted : ∀ name x, (name, some x) ∈ listed → w.Reaches (.pathItem x))
    {members : List Member} (hp : Valid w p) (h : Runs σ (webhookMembers listed) p members q) :
    Logged (Chain (EntryLog σ ["webhooks"] (WebhookMade σ)) listed) p q (memberIds members) := by
  refine itemMembers_logged webhookMembers_cons rfl (fun _ => rfl) ?_ listed hlisted hp h
  intro name item p q members hitem hp hrun
  exact ⟨WebhookMade.valid hσ hp hitem ⟨members, hrun⟩, webhookMember_logged hσ hp hitem hrun⟩

/-- The member for a path item among the components accesses what it declares. -/
theorem itemComponent_logged {aliases : Aliases} {name : String} {item : PathItem}
    {found : List Member × Aliases} (hp : Valid w p) (hitem : w.Reaches (.pathItem item))
    (h : Runs σ (componentMembers .pathItems aliases [itemComponent name item]) p found q) :
    Valid w q ∧ Logged (EntryLog σ ["components", "pathItems"] (ComponentMade σ)
      (name, some item)) p q (memberIds found.1) := by
  have hmade : ComponentMade σ name item p q := ⟨aliases, found, h⟩
  rw [componentMembers] at h
  replace h := h.options_bind
  -- A path item is never deprecated as a whole.
  have hkept : ¬ (σ.options.excludeDeprecated && (itemComponent name item).deprecated) = true := by
    simp [itemComponent]
  rw [if_neg hkept] at h
  obtain ⟨t, r, htype, h⟩ := Runs.bind_iff.mp h
  rw [Runs, exec_typeHook_bind hσ] at h
  obtain ⟨aliases', r', halias, h⟩ := Runs.bind_iff.mp h
  rw [componentMembers, pure_bind] at h
  obtain ⟨rfl, rfl⟩ := Runs.pure_iff.mp h
  change Runs σ (namedType pathItemType item
    (Reference.join "#" ["components", "pathItems", name])) p t r at htype
  rw [namedType_pathItemType] at htype
  have hr := (htype.of_valid (pathItemRefType_ensures hσ hitem _) hp).1
  refine ⟨(halias.of_valid (addAlias_kept _ _ _ _) hr).1, ?_⟩
  rw [memberIds_singleton]
  exact (pathItemRefType_logged hσ hp hitem htype).weaken rfl
    (halias.operations_eq fun O => addAlias_parallel _ _ _ _) fun log hlog => .item hlog hmade

theorem ComponentMade.valid {name : String} {item : PathItem} (hp : Valid w p)
    (hitem : w.Reaches (.pathItem item)) (h : ComponentMade σ name item p q) : Valid w q := by
  obtain ⟨aliases, found, hrun⟩ := h
  exact (itemComponent_logged hσ hp hitem hrun).1

/-- The path items among the components access the operations that they declare. -/
theorem itemComponents_logged (listed : List (String × Option PathItem))
    (hlisted : ∀ name x, (name, some x) ∈ listed → w.Reaches (.pathItem x)) {aliases : Aliases}
    {found : List Member × Aliases} (hp : Valid w p)
    (h : Runs σ (componentMembers .pathItems aliases
      (listed.filterMap fun (name, x) => x.map (itemComponent name))) p found q) :
    Logged (Chain (EntryLog σ ["components", "pathItems"] (ComponentMade σ)) listed) p q
      (memberIds found.1) := by
  induction listed generalizing p aliases found with
  | nil =>
    obtain ⟨rfl, rfl⟩ := Runs.pure_iff.mp h
    exact .nothing .nil rfl rfl
  | cons entry rest ih =>
    have hrest (name : String) (x : PathItem) (hx : (name, some x) ∈ rest) :=
      hlisted name x (List.mem_cons_of_mem _ hx)
    obtain ⟨name, item⟩ := entry
    cases item with
    | none =>
      have hnull : Logged (EntryLog σ ["components", "pathItems"] (ComponentMade σ)
        (name, none)) p p [] := .nothing .null rfl rfl
      simp only [List.filterMap_cons, Option.map_none] at h
      have hall := hnull.cons (ih hrest hp h)
      rwa [List.nil_append] at hall
    | some item =>
      simp only [List.filterMap_cons, Option.map_some] at h
      rw [componentMembers_cons] at h
      obtain ⟨first, r, hfirst, h⟩ := Runs.bind_iff.mp h
      obtain ⟨others, r', hothers, h⟩ := Runs.bind_iff.mp h
      obtain ⟨rfl, rfl⟩ := Runs.pure_iff.mp h
      obtain ⟨hr, hlogged⟩ := itemComponent_logged hσ hp (hlisted name item List.mem_cons_self)
        hfirst
      rw [memberIds, List.flatMap_append]
      exact hlogged.cons (ih hrest hr hothers)

end Maps

/-! The roots. -/

theorem categoryMembers_append (c : Components) (aliases : Aliases)
    (categories later : List Category) :
    categoryMembers c aliases (categories ++ later) = do
      let first ← categoryMembers c aliases categories
      let others ← categoryMembers c first.2 later
      return (first.1 ++ others.1, others.2) := by
  induction categories generalizing aliases with
  | nil => simp [categoryMembers]
  | cons category rest ih => simp [categoryMembers, ih]

/-- The members below one of the members of an object type. -/
def membersUnder (key : String) (members : List Member) : List Member :=
  members.flatMap fun
    | .property name _ _ (.object inner) _ => if name = key then inner else []
    | _ => []

theorem membersUnder_plain (key name : String) (items : List Member) :
    membersUnder key [.plain name (if items.isEmpty then .never else .object items)] =
      if name = key then items else [] := by
  cases items with
  | nil => exact (ite_self []).symm
  | cons m rest => simp [membersUnder, Member.plain]

theorem membersUnder_append (key : String) (members others : List Member) :
    membersUnder key (members ++ others) = membersUnder key members ++ membersUnder key others :=
  List.flatMap_append

/-- The categories before the path items are none of path items. -/
theorem membersUnder_earlier {c : Components} {options : Options} {members : List Member}
    (h : List.Forall₂ (IsCategory c options) earlierCategories members) :
    membersUnder Category.pathItems.name members = [] := by
  have hall (categories : List Category) (hcategories : .pathItems ∉ categories)
      (members : List Member) (h : List.Forall₂ (IsCategory c options) categories members) :
      membersUnder Category.pathItems.name members = [] := by
    induction h with
    | nil => rfl
    | @cons category m rest others hfirst _ ih =>
      obtain ⟨items, rfl, -⟩ := hfirst
      have hname : category.name ≠ Category.pathItems.name := by
        intro hname
        cases category with
        | pathItems => exact hcategories List.mem_cons_self
        | _ => exact absurd hname (by decide)
      rw [← List.singleton_append, membersUnder_append, membersUnder_plain, if_neg hname,
        ih fun hmem => hcategories (List.mem_cons_of_mem _ hmem)]
      rfl
  exact hall earlierCategories (by decide) members h

section Roots

variable (hσ : HookFree σ)

include hσ

/-- The categories before the path items declare nothing. -/
theorem earlierCategories_runs {c : Components} {found : List Member × Aliases}
    (hp : Valid w p) (hc : ∀ o ∈ c.objects, w.Reaches o)
    (h : Runs σ (categoryMembers c {} earlierCategories) p found q) :
    Valid w q ∧ q.operations = p.operations ∧
      membersUnder Category.pathItems.name found.1 = [] := by
  obtain ⟨hq, -, -, hcategories, -⟩ :=
    h.of_valid (categoryMembers_ensures hσ hc earlierCategories {} nofun) hp
  have hparallel (O) := categoryMembers_parallel (O := O) hσ (Components.Alike.refl c)
    earlierCategories (fun hmem => absurd hmem (by decide)) {}
  exact ⟨hq, h.operations_eq hparallel, membersUnder_earlier hcategories⟩

/-- The components access the operations that they declare, all below their path items. -/
theorem optionalComponentsType_logged {components : Option Components}
    {found : TypeExpr × List Decl} (hp : Valid w p)
    (hcomponents : ∀ o ∈ components.elim [] Components.objects, w.Reaches o)
    (h : Runs σ (optionalComponentsType components) p found q) :
    Logged (ComponentsLog σ components) p q
      (memberIds (membersUnder Category.pathItems.name (found.1.members?.getD []))) := by
  cases components with
  | none =>
    obtain ⟨rfl, rfl⟩ := Runs.pure_iff.mp h
    exact .nothing .absent rfl rfl
  | some c =>
    obtain ⟨all, r, hall, h⟩ := Runs.bind_iff.mp h
    obtain ⟨rfl, rfl⟩ := Runs.pure_iff.mp h
    change Runs σ (categoryMembers c {} (earlierCategories ++ [.pathItems])) p all r at hall
    rw [categoryMembers_append] at hall
    obtain ⟨first, r₁, hfirst, hall⟩ := Runs.bind_iff.mp hall
    obtain ⟨others, r₂, hothers, hall⟩ := Runs.bind_iff.mp hall
    obtain ⟨rfl, rfl⟩ := Runs.pure_iff.mp hall
    obtain ⟨hr₁, hquiet, hunder⟩ := earlierCategories_runs hσ hp hcomponents hfirst
    rw [categoryMembers] at hothers
    obtain ⟨listed, r₃, hlisted, hothers⟩ := Runs.bind_iff.mp hothers
    obtain ⟨rfl, rfl⟩ := Runs.pure_iff.mp hlisted.entries_bind
    obtain ⟨⟨items, aliases⟩, r₄, hitems, hothers⟩ := Runs.bind_iff.mp hothers
    dsimp only at hothers
    rw [categoryMembers, pure_bind] at hothers
    obtain ⟨rfl, rfl⟩ := Runs.pure_iff.mp hothers
    have hheld : Held w .pathItem c.pathItems :=
      .of_objects fun o ho => hcomponents o (by simp [Components.objects, ho])
    have hlogged := itemComponents_logged hσ (written σ.options c.pathItems)
      (fun name x hx => hheld name x (mem_written hx)) hr₁ hitems
    have hids : membersUnder Category.pathItems.name (first.1 ++ [.plain Category.pathItems.name
        (if items.isEmpty then .never else .object items)]) = items := by
      rw [membersUnder_append, hunder, membersUnder_plain, if_pos rfl, List.nil_append]
    change Logged _ p r₄ (memberIds (membersUnder Category.pathItems.name (first.1 ++
      [.plain Category.pathItems.name (if items.isEmpty then .never else .object items)])))
    rw [hids]
    exact hlogged.weaken hquiet rfl fun log hlog => .present hfirst hlog

theorem pathsType_logged {paths : Option PathItems} {t : TypeExpr} (hp : Valid w p)
    (hpaths : Held w .pathItem paths) (h : Runs σ (pathsType paths) p t q) :
    Logged (Chain (EntryLog σ ["paths"] (PathMade σ)) (written σ.options paths)) p q
      (memberIds (t.members?.getD [])) := by
  obtain ⟨members, r, hmembers, hpure⟩ := Runs.bind_iff.mp h.entries_bind
  obtain ⟨rfl, rfl⟩ := Runs.pure_iff.mp hpure
  rw [members?_objectOrEmpty]
  exact pathMembers_logged hσ _ (fun name x hx => hpaths name x (mem_written hx)) hp hmembers

theorem webhooksType_logged {webhooks : Option PathItems} {t : TypeExpr} (hp : Valid w p)
    (hwebhooks : Held w .pathItem webhooks) (h : Runs σ (webhooksType webhooks) p t q) :
    Logged (Chain (EntryLog σ ["webhooks"] (WebhookMade σ)) (written σ.options webhooks)) p q
      (memberIds (t.members?.getD [])) := by
  obtain ⟨members, r, hmembers, hpure⟩ := Runs.bind_iff.mp h.entries_bind
  obtain ⟨rfl, rfl⟩ := Runs.pure_iff.mp hpure
  rw [members?_objectOrEmpty]
  exact webhookMembers_logged hσ _ (fun name x hx => hwebhooks name x (mem_written hx)) hp hmembers

/-- The roots access the operations that are declared for the document, each below a path item. -/
theorem documentRoots_logged {roots : Roots} (hp : Valid w p)
    (h : Runs σ (documentRoots w.doc) p roots q) :
    Logged (fun p log _ => DocumentLog σ w.doc p log) p q
      (memberIds (roots.paths.members?.getD []) ++ memberIds (roots.webhooks.members?.getD []) ++
        memberIds (membersUnder Category.pathItems.name (roots.components.members?.getD []))) := by
  have hobjects (o : Object) (h : o ∈ w.doc.objects) : w.Reaches o := .root h
  simp only [Document.objects, List.mem_append] at hobjects
  have hheldPaths : Held w .pathItem w.doc.paths :=
    .of_objects fun o ho => hobjects o (by simp [ho])
  have hheldWebhooks : Held w .pathItem w.doc.webhooks :=
    .of_objects fun o ho => hobjects o (by simp [ho])
  have hheldComponents (o : Object) (ho : o ∈ w.doc.components.elim [] Components.objects) :
      w.Reaches o := hobjects o (by simp [ho])
  obtain ⟨paths, p₁, hpaths, h⟩ := Runs.bind_iff.mp h
  obtain ⟨webhooks, p₂, hwebhooks, h⟩ := Runs.bind_iff.mp h
  obtain ⟨⟨components, aliases⟩, p₃, hcomponents, h⟩ := Runs.bind_iff.mp h
  obtain ⟨definitions, p₄, hdefinitions, h⟩ := Runs.bind_iff.mp h
  obtain ⟨rfl, rfl⟩ := Runs.pure_iff.mp h
  have hp₁ := (hpaths.of_valid (pathsType_ensures hσ hheldPaths) hp).1
  have hp₂ := (hwebhooks.of_valid (webhooksType_ensures hσ hheldWebhooks) hp₁).1
  obtain ⟨log₁, hlog₁, hoperations₁, hids₁⟩ := pathsType_logged hσ hp hheldPaths hpaths
  obtain ⟨log₂, hlog₂, hoperations₂, hids₂⟩ := webhooksType_logged hσ hp₁ hheldWebhooks hwebhooks
  obtain ⟨log₃, hlog₃, hoperations₃, hids₃⟩ :=
    optionalComponentsType_logged hσ hp₂ hheldComponents hcomponents
  have hquiet := hdefinitions.operations_eq fun O =>
    definitionsType_parallel hσ (mapRel_refl Schema.Alike.refl _)
  refine ⟨log₁ ++ log₂ ++ log₃, .roots hlog₁ hlog₂ hlog₃, ?_, ?_⟩
  · rw [OperationRegistry.registerAll_append, OperationRegistry.registerAll_append, ← hoperations₁,
      ← hoperations₂, ← hoperations₃, hquiet]
  · rw [hids₁, hids₂, hids₃, List.map_append, List.map_append]

end Roots

end Typing

end ApiTypes
