import ApiTypes.Proofs.Typing.DocumentJudgement
import ApiTypes.Proofs.Typing.Registrations

/-!
The operations that a document emits, in turn, and what a run declares of them. The run of an action
declares the operations with an id, up to where it fails if it does. A run in which ids are strict
does the same as long as no id is used at two places, and otherwise fails at the first such
declaration.

No condition on the hooks is needed. Path items of other documents are left aside: what they hold is
known only when they are met.
-/

namespace ApiTypes

/-- An operation at the place of its path item. -/
structure Emission where
  place : String
  method : Method
  operation : Operation

/-- What is known of the declaration of an operation before its type is made. -/
structure Declaration where
  id : String
  place : String
  method : String
  deriving DecidableEq, Repr

/-- The declaration of an operation, if it has an id. -/
def Emission.declaration? (e : Emission) : Option Declaration :=
  if e.operation.operationId = "" then none
  else some ⟨e.operation.operationId, e.place, e.method.name⟩

def OperationEntry.declaration (e : OperationEntry) : Declaration := ⟨e.id, e.place, e.method⟩

/-- The path items of a document, those of its paths, of its webhooks and among its components. -/
def Document.pathItems (doc : Document) : List PathItem :=
  (entriesOf doc.paths ++ entriesOf doc.webhooks ++
    entriesOf (doc.components.bind (·.pathItems))).filterMap (·.2)

namespace Typing

variable {α β ι : Type} {σ : Setting} {p : Progress}

/-- The operation that is emitted for a method of a path item, if there is one. -/
def emission? (options : Options) (item : PathItem) (place : String) (method : Method) :
    Option Emission := (shownOperation? options item method).map (Emission.mk place method)

/-- The operations that are emitted at a path item. One that is a reference into the document at
hand has none: it is accessed by its name. -/
def itemEmissions (options : Options) (item : PathItem) (place : String) : List Emission :=
  if item.ref = "" then Method.all.filterMap (emission? options item place) else []

/-- The operations that are emitted for an entry below a root. -/
def entryEmissions (options : Options) (root : List String) (entry : String × Option PathItem) :
    List Emission :=
  entry.2.elim [] fun item => itemEmissions options item (Reference.join "#" (root ++ [entry.1]))

/-- The operations that are emitted below a root, in the order of writing. -/
def rootEmissions (options : Options) (root : List String) (items : Option PathItems) :
    List Emission := (written options items).flatMap (entryEmissions options root)

/-- The operations that are emitted for a document, in the order of writing. -/
def emissions (options : Options) (doc : Document) : List Emission :=
  rootEmissions options ["paths"] doc.paths ++ rootEmissions options ["webhooks"] doc.webhooks ++
    rootEmissions options ["components", "pathItems"] (doc.components.bind (·.pathItems))

/-- The declarations among some operations. -/
def declarations (list : List Emission) : List Declaration :=
  list.filterMap Emission.declaration?

/-- The setting in which an id that is used twice is reported, or in which it fails. -/
def strictly (σ : Setting) (strict : Bool) : Setting :=
  { σ with options := { σ.options with strictOperationIds := strict } }

/-- How two runs from one state end of which the second one is strict, if the first declares the
operations of a log. -/
structure Declared (keys : List Declaration) (p : Progress) (log : List OperationEntry)
    (relaxed strict : Except TypingError α × Progress) : Prop where
  operations : relaxed.2.operations = p.operations.registerAll log
  upTo : log.map (·.declaration) <+: keys
  all : ∀ x, relaxed.1 = .ok x → log.map (·.declaration) = keys
  same : p.operations.clash? log = none → strict = relaxed
  quiet : p.operations.clash? log = none →
    ∀ warning ∈ relaxed.2.warnings, warning.kind = .duplicateOperationId → warning ∈ p.warnings
  stops : ∀ earlier later, p.operations.clash? log = some (earlier, later) →
    strict.1 = .error (.duplicateOperationId earlier later)

/-- From every state, runs of the action declare operations with the given keys, and what they give
satisfies `post`. -/
structure Declares (σ : Setting) (act : Typing α) (keys : List Declaration) (post : α → Prop) :
    Prop where
  declared : ∀ p, ∃ log,
    Declared keys p log (exec act (strictly σ false) p) (exec act (strictly σ true) p)
  gives : Gives (strictly σ false) act post

namespace Declares

/-- An action that does the same in both modes, declares nothing and reports no id in use. -/
theorem of_eq {act : Typing α} {post : α → Prop}
    (hsame : ∀ p, exec act (strictly σ true) p = exec act (strictly σ false) p)
    (hoperations : ∀ p, (exec act (strictly σ false) p).2.operations = p.operations)
    (hquiet : ∀ p, ∀ warning ∈ (exec act (strictly σ false) p).2.warnings,
      warning.kind = .duplicateOperationId → warning ∈ p.warnings)
    (hgives : Gives (strictly σ false) act post) : Declares σ act [] post :=
  ⟨fun p => ⟨[], hoperations p, List.prefix_refl _, fun _ _ => rfl, fun _ => hsame p,
    fun _ => hquiet p, nofun⟩, hgives⟩

/-- Steps in turn: the strict run goes on only as long as it has done the same. -/
theorem bind {act : Typing α} {next : α → Typing β} {keys keys' : List Declaration}
    {mid : α → Prop} {post : β → Prop} (hact : Declares σ act keys mid)
    (hnext : ∀ x, mid x → Declares σ (next x) keys' post) :
    Declares σ (act >>= next) (keys ++ keys') post := by
  refine ⟨fun p => ?_, hact.gives.bind fun x hx => (hnext x hx).gives⟩
  obtain ⟨log, hlog⟩ := hact.declared p
  rw [exec_bind act next (strictly σ false)]
  cases hrun : exec act (strictly σ false) p with
  | mk result q =>
    rw [hrun] at hlog
    cases result with
    | error e =>
      refine ⟨log, hlog.operations, hlog.upTo.trans (List.prefix_append _ _), nofun,
        fun hnone => ?_, hlog.quiet, fun earlier later hclash => ?_⟩
      · rw [exec_bind, hlog.same hnone]
      · exact exec_bind_error (hlog.stops earlier later hclash)
    | ok x =>
      obtain ⟨log', hlog'⟩ := (hnext x (hact.gives.result p x q hrun)).declared q
      have hclash : p.operations.clash? (log ++ log') =
          (p.operations.clash? log).or (q.operations.clash? log') := by
        rw [OperationRegistry.clash?_append, hlog.operations]
      have hkeys := hlog.all x rfl
      refine ⟨log ++ log', ?_, ?_, fun y hy => ?_, fun hnone => ?_, fun hnone => ?_,
        fun earlier later hsome => ?_⟩
      · rw [hlog'.operations, hlog.operations, OperationRegistry.registerAll_append]
      · rw [List.map_append, hkeys]
        exact (List.prefix_append_right_inj keys).mpr hlog'.upTo
      · rw [List.map_append, hkeys, hlog'.all y hy]
      · obtain ⟨hfirst, hrest⟩ := Option.or_eq_none_iff.mp (hclash ▸ hnone)
        rw [exec_bind, hlog.same hfirst]
        exact hlog'.same hrest
      · obtain ⟨hfirst, hrest⟩ := Option.or_eq_none_iff.mp (hclash ▸ hnone)
        exact fun warning hmem hkind =>
          hlog.quiet hfirst warning (hlog'.quiet hrest warning hmem hkind) hkind
      · rcases Option.or_eq_some_iff.mp (hclash ▸ hsome) with hfirst | ⟨hnone, hrest⟩
        · exact exec_bind_error (hlog.stops earlier later hfirst)
        · rw [exec_bind, hlog.same hnone]
          exact hlog'.stops earlier later hrest

/-- After an action that declares nothing come the keys of what follows. -/
theorem after {act : Typing α} {next : α → Typing β} {keys : List Declaration}
    {mid : α → Prop} {post : β → Prop} (hact : Declares σ act [] mid)
    (hnext : ∀ x, mid x → Declares σ (next x) keys post) :
    Declares σ (act >>= next) keys post := hact.bind hnext

theorem pure {x : α} {post : α → Prop} (h : post x) : Declares σ (Pure.pure x) [] post :=
  .of_eq (fun _ => rfl) (fun _ => rfl) (fun _ _ h _ => h) (.pure h)

/-- An action that declares nothing adds no keys to those before it. -/
theorem before {act : Typing α} {next : α → Typing β} {keys : List Declaration}
    {mid : α → Prop} {post : β → Prop} (hact : Declares σ act keys mid)
    (hnext : ∀ x, mid x → Declares σ (next x) [] post) :
    Declares σ (act >>= next) keys post := by
  have hall := hact.bind hnext
  rwa [List.append_nil] at hall

theorem finish {act : Typing α} {next : α → β} {keys : List Declaration} {mid : α → Prop}
    (hact : Declares σ act keys mid) :
    Declares σ (act >>= fun x => Pure.pure (next x)) keys fun _ => True :=
  hact.before fun _ _ => .pure trivial

/-- What is read of the options does not depend on the mode. -/
theorem options_bind {next : Options → Typing β} {keys : List Declaration} {post : β → Prop}
    (hsame : next (strictly σ true).options = next (strictly σ false).options)
    (hnext : Declares σ (next (strictly σ false).options) keys post) :
    Declares σ (options >>= next) keys post := by
  refine ⟨fun p => ?_, .options_bind hnext.gives⟩
  have hstrict : exec (options >>= next) (strictly σ true) p =
      exec (next (strictly σ false).options) (strictly σ true) p := by
    rw [← hsame]
    rfl
  rw [hstrict]
  exact hnext.declared p

theorem read_bind {next : Setting → Typing β} {keys : List Declaration} {post : β → Prop}
    (hsame : next (strictly σ true) = next (strictly σ false))
    (hnext : Declares σ (next (strictly σ false)) keys post) :
    Declares σ (read >>= next) keys post := by
  refine ⟨fun p => ?_, .read_bind hnext.gives⟩
  have hstrict : exec (read >>= next) (strictly σ true) p =
      exec (next (strictly σ false)) (strictly σ true) p := by
    rw [← hsame]
    rfl
  rw [hstrict]
  exact hnext.declared p

/-- The entries of a map are taken as they are written. -/
theorem entries_bind {m : Option (OrderedMap α)} {next : List (String × α) → Typing β}
    {keys : List Declaration} {post : β → Prop}
    (hnext : Declares σ (next (written σ.options m)) keys post) :
    Declares σ (entries m >>= next) keys post := by
  have hrun (strict : Bool) (p : Progress) : exec (entries m >>= next) (strictly σ strict) p =
      exec (next (written σ.options m)) (strictly σ strict) p := by
    unfold written
    change exec ((if σ.options.alphabetize = true then _ else _) >>= next) _ p = _
    split
    · rfl
    · rfl
  refine ⟨fun p => ?_, .congr (hrun false) hnext.gives⟩
  rw [hrun, hrun]
  exact hnext.declared p

theorem throw (e : TypingError) {post : α → Prop} :
    Declares σ (MonadExcept.throw e : Typing α) [] post :=
  .of_eq (fun _ => rfl) (fun _ => rfl) (fun _ _ h _ => h) .throw

theorem warn {kind : WarningKind} (hkind : kind ≠ .duplicateOperationId) (place message : String) :
    Declares σ (warn kind place message) [] fun _ => True := by
  refine .of_eq (fun _ => rfl) (fun _ => rfl) (fun p warning hmem hdup => ?_) (.any _)
  rcases List.mem_append.mp hmem with hold | hnew
  · exact hold
  · rw [List.mem_singleton.mp hnew] at hdup
    exact absurd hdup hkind

theorem unresolved (ref place : String) :
    Declares σ (unresolved ref place) [] fun _ => True := by
  refine .options_bind rfl ?_
  dsimp only
  split
  · have hthrow : Declares σ (MonadExcept.throw (.unresolvedRef ref place) : Typing PUnit) []
        fun _ => True := .throw _
    exact hthrow.after fun _ _ => (warn (by decide) _ _).after fun _ _ => .pure trivial
  · exact (warn (by decide) _ _).after fun _ _ => .pure trivial

theorem inliningRef {key : String} {act : Typing α} {keys : List Declaration} {post : α → Prop}
    (hact : Declares σ act keys post) : Declares σ (inliningRef key act) keys post := by
  refine ⟨fun p => ?_, hact.gives.inliningRef⟩
  obtain ⟨log, hlog⟩ := hact.declared { p with inlining := key :: p.inlining }
  rw [exec_inliningRef, exec_inliningRef]
  exact ⟨log, hlog.operations, hlog.upTo, hlog.all, fun hnone => by rw [hlog.same hnone],
    hlog.quiet, hlog.stops⟩

/-- The members of a list in turn declare what each of them declares. -/
theorem mapM {f : ι → Typing α} {keysOf : ι → List Declaration} {list : List ι}
    (hf : ∀ x ∈ list, Declares σ (f x) (keysOf x) fun _ => True) :
    Declares σ (list.mapM f) (list.flatMap keysOf) fun _ => True := by
  induction list with
  | nil =>
    rw [List.mapM_nil]
    exact .pure trivial
  | cons x rest ih =>
    rw [List.mapM_cons, List.flatMap_cons]
    refine (hf x List.mem_cons_self).bind fun y _ => ?_
    exact (ih fun z hz => hf z (List.mem_cons_of_mem x hz)).finish

end Declares

/-- The judgement that nothing is declared. -/
def declaring (σ : Setting) : Judgement where
  Good _ := True
  closed := TypeExpr.closed_true
  Holds act post := Declares σ act [] post
  pure := .pure
  throw e _ := .throw e
  bind := .bind
  options_bind hsame h := .options_bind
    (hsame σ.options ⟨σ.options.silent, true⟩ ⟨σ.options.silent, false⟩) (h _)
  read_bind hsame h := .read_bind
    (hsame σ ⟨σ.options.silent, true⟩ ⟨σ.options.silent, false⟩) (h _)
  Known _ := True
  get_bind _ h := ⟨fun p => (h p trivial).declared p, .get_bind fun p => (h p trivial).gives⟩
  hoisting _ _ _ := .of_eq (fun _ => rfl) (fun _ => rfl) (fun _ _ h _ => h) (.any _)
  requiring := .of_eq (fun _ => rfl) (fun _ => rfl) (fun _ _ h _ => h) (.any _)
  resolving _ := .of_eq (fun _ => rfl) (fun _ => rfl) (fun _ _ h _ => h) (.any _)
  inliningRef := .inliningRef
  warn hkind := .warn (by rintro rfl; exact absurd hkind (by decide))
  Naming := True
  nameCollision _ := .warn (by decide)
  unresolved := .unresolved
  schemaHook _ _ := .of_eq (fun _ => rfl) (fun _ => rfl) (fun _ _ h _ => h)
    ((Gives.any _).weaken fun _ _ _ _ => trivial)
  typeHook _ _ _ := .of_eq (fun _ => rfl) (fun _ => rfl) (fun _ _ h _ => h)
    ((Gives.any _).weaken fun _ _ _ _ _ _ => trivial)

/-- The one action that declares something, and that fails in strict mode if the id is in use. -/
theorem registerOperation_declares (e : OperationEntry) :
    Declares σ (registerOperation e) [e.declaration] fun _ => True := by
  refine ⟨fun p => ⟨[e], ?_⟩, .any _⟩
  have hclash := OperationRegistry.clash?_singleton p.operations e
  have hregistered : p.operations.registerAll [e] = (p.operations.register e).2 := rfl
  unfold registerOperation
  rw [exec_get_bind, exec_get_bind]
  rcases hfound : p.operations.register e with ⟨_ | earlier, operations⟩
  · rw [hfound] at hclash hregistered
    refine ⟨hregistered.symm, List.prefix_refl _, fun _ _ => rfl, fun _ => rfl,
      fun _ _ h _ => h, fun _ _ hsome => ?_⟩
    rw [hclash] at hsome
    cases hsome
  · rw [hfound] at hclash hregistered
    refine ⟨hregistered.symm, List.prefix_refl _, fun _ _ => rfl, fun hnone => ?_, fun hnone => ?_,
      fun _ _ hsome => ?_⟩
    · rw [hclash] at hnone
      cases hnone
    · rw [hclash] at hnone
      cases hnone
    · rw [hclash] at hsome
      cases hsome
      rfl

/-! What is declared on the way to the types of a document. -/

theorem declarations_append (list list' : List Emission) :
    declarations (list ++ list') = declarations list ++ declarations list' :=
  List.filterMap_append

theorem declaredType_declares (o : Operation) (place : String) (method : Method) (t : TypeExpr) :
    Declares σ (declaredType o place method t) (Emission.declaration? ⟨place, method, o⟩).toList
      fun _ => True := by
  unfold declaredType Emission.declaration?
  split
  · exact .pure trivial
  · exact (registerOperation_declares _).finish

theorem methodMember_declares (item : PathItem) (place : String) (method : Method) :
    Declares σ (methodMember item place method)
      ((emission? σ.options item place method).bind Emission.declaration?).toList
      fun _ => True := by
  rw [methodMember_eq]
  refine .options_bind rfl ?_
  have hsame : shownOperation? (strictly σ false).options item method =
      shownOperation? σ.options item method := rfl
  rw [hsame]
  unfold emission?
  cases shownOperation? σ.options item method with
  | none => exact .pure trivial
  | some o =>
    refine Declares.after (operationType_holds (J := declaring σ) item o place method)
      fun t _ => ?_
    exact (declaredType_declares o place method t).finish

theorem pathItemType_declares (item : PathItem) (place : String) :
    Declares σ (pathItemType item place)
      (declarations (Method.all.filterMap (emission? σ.options item place))) fun _ => True := by
  unfold declarations
  rw [List.filterMap_filterMap, List.filterMap_eq_flatMap_toList]
  refine Declares.after (parametersMember_holds (J := declaring σ) _ _) fun shared _ => ?_
  exact (Declares.mapM fun method _ => methodMember_declares item place method).finish

/-- A path item that may be a reference into the document at hand. -/
theorem pathItemRefType_declares {item : PathItem} (hlocal : Reference.isExternal item.ref = false)
    (place : String) :
    Declares σ (pathItemRefType item place) (declarations (itemEmissions σ.options item place))
      fun _ => True := by
  unfold pathItemRefType itemEmissions
  split
  · exact pathItemType_declares item place
  · unfold refType
    rw [if_pos (by simp [hlocal])]
    refine (declaring σ).get_bind (fun _ _ => rfl) fun p _ => ?_
    split
    · exact .pure trivial
    · exact .unresolved _ _

theorem pathMembers_declares {list : List (String × Option PathItem)}
    (hlocal : ∀ entry ∈ list, ∀ item ∈ entry.2, Reference.isExternal item.ref = false) :
    Declares σ (pathMembers list)
      (declarations (list.flatMap (entryEmissions σ.options ["paths"]))) fun _ => True := by
  induction list with
  | nil => exact .pure trivial
  | cons entry rest ih =>
    obtain ⟨hfirst, hrest⟩ := List.forall_mem_cons.mp hlocal
    obtain ⟨path, item⟩ := entry
    cases item with
    | none => exact ih hrest
    | some item =>
      rw [pathMembers, List.flatMap_cons, declarations_append]
      refine (pathItemRefType_declares (hfirst item rfl) _).bind fun t _ => ?_
      refine .options_bind rfl ?_
      dsimp only
      split
      · refine Declares.after (resolvedItem_holds (J := declaring σ) item) fun resolved _ => ?_
        refine Declares.after (pathParamTypes_holds (J := declaring σ) resolved) fun types _ => ?_
        exact (ih hrest).finish
      · exact (ih hrest).finish

theorem webhookMembers_declares {list : List (String × Option PathItem)}
    (hlocal : ∀ entry ∈ list, ∀ item ∈ entry.2, Reference.isExternal item.ref = false) :
    Declares σ (webhookMembers list)
      (declarations (list.flatMap (entryEmissions σ.options ["webhooks"]))) fun _ => True := by
  induction list with
  | nil => exact .pure trivial
  | cons entry rest ih =>
    obtain ⟨hfirst, hrest⟩ := List.forall_mem_cons.mp hlocal
    obtain ⟨name, item⟩ := entry
    cases item with
    | none => exact ih hrest
    | some item =>
      rw [webhookMembers, List.flatMap_cons, declarations_append]
      refine (pathItemRefType_declares (hfirst item rfl) _).bind fun t _ => ?_
      exact (ih hrest).finish

theorem itemComponents_declares {list : List (String × Option PathItem)}
    (hlocal : ∀ entry ∈ list, ∀ item ∈ entry.2, Reference.isExternal item.ref = false)
    {aliases : Aliases} (haliases : ∀ d ∈ aliases.decls, GoodAlias (declaring σ).Good d) :
    Declares σ (componentMembers .pathItems aliases
        (list.filterMap fun entry => entry.2.map (itemComponent entry.1)))
      (declarations (list.flatMap (entryEmissions σ.options ["components", "pathItems"])))
      fun _ => True := by
  induction list generalizing aliases with
  | nil => exact .pure trivial
  | cons entry rest ih =>
    obtain ⟨hfirst, hrest⟩ := List.forall_mem_cons.mp hlocal
    obtain ⟨name, item⟩ := entry
    cases item with
    | none => exact ih hrest haliases
    | some item =>
      change Declares σ (componentMembers .pathItems aliases (itemComponent name item :: _)) _ _
      rw [componentMembers, List.flatMap_cons, declarations_append]
      refine .options_bind rfl ?_
      -- A path item is never deprecated as a whole.
      rw [if_neg (by simp [itemComponent])]
      have htype := pathItemRefType_declares (σ := σ) (hfirst item rfl)
        (Reference.join "#" ["components", "pathItems", name])
      rw [← namedType_pathItemType] at htype
      refine htype.bind fun t _ => ?_
      refine Declares.after ((declaring σ).typeHook _ _ _) fun result _ => ?_
      refine Declares.after (addAlias_holds _ _ _ haliases) fun aliases haliases => ?_
      exact (ih hrest haliases).finish

/-- Of the components only the path items declare something. -/
theorem optionalComponentsType_declares {components : Option Components}
    (hlocal : ∀ entry ∈ written σ.options (components.bind (·.pathItems)), ∀ item ∈ entry.2,
      Reference.isExternal item.ref = false) :
    Declares σ (optionalComponentsType components)
      (declarations (rootEmissions σ.options ["components", "pathItems"]
        (components.bind (·.pathItems)))) fun _ => True := by
  cases components with
  | none =>
    have hnone : rootEmissions σ.options ["components", "pathItems"] none = [] := by
      simp [rootEmissions, written, entriesOf]
    change Declares σ (Pure.pure _) (declarations (rootEmissions _ _ none)) _
    rw [hnone]
    exact .pure trivial
  | some c =>
    change Declares σ (componentsType c) (declarations (List.flatMap _ (written _ c.pathItems))) _
    unfold componentsType
    change Declares σ (categoryMembers c {} (earlierCategories ++ [.pathItems]) >>= _) _ _
    rw [categoryMembers_append]
    simp only [bind_assoc]
    refine Declares.after (categoryMembers_holds (J := declaring σ) c
      (fun h => absurd h (by decide)) (List.forall_mem_nil _)) fun first hfirst => ?_
    rw [categoryMembers, listComponents, componentsOf]
    simp only [bind_assoc, pure_bind]
    refine .entries_bind ?_
    simp only [categoryMembers, pure_bind]
    exact (itemComponents_declares hlocal hfirst.2).finish

theorem documentRoots_declares {doc : Document}
    (hlocal : ∀ item ∈ doc.pathItems, Reference.isExternal item.ref = false) :
    Declares σ (documentRoots doc) (declarations (emissions σ.options doc)) fun _ => True := by
  have hitems (items : Option PathItems)
      (hsub : ∀ entry ∈ entriesOf items, ∀ item ∈ entry.2, item ∈ doc.pathItems) :
      ∀ entry ∈ written σ.options items, ∀ item ∈ entry.2,
        Reference.isExternal item.ref = false :=
    fun entry hentry item hitem => hlocal item (hsub entry (mem_written hentry) item hitem)
  have hpaths : Declares σ (pathsType doc.paths)
      (declarations (rootEmissions σ.options ["paths"] doc.paths)) fun _ => True := by
    refine .entries_bind (pathMembers_declares (hitems _ fun entry hentry item hitem => ?_)).finish
    exact List.mem_filterMap.mpr ⟨entry, by simp [hentry], hitem⟩
  have hwebhooks : Declares σ (webhooksType doc.webhooks)
      (declarations (rootEmissions σ.options ["webhooks"] doc.webhooks)) fun _ => True := by
    refine .entries_bind
      (webhookMembers_declares (hitems _ fun entry hentry item hitem => ?_)).finish
    exact List.mem_filterMap.mpr ⟨entry, by simp [hentry], hitem⟩
  have hdefinitions : Declares σ (definitionsType doc.defs) [] fun _ => True :=
    .entries_bind (.finish (definitionsMembers_holds (J := declaring σ) _))
  unfold emissions
  rw [declarations_append, declarations_append, List.append_assoc]
  refine hpaths.bind fun paths _ => hwebhooks.bind fun webhooks _ => ?_
  have hcomponents : Declares σ (optionalComponentsType doc.components)
      (declarations (rootEmissions σ.options ["components", "pathItems"]
        (doc.components.bind (·.pathItems)))) fun _ => True := by
    refine optionalComponentsType_declares (hitems _ fun entry hentry item hitem => ?_)
    exact List.mem_filterMap.mpr ⟨entry, by simp [hentry], hitem⟩
  exact hcomponents.before fun components _ => hdefinitions.finish

/-- The run for a document declares the operations that it emits. -/
theorem documentDecls_declares {doc : Document}
    (hlocal : ∀ item ∈ doc.pathItems, Reference.isExternal item.ref = false) :
    Declares σ (documentDecls doc) (declarations (emissions σ.options doc)) fun _ => True := by
  refine .options_bind rfl ?_
  refine (documentRoots_declares hlocal).before fun roots _ => ?_
  exact .of_eq (fun _ => rfl) (fun _ => rfl) (fun _ _ h _ => h) (.any _)

end Typing

end ApiTypes
