import ApiTypes.Proofs.Addresses
import ApiTypes.Proofs.MergedParameters
import ApiTypes.Proofs.Summaries
import ApiTypes.Proofs.Typing.Keeping
import ApiTypes.Proofs.Typing.Registrations

/-!
The parameters of an operation, told twice: its summary lists them, and its type has a member for
each. Both start from the parameters of the path item and of the operation and keep one for each
location and name. They go different ways about references: one merges the targets, the other merges
what is listed and looks for the targets afterwards, and it takes a reference that leads back to
itself for a parameter of its own. Where every reference leads to a parameter in the end, the two
lists are the same.
-/

namespace ApiTypes

variable {α β : Type}

/-! References within a document. -/

namespace Resolver

variable [Referable α] {doc : Document} {r : Resolver}

/-- What a document finds on its own, every resolver of the document finds. -/
theorem lookup?_within (hr : r.index = Index.ofDocument doc) {ref : String} {x : α}
    (h : (ofDocument doc none).Tells (lookup? α ref) (some x)) :
    r.Tells (lookup? α ref) (some x) := by
  have hat (place : String) : r.at? place = (ofDocument doc none).at? place := by
    rw [at?, at?, hr]
    rfl
  rw [Tells, lookup?_run] at h ⊢
  cases hexternal : Reference.isExternal ref with
  | true =>
    rw [hexternal, if_pos rfl] at h
    cases h
  | false =>
    rw [hexternal, if_neg (by decide)] at h
    rw [if_neg (by decide), hat, (Prod.mk.inj h).1]

/-- A chain that stays within a document and ends with an object that is no reference is followed
alike by all resolvers of the document. -/
theorem follow_within (hr : r.index = Index.ofDocument doc) {steps more : Nat} (hle : steps ≤ more)
    {visited : List String} {last : Option (String × α)} {ref : String}
    (hlast : ∀ key x, last = some (key, x) → Referable.refOf x = ref)
    {key : String} {x : α} (hend : Referable.refOf x = "")
    (h : ((follow α steps visited last ref).run (ofDocument doc none)).1 = some (key, x)) :
    r.Tells (follow α more visited last ref) (some (key, x)) := by
  induction steps generalizing more visited last ref with
  | zero =>
    obtain rfl := hlast key x h
    rw [hend, show last = some (key, x) from h]
    cases more <;> exact .pure _
  | succ steps ih =>
    obtain ⟨more, rfl⟩ : ∃ rest, more = rest + 1 := ⟨more - 1, by omega⟩
    rw [follow] at h ⊢
    split at h
    · obtain rfl : last = some (key, x) := h
      rw [if_pos ‹ref = ""›]
      exact .pure _
    · rw [if_neg ‹¬ ref = ""›]
      dsimp only at h ⊢
      split at h
      · obtain rfl : last = some (key, x) := h
        rw [if_pos ‹_›]
        exact .pure _
      · rw [if_neg ‹_›]
        obtain ⟨found, hfound⟩ := Tells.lookup? (α := α) (r := ofDocument doc none) rfl ref
        rw [StateT.run_bind, hfound] at h
        cases found with
        | none => cases h
        | some node =>
          have hnode (key : String) (x : α) (heq : some (Reference.canonical ref, node) =
              some (key, x)) : Referable.refOf x = Referable.refOf node := by
            rw [(Prod.mk.inj (Option.some.inj heq)).2]
          exact (lookup?_within hr hfound).bind (ih (Nat.le_of_succ_le_succ hle) hnode h)

/-- What a document answers on its own, if it is no reference, every resolver of the document
answers. -/
theorem find?_within (hr : r.index = Index.ofDocument doc) {ref : String} {x : α}
    (h : doc.found? α ref = some x) (hend : Referable.refOf x = "") :
    r.Tells (find? α ref) (some x) := by
  obtain ⟨⟨key, _⟩, hlocated, rfl⟩ := Option.map_eq_some_iff.mp
    (show ((locate? α ref).run (ofDocument doc none)).1.map (·.2) = some x from h)
  rw [locate?_run] at hlocated
  have hbound : (ofDocument doc none).chainBound ≤ r.chainBound := by
    rw [chainBound, chainBound, hr]
    exact Nat.add_le_add_right (Nat.le_add_right _ _) 2
  have htells := follow_within hr hbound (by rintro _ _ ⟨⟩) hend hlocated
  exact Tells.bind ((locate?_run ref r).trans htells) (.pure _)

end Resolver

/-- The listed parameter is the other one or a reference that leads to it, and the other one is no
reference. -/
def Document.Shows (doc : Document) (listed target : Parameter) : Prop :=
  doc.shownParameter? listed = some target ∧ target.ref = ""

/-! What types say of parameters. -/

/-- The type of the first member with a name. -/
def memberNamed? (name : String) (members : List Member) : Option TypeExpr :=
  members.findSome? fun
    | .property name' _ _ t _ => if name' = name then some t else none
    | .indexSignature .. => none

@[simp] theorem memberNamed?_self (name : String) (isOptional isReadonly : Bool) (t : TypeExpr)
    (doc : List String) (rest : List Member) :
    memberNamed? name (.property name isOptional isReadonly t doc :: rest) = some t := by
  simp [memberNamed?]

theorem memberNamed?_of_ne {name name' : String} (h : name' ≠ name) (isOptional isReadonly : Bool)
    (t : TypeExpr) (doc : List String) (rest : List Member) :
    memberNamed? name (.property name' isOptional isReadonly t doc :: rest) =
      memberNamed? name rest := by
  simp [memberNamed?, h]

/-- The names of members, each with whether the member has to be there. -/
def TypeExpr.requirements (t : TypeExpr) : List (String × Bool) :=
  (t.members?.getD []).filterMap fun
    | .property name isOptional _ _ _ => some (name, !isOptional)
    | .indexSignature .. => none

/-- The parameters at a location in the type of an operation, each with whether it is required. -/
def TypeExpr.parametersAt? (t : TypeExpr) (location : String) : Option (List (String × Bool)) := do
  let parameters ← memberNamed? "parameters" (t.members?.getD [])
  let bucket ← memberNamed? location (parameters.members?.getD [])
  return bucket.requirements

/-- The parameters at a location in a summary. -/
def OperationSummary.parametersAt (s : OperationSummary) : String → List ParameterSummary
  | "path" => s.pathParams
  | "query" => s.queryParams
  | "header" => s.headerParams
  | "cookie" => s.cookieParams
  | _ => []

namespace Typing

open Summary (shownEntries shownParameters)

variable {σ : Setting} {doc : Document} {p q : Progress} {place : String}

/-! The parameters that are merged. -/

/-- What a document shows on its own is found, and nothing is fetched. -/
theorem Finds.of_shows (hp : p.resolver.index = Index.ofDocument doc) {x : ListedParameter}
    (h : doc.Shows x.listed x.resolved) : Finds σ x p p := by
  obtain ⟨hfound, hend⟩ := h
  refine ⟨?_, hend⟩
  unfold Document.shownParameter? at hfound
  unfold resolvedParameter?
  split at hfound
  · rw [if_pos ‹_›]
    exact Runs.pure_iff.mpr ⟨hfound, rfl⟩
  · rw [if_neg ‹_›, Runs, find?, exec_resolving, Resolver.find?_within hp hfound hend]

theorem exists_listed {xs : List Parameter} (h : ∀ x ∈ xs, ∃ target, doc.Shows x target) :
    ∃ listed : List ListedParameter, xs = listed.map (·.listed) ∧
      ∀ x ∈ listed, doc.Shows x.listed x.resolved := by
  induction xs with
  | nil => exact ⟨[], rfl, List.forall_mem_nil _⟩
  | cons x xs ih =>
    obtain ⟨⟨target, hx⟩, hxs⟩ := List.forall_mem_cons.mp h
    obtain ⟨listed, rfl, hlisted⟩ := ih hxs
    exact ⟨⟨x, target⟩ :: listed, rfl, List.forall_mem_cons.mpr ⟨hx, hlisted⟩⟩

/-- What the summary tells are the targets of the merged parameters. -/
theorem shownParameters_eq {item : PathItem} {o : Operation} {listed : List ListedParameter}
    (hlisted : parametersOf item o = listed.map (·.listed))
    (h : ∀ x ∈ listed, doc.Shows x.listed x.resolved) :
    (shownParameters doc (item.parameters.getD []) (o.parameters.getD [])).values =
      (merged listed).map (·.resolved) := by
  have hshown (list : List (Option Parameter)) : shownEntries doc list =
      (list.filterMap id).filterMap fun x =>
        (doc.shownParameter? x).map fun x => (x.location ++ ":" ++ x.name, x) := by
    rw [shownEntries, List.filterMap_filterMap]
    congr 1
    funext x
    cases x <;> rfl
  have hentries : shownEntries doc (item.parameters.getD [] ++ o.parameters.getD []) =
      listed.map fun x => (mergeKey x, x.resolved) := by
    rw [hshown, ← parametersOf, hlisted, List.filterMap_map, ← List.filterMap_eq_map]
    refine List.filterMap_congr fun x hx => ?_
    rw [Function.comp_apply, (h x hx).1, Option.map_some]
    rfl
  rw [shownParameters, hentries, values_ofList_map]
  rfl

/-! The members that are written. -/

/-- Parameters as the summary tells them: with a name, and whether they are required. -/
def toldAt (location : String) (parameters : List Parameter) : List (String × Bool) :=
  (parameters.filter (·.location = location)).map fun x =>
    (x.name, (Summary.ofParameter x).required)

theorem not_isOptionalParameter (x : Parameter) :
    (!isOptionalParameter x) = (Summary.ofParameter x).required := by
  unfold isOptionalParameter Summary.ofParameter
  by_cases hpath : x.location = "path" <;> simp [hpath]

theorem requirements_object_or_never (members : List Member) :
    (if members.isEmpty then TypeExpr.never else .object members).requirements =
      (TypeExpr.object members).requirements := by
  cases members <;> rfl

theorem parameterMember_gives (place : String) (x : ListedParameter) :
    Gives σ (parameterMember place x) fun m => ∃ isReadonly t doc,
      m = .property x.resolved.name (isOptionalParameter x.resolved) isReadonly t doc :=
  (Gives.any _).bind fun t _ => .options_bind (.pure ⟨_, t, _, rfl⟩)

/-- The member for a location has a member for each parameter there. -/
theorem locationMember_gives (place : String) (listed : List ListedParameter) (location : String) :
    Gives σ (locationMember place listed location) fun m => ∃ isOptional isReadonly t,
      m = .property location isOptional isReadonly t [] ∧
        t.requirements = toldAt location (listed.map (·.resolved)) := by
  refine (Gives.mapM fun x _ => parameterMember_gives place x).bind fun members hmembers => ?_
  refine .options_bind (.pure ⟨_, _, _, rfl, ?_⟩)
  rw [requirements_object_or_never, toldAt, List.filter_map, List.map_map]
  change members.filterMap _ = List.map _ (listed.filter fun x => x.resolved.location = location)
  generalize listed.filter (fun x => x.resolved.location = location) = here at hmembers ⊢
  induction hmembers with
  | nil => rfl
  | cons hfirst _ ih =>
    obtain ⟨isReadonly, t, doc, rfl⟩ := hfirst
    rw [List.filterMap_cons, ih, List.map_cons, Function.comp_apply, ← not_isOptionalParameter]

/-- Among members for different names the one for a name is found. -/
theorem requirements_memberNamed? {told : String → List (String × Bool)} {names : List String}
    {members : List Member} (h : List.Forall₂ (fun name m => ∃ isOptional isReadonly t,
      m = .property name isOptional isReadonly t [] ∧ t.requirements = told name) names members)
    {name : String} (hname : name ∈ names) :
    (memberNamed? name members).map TypeExpr.requirements = some (told name) := by
  induction h with
  | nil => cases hname
  | @cons first _ _ _ hfirst _ ih =>
    obtain ⟨isOptional, isReadonly, t, rfl, ht⟩ := hfirst
    by_cases hsame : first = name
    · subst hsame
      rw [memberNamed?_self, Option.map_some, ht]
    · rw [memberNamed?_of_ne hsame]
      exact ih ((List.mem_cons.mp hname).resolve_left (Ne.symm hsame))

/-- The type of an operation has the parameters that the summary tells. -/
theorem operationType_tells (hp : p.resolver.index = Index.ofDocument doc)
    (hunsorted : σ.options.alphabetize = false) (hall : σ.options.excludeDeprecated = false)
    {item : PathItem} {o : Operation} {method : Method}
    (hshared : ∀ x, some x ∈ item.parameters.getD [] → ∃ target, doc.Shows x target)
    (hown : ∀ x, some x ∈ o.parameters.getD [] → ∃ target, doc.Shows x target) {t : TypeExpr}
    (h : Runs σ (operationType item o place method) p t q) :
    ∀ location ∈ parameterLocations, t.parametersAt? location = some (toldAt location
      (shownParameters doc (item.parameters.getD []) (o.parameters.getD [])).values) := by
  have hshown (x : Parameter) (hx : x ∈ parametersOf item o) : ∃ target, doc.Shows x target := by
    obtain ⟨_, hmem, rfl⟩ := List.mem_filterMap.mp hx
    exact (List.mem_append.mp hmem).elim (hshared x) (hown x)
  obtain ⟨listed, hlisted, hshows⟩ := exists_listed hshown
  have hfinds (x : ListedParameter) (hx : x ∈ listed) : Finds σ x p p := .of_shows hp (hshows x hx)
  obtain ⟨buckets, rest, r, rfl, hbuckets⟩ :=
    operationType_buckets hunsorted hall hlisted (.of_forall hfinds) hfinds h
  have hgives := hbuckets.forall₂ fun location p m q hrun =>
    (locationMember_gives _ _ location).result p m q hrun
  intro location hlocation
  obtain ⟨bucket, hbucket, hrequirements⟩ :=
    Option.map_eq_some_iff.mp (requirements_memberNamed? hgives hlocation)
  rw [shownParameters_eq hlisted hshows]
  simp [TypeExpr.parametersAt?, TypeExpr.members?, hbucket, hrequirements]

/-! The operations of a path item. -/

theorem aside_index : Aside fun p => p.resolver.index :=
  .of_inlining (fun _ _ _ => rfl) (fun _ _ => rfl) (fun _ _ => rfl) (fun _ _ h => h) fun _ _ => rfl

/-- On the way to the type of an operation nothing is declared. -/
theorem aside_operations : Aside (·.operations) :=
  .of_inlining (fun _ _ _ => rfl) (fun _ _ => rfl) (fun _ _ => rfl) (fun _ _ _ => rfl)
    fun _ _ => rfl

/-- The type that is written for an operation: that of the member for its method, or what is
declared under its id. -/
def EmittedFor (place : String) (members : List Member) (log : List OperationEntry)
    (method : Method) (o : Operation) (t : TypeExpr) : Prop :=
  if o.operationId = "" then memberNamed? method.name members = some t
  else operationEntry o place method t ∈ log

/-- The member for a method, with what is declared for it. -/
theorem methodMember_emits {item : PathItem} {method : Method} {m : Member}
    (h : Runs σ (methodMember item place method) p m q) :
    ∃ log, MethodLog σ item place method p log q ∧ q.operations = p.operations.registerAll log ∧
      ∃ isOptional isReadonly t doc, m = .property method.name isOptional isReadonly t doc ∧
          ∀ o, shownOperation? σ.options item method = some o →
            ∃ type r, Runs σ (operationType item o place method) p type r ∧
              if o.operationId = "" then t = type
              else log = [operationEntry o place method type] := by
  rw [methodMember_eq] at h
  have hshown := h.options_bind
  split at hshown
  · rename_i hnone
    obtain ⟨rfl, rfl⟩ := Runs.pure_iff.mp hshown
    refine ⟨[], .absent hnone, rfl, _, _, _, _, rfl, fun o ho => ?_⟩
    rw [hnone] at ho
    cases ho
  · rename_i o ho
    obtain ⟨t, r, htype, hafter⟩ := Runs.bind_iff.mp hshown
    obtain ⟨declared, r', hdeclared, hm⟩ := Runs.bind_iff.mp hafter
    obtain ⟨rfl, rfl⟩ := Runs.pure_iff.mp hm
    have hoperations := htype.keeps
      (operationType_holds (J := keeping aside_operations) item o place method)
    unfold declaredType at hdeclared
    split at hdeclared
    · rename_i hid
      obtain ⟨rfl, rfl⟩ := Runs.pure_iff.mp hdeclared
      refine ⟨[], .unnamed ho hid htype, hoperations, _, _, _, _, rfl, ?_⟩
      rintro o' ho'
      cases ho.symm.trans ho'
      exact ⟨_, _, htype, by rw [if_pos hid]⟩
    · rename_i hid
      obtain ⟨_, r₁, hregister, hpure⟩ := Runs.bind_iff.mp hdeclared
      obtain ⟨rfl, rfl⟩ := Runs.pure_iff.mp hpure
      refine ⟨_, .named ho hid htype hregister, ?_, _, _, _, _, rfl, ?_⟩
      · rw [← hoperations]
        exact hregister.registerOperation_operations
      · rintro o' ho'
        cases ho.symm.trans ho'
        exact ⟨_, _, htype, by rw [if_neg hid]⟩

theorem MethodLog.method_eq {item : PathItem} {method : Method} {log : List OperationEntry}
    (h : MethodLog σ item place method p log q) {e : OperationEntry} (he : e ∈ log) :
    e.method = method.name := by
  cases h with
  | absent => cases he
  | unnamed => cases he
  | named => rw [List.mem_singleton.mp he]; rfl

theorem name_injective {a b : Method} (h : a.name = b.name) : a = b :=
  List.inj_on_of_nodup_map (show (Method.all.map (·.name)).Nodup by decide) a.mem_all b.mem_all h

/-- For the operation of the first method its type is written and no other. -/
theorem emittedFor_first {method : Method} {o : Operation} {t type u : TypeExpr}
    {isOptional isReadonly : Bool} {text : List String} {members : List Member}
    {log log' : List OperationEntry} (hlater : ∀ e ∈ log', e.method ≠ method.name)
    (hemitted : if o.operationId = "" then t = type
      else log = [operationEntry o place method type]) :
    EmittedFor place (.property method.name isOptional isReadonly t text :: members)
      (log ++ log') method o u ↔ u = type := by
  unfold EmittedFor
  split at hemitted
  · rw [if_pos ‹_›, memberNamed?_self, hemitted, Option.some_inj, eq_comm]
  · have hfresh : operationEntry o place method u ∉ log' := fun hmem => hlater _ hmem rfl
    rw [if_neg ‹_›, List.mem_append, or_iff_left hfresh, hemitted, List.mem_singleton]
    exact ⟨fun heq => congrArg OperationEntry.type heq, fun heq => by rw [heq]⟩

/-- What is written for other methods first does not matter. -/
theorem emittedFor_later {first method : Method} (hne : first ≠ method) {o : Operation}
    {t u : TypeExpr} {isOptional isReadonly : Bool} {text : List String} {members : List Member}
    {log log' : List OperationEntry} (hfirst : ∀ e ∈ log, e.method = first.name) :
    EmittedFor place (.property first.name isOptional isReadonly t text :: members)
      (log ++ log') method o u ↔ EmittedFor place members log' method o u := by
  unfold EmittedFor
  split
  · rw [memberNamed?_of_ne fun hname => hne (name_injective hname)]
  · rw [List.mem_append, or_iff_right]
    intro hmem
    exact hne (name_injective (hfirst _ hmem)).symm

/-- For each method of a path item one type is written, of the operation it has then. The operation
is typed when the methods before have been gone through. -/
theorem methodMembers_emit {item : PathItem} {methods : List Method} (hmethods : methods.Nodup)
    {members : List Member} (h : Runs σ (methods.mapM (methodMember item place)) p members q) :
    ∃ log, Chain (MethodLog σ item place) methods p log q ∧
      q.operations = p.operations.registerAll log ∧ ∀ method ∈ methods, ∀ o,
        shownOperation? σ.options item method = some o → ∃ before after earlier type r r',
          methods = before ++ method :: after ∧
            Runs σ (before.mapM (methodMember item place)) p earlier r ∧
            Runs σ (operationType item o place method) r type r' ∧
            ∀ t, EmittedFor place members log method o t ↔ t = type := by
  induction methods generalizing p members with
  | nil =>
    rw [List.mapM_nil] at h
    obtain ⟨rfl, rfl⟩ := Runs.pure_iff.mp h
    exact ⟨[], .nil, rfl, nofun⟩
  | cons first rest ih =>
    obtain ⟨hfresh, hrest⟩ := List.nodup_cons.mp hmethods
    rw [List.mapM_cons] at h
    obtain ⟨m, r, hfirst, hafter⟩ := Runs.bind_iff.mp h
    obtain ⟨others, r', hothers, hmembers⟩ := Runs.bind_iff.mp hafter
    obtain ⟨rfl, rfl⟩ := Runs.pure_iff.mp hmembers
    obtain ⟨log, hlog, hdeclared, isOptional, isReadonly, t, text, rfl, hemits⟩ :=
      methodMember_emits hfirst
    obtain ⟨log', hchain, hdeclared', hemits'⟩ := ih hrest hothers
    refine ⟨log ++ log', .cons hlog hchain, ?_, fun method hmethod o ho => ?_⟩
    · rw [OperationRegistry.registerAll_append, ← hdeclared, hdeclared']
    · rcases List.mem_cons.mp hmethod with rfl | hmethod
      · obtain ⟨type, s, htype, hemitted⟩ := hemits o ho
        refine ⟨[], rest, [], type, p, s, rfl, Runs.pure_iff.mpr ⟨rfl, rfl⟩, htype, fun _ => ?_⟩
        refine emittedFor_first (fun e he hname => ?_) hemitted
        obtain ⟨method', hmethod', _, _, _, hstep, he⟩ := hchain.exists_step he
        exact hfresh (name_injective ((hstep.method_eq he).symm.trans hname) ▸ hmethod')
      · obtain ⟨before, after, earlier, type, s, s', rfl, hbefore, htype, hemitted⟩ :=
          hemits' method hmethod o ho
        have hne : first ≠ method := (ne_of_mem_of_not_mem hmethod hfresh).symm
        refine ⟨first :: before, after,
          .property first.name isOptional isReadonly t text :: earlier, type, s, s', rfl, ?_, htype,
          fun t' => (emittedFor_later hne fun _ => hlog.method_eq).trans (hemitted t')⟩
        rw [List.mapM_cons]
        exact Runs.bind_iff.mpr ⟨_, r, hfirst, Runs.bind_iff.mpr ⟨_, s, hbefore,
          Runs.pure_iff.mpr ⟨rfl, rfl⟩⟩⟩

theorem parametersMember_named (parameters : List (Option Parameter)) (place : String) :
    Gives σ (parametersMember parameters place) fun m => ∃ isReadonly t,
      m = .property "parameters" false isReadonly t [] :=
  .options_bind ((Gives.any _).bind fun _ _ => (Gives.any _).bind fun _ _ => .pure ⟨_, _, rfl⟩)

/-- The state in which the turn comes to a method of a path item: when its own parameters and the
methods before have been gone through. -/
def Turn (σ : Setting) (item : PathItem) (place : String) (method : Method) (p r : Progress) :
    Prop :=
  ∃ before after shared members s, Method.all = before ++ method :: after ∧
    Runs σ (parametersMember (item.parameters.getD []) (Reference.join place ["parameters"]))
      p shared s ∧
    Runs σ (before.mapM (methodMember item place)) s members r

theorem Turn.index {item : PathItem} {method : Method} {r : Progress}
    (h : Turn σ item place method p r) : r.resolver.index = p.resolver.index := by
  obtain ⟨before, after, shared, members, s, -, hshared, hbefore⟩ := h
  have hmethod (method : Method) := methodMember_holds (J := keeping aside_index)
    (fun e _ => registerOperation_keeps aside_index (fun _ _ => rfl) e) item place method
  exact (hbefore.keeps (Judgement.mapM fun method _ => hmethod method)).trans
    (hshared.keeps (parametersMember_holds (J := keeping aside_index) _ _))

/-- For each operation of a path item one type is written, the one it has when its turn comes. -/
theorem pathItemType_emits_in_turn {item : PathItem} {t : TypeExpr}
    (h : Runs σ (pathItemType item place) p t q) :
    ∃ log, ItemLog σ item place p log q ∧ q.operations = p.operations.registerAll log ∧
      ∀ method o, shownOperation? σ.options item method = some o → ∃ type r r',
        Turn σ item place method p r ∧ Runs σ (operationType item o place method) r type r' ∧
          ∀ u, EmittedFor place (t.members?.getD []) log method o u ↔ u = type := by
  obtain ⟨shared, r, hshared, hafter⟩ := Runs.bind_iff.mp h
  obtain ⟨methods, r', hmethods, ht⟩ := Runs.bind_iff.mp hafter
  obtain ⟨rfl, rfl⟩ := Runs.pure_iff.mp ht
  obtain ⟨isReadonly, type, rfl⟩ := (parametersMember_named _ _).result _ _ _ hshared
  have hoperations := hshared.keeps (parametersMember_holds (J := keeping aside_operations) _ _)
  obtain ⟨log, hlog, hdeclared, hemits⟩ :=
    methodMembers_emit (show Method.all.Nodup by decide) hmethods
  refine ⟨log, .methods hshared hlog, hoperations ▸ hdeclared, fun method o ho => ?_⟩
  obtain ⟨before, after, earlier, type, s, s', hall, hbefore, htype, hemitted⟩ :=
    hemits method method.mem_all o ho
  refine ⟨type, s, s', ⟨before, after, _, earlier, r, hall, hshared, hbefore⟩, htype,
    fun u => Iff.trans ?_ (hemitted u)⟩
  have hname : "parameters" ≠ method.name := by cases method <;> decide
  unfold EmittedFor
  split
  · rw [TypeExpr.members?, Option.getD_some, memberNamed?_of_ne hname]
  · rfl

/-- For each operation of a path item one type is written. -/
theorem pathItemType_emits {item : PathItem} {t : TypeExpr}
    (h : Runs σ (pathItemType item place) p t q) :
    ∃ log, ItemLog σ item place p log q ∧ q.operations = p.operations.registerAll log ∧
      ∀ method o, shownOperation? σ.options item method = some o → ∃ type r r',
        r.resolver.index = p.resolver.index ∧
          Runs σ (operationType item o place method) r type r' ∧
          ∀ u, EmittedFor place (t.members?.getD []) log method o u ↔ u = type := by
  obtain ⟨log, hlog, hdeclared, hemits⟩ := pathItemType_emits_in_turn h
  refine ⟨log, hlog, hdeclared, fun method o ho => ?_⟩
  obtain ⟨type, r, r', hturn, htype, hemitted⟩ := hemits method o ho
  exact ⟨type, r, r', hturn.index, htype, hemitted⟩

theorem toldAt_ofListed (doc : Document) (l : ListedOperation) {location : String}
    (h : location ∈ parameterLocations) :
    ((Summary.ofListed doc l).parametersAt location).map (fun x => (x.name, x.required)) =
      toldAt location (shownParameters doc (l.item.parameters.getD [])
        (l.operation.parameters.getD [])).values := by
  simp only [parameterLocations, List.mem_cons, List.not_mem_nil, or_false] at h
  rcases h with rfl | rfl | rfl | rfl <;> exact List.map_map

/-- Where the path item of a path or a webhook stands. -/
def itemTokens (webhook : Bool) (path : String) : List String :=
  [if webhook then "webhooks" else "paths", path]

/-- The summary of an operation and its type agree on its parameters: at each location they have the
same names in the same order, required in both or in neither. There is one summary of the operation
and one type that is written for it. -/
theorem parameters_agree (hunsorted : σ.options.alphabetize = false)
    (hall : σ.options.excludeDeprecated = false) {webhook : Bool} {path : String} {item : PathItem}
    (hitem : (path, some item) ∈ entriesOf (if webhook then doc.webhooks else doc.paths))
    (hinline : item.ref = "")
    (hshared : ∀ x, some x ∈ item.parameters.getD [] → ∃ target, doc.Shows x target)
    (hown : ∀ method o, item.operation? method = some o →
      ∀ x, some x ∈ o.parameters.getD [] → ∃ target, doc.Shows x target)
    (hp : p.resolver.index = Index.ofDocument doc) {t : TypeExpr}
    (hrun : Runs σ (pathItemType item (Reference.join "#" (itemTokens webhook path))) p t q) :
    ∃ log, ItemLog σ item (Reference.join "#" (itemTokens webhook path)) p log q ∧
      q.operations = p.operations.registerAll log ∧
      ∀ method o, item.operation? method = some o → ∃ s type,
        (∀ s', (s' ∈ (Summary.ofDocument doc).operations ∧ s'.webhook = webhook ∧
          s'.path = path ∧ s'.method = method.name.toUpper) ↔ s' = s) ∧
        (∀ u, EmittedFor (Reference.join "#" (itemTokens webhook path)) (t.members?.getD []) log
          method o u ↔ u = type) ∧
        ∀ location ∈ parameterLocations, type.parametersAt? location =
          some ((s.parametersAt location).map fun x => (x.name, x.required)) := by
  obtain ⟨log, hlog, hdeclared, hemits⟩ := pathItemType_emits hrun
  refine ⟨log, hlog, hdeclared, fun method o ho => ?_⟩
  have hshown : shownOperation? σ.options item method = some o := by
    rw [shownOperation?, ho, hall]
    rfl
  obtain ⟨type, r, r', hr, htype, hemitted⟩ := hemits method o hshown
  have hlists : doc.Lists ⟨webhook, path, item, method, o⟩ :=
    ⟨item, hitem, by rw [Document.shownItem, if_pos hinline], ho⟩
  refine ⟨_, type, fun s' => Summary.mem_operations_iff hlists,
    hemitted, fun location hlocation => ?_⟩
  rw [toldAt_ofListed doc _ hlocation]
  exact operationType_tells (hr.trans hp) hunsorted hall hshared (hown method o ho) htype location
    hlocation

/-- The first operation overrides a shared parameter by a reference to a reference and adds one in
the path; the second has no id. -/
def orderItem : PathItem :=
  let inlined (name location : String) (required : Bool) : Parameter := { name, location, required }
  { parameters := some [some (inlined "page" "query" false),
      some { ref := "#/components/parameters/Trace" }]
    operation? := (List.lookup · [
      (.get, { operationId := "getOrder", parameters := some [none,
        some { ref := "#/components/parameters/Page" }, some (inlined "id" "path" false)] }),
      (.delete, { parameters := some [some (inlined "session" "cookie" true)] })]) }

def orderDocument : Document :=
  { paths := some (.ofList [("/orders/\x7bid\x7d", some orderItem)])
    components := some { parameters := some (.ofList [
      ("Page", some { ref := "#/components/parameters/Paging" }),
      ("Paging", some { name := "page", location := "query", required := true }),
      ("Trace", some { name := "trace", location := "header" })]) } }

theorem exists_shows {list : List (Option Parameter)} (h : list.all fun x => x.all fun x =>
    (doc.shownParameter? x).any (·.ref = "")) (x : Parameter) (hx : some x ∈ list) :
    ∃ target, doc.Shows x target := by
  have hany : (doc.shownParameter? x).any (·.ref = "") := List.all_eq_true.mp h (some x) hx
  cases hfound : doc.shownParameter? x with
  | none =>
    rw [hfound] at hany
    cases hany
  | some target =>
    rw [hfound] at hany
    exact ⟨target, hfound, of_decide_eq_true hany⟩

theorem exists_runs_orderItem : ∃ t q, Runs {}
    (pathItemType orderItem (Reference.join "#" (itemTokens false "/orders/\x7bid\x7d")))
    { resolver := Resolver.ofDocument orderDocument none } t q := by
  have hok : (exec (pathItemType orderItem (Reference.join "#"
      (itemTokens false "/orders/\x7bid\x7d"))) {}
      { resolver := Resolver.ofDocument orderDocument none }).1.isOk := by decide +kernel
  unfold Runs
  generalize exec (pathItemType _ _) _ _ = run at hok ⊢
  obtain ⟨result, q⟩ := run
  cases result with
  | error => cases hok
  | ok t => exact ⟨t, q, rfl⟩

theorem parameters_agree_orderItem :
    let place := Reference.join "#" (itemTokens false "/orders/\x7bid\x7d")
    let start : Progress := { resolver := Resolver.ofDocument orderDocument none }
    ∃ t q, Runs {} (pathItemType orderItem place) start t q ∧
      ∃ log, ItemLog {} orderItem place start log q ∧
        q.operations = start.operations.registerAll log ∧
        ∀ method o, orderItem.operation? method = some o → ∃ s type,
          (∀ s', (s' ∈ (Summary.ofDocument orderDocument).operations ∧ s'.webhook = false ∧
            s'.path = "/orders/\x7bid\x7d" ∧ s'.method = method.name.toUpper) ↔ s' = s) ∧
          (∀ u, EmittedFor place (t.members?.getD []) log method o u ↔ u = type) ∧
          ∀ location ∈ parameterLocations, type.parametersAt? location =
            some ((s.parametersAt location).map fun x => (x.name, x.required)) := by
  intro place start
  have hown (method : Method) (o : Operation) (ho : orderItem.operation? method = some o) :
      (o.parameters.getD []).all fun x => x.all fun x =>
        (orderDocument.shownParameter? x).any (·.ref = "") := by
    have hall : orderItem.inOrder.all fun entry => (entry.2.parameters.getD []).all fun x =>
        x.all fun x => (orderDocument.shownParameter? x).any (·.ref = "") := by decide +kernel
    exact List.all_eq_true.mp hall _ (PathItem.mem_inOrder.mpr ho)
  obtain ⟨t, q, hrun⟩ := exists_runs_orderItem
  exact ⟨t, q, hrun, parameters_agree rfl rfl (List.mem_singleton_self _) rfl
    (exists_shows (by decide)) (fun method o ho => exists_shows (hown method o ho)) rfl hrun⟩

end Typing

end ApiTypes
