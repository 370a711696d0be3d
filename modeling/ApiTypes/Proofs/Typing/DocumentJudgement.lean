import ApiTypes.Proofs.Typing.Judgement

/-!
The walk from schemas up to a whole document: what a judgement says on the types of what is sent
and received, of parameters and of operations, and, if it is kept by the declaration of an operation
with a good type, on the roots and all declarations.
-/

namespace ApiTypes.Typing

variable {α β : Type} {J : Judgement}

/-! What is sent and received. -/

theorem mediaTypeType_holds (m : Option MediaType) (place : String) :
    J.Holds (mediaTypeType m place) J.Good := by
  unfold mediaTypeType
  split
  · exact J.pure (J.closed.keyword _)
  · exact schemaType_holds _ _

theorem mediaTypeRefType_holds (m : Option MediaType) (place : String) :
    J.Holds (mediaTypeRefType m place) J.Good := by
  unfold mediaTypeRefType
  split
  · exact refType_holds (fun target => schemaType_holds (some target)) _ _
  · exact mediaTypeType_holds m place

theorem contentMembers_holds (content : Content) (place : String) :
    J.Holds (contentMembers content place) fun ms => ∀ m ∈ ms, m.All J.Good := by
  refine J.options_bind (fun _ _ _ => rfl) fun o => ?_
  refine J.bind (Judgement.entries content) fun listed _ => ?_
  refine Judgement.mapM fun entry _ => ?_
  exact J.bind (mediaTypeRefType_holds _ _) fun t ht => J.pure (.property ht)

theorem headerType_holds (h : Header) (place : String) :
    J.Holds (headerType h place) J.Good := by
  unfold headerType
  split
  · exact schemaType_holds _ _
  · split
    · exact J.bind (contentMembers_holds _ _) fun ms hms => J.pure (J.closed.object ms hms)
    · exact J.pure (J.closed.keyword _)

theorem requestBodyType_holds (b : RequestBody) (place : String) :
    J.Holds (requestBodyType b place) J.Good := by
  unfold requestBodyType
  split
  · exact J.pure (J.closed.keyword _)
  · refine J.bind (contentMembers_holds _ _) fun members hmembers => ?_
    refine J.options_bind (fun _ _ _ => rfl) fun o => J.pure (J.closed.object _ fun m hm => ?_)
    rw [List.mem_singleton.mp hm]
    exact .property (J.closed.object _ hmembers)

theorem requestBodyMember_holds (b : Option RequestBody) (place : String) :
    J.Holds (requestBodyMember b place) fun m => m.All J.Good := by
  refine J.options_bind (fun _ _ _ => rfl) fun o => ?_
  cases b with
  | none => exact J.pure (.property (J.closed.keyword _))
  | some b =>
    dsimp only
    split
    · exact J.bind (requestBodyType_holds b place) fun t ht => J.pure (.property ht)
    · refine J.bind (Judgement.find? b.ref) fun found _ => ?_
      cases found with
      | none => exact J.bind (J.unresolved b.ref place) fun t ht => J.pure (.property ht)
      | some resolved =>
        exact J.bind (refType_holds requestBodyType_holds b.ref place) fun t ht =>
          J.pure (.property ht)

theorem headerMembers_holds (place : String) (list : List (String × Option Header)) :
    J.Holds (headerMembers place list) fun ms => ∀ m ∈ ms, m.All J.Good := by
  induction list with
  | nil => exact J.pure nofun
  | cons entry rest ih =>
    obtain ⟨name, h⟩ := entry
    cases h with
    | none => exact ih
    | some h =>
      rw [headerMembers]
      refine J.options_bind (fun _ _ _ => rfl) fun o => ?_
      dsimp only
      split
      · refine J.bind (refType_holds headerType_holds _ _) fun t ht => ?_
        refine J.bind (Judgement.find? h.ref) fun _ _ => ?_
        refine J.bind ih fun members hmembers => J.pure ?_
        exact List.forall_mem_cons.mpr ⟨.property ht, hmembers⟩
      · split
        · exact ih
        · refine J.bind (headerType_holds h _) fun t ht => ?_
          refine J.bind ih fun members hmembers => J.pure ?_
          exact List.forall_mem_cons.mpr ⟨.property ht, hmembers⟩

theorem responseType_holds (r : Response) (place : String) :
    J.Holds (responseType r place) J.Good := by
  refine J.options_bind (fun _ _ _ => rfl) fun o => ?_
  refine J.bind (Judgement.entries r.headers) fun listed _ => ?_
  refine J.bind (headerMembers_holds place listed) fun headers hheaders => ?_
  refine J.bind (contentMembers_holds _ _) fun content hcontent => ?_
  refine J.pure (J.closed.object _ fun m hm => ?_)
  rcases List.mem_cons.mp hm with rfl | hlast
  · refine .property (J.closed.object _ fun m hm => ?_)
    rcases List.mem_append.mp hm with hheader | hfurther
    · exact hheaders m hheader
    · rw [List.mem_singleton.mp hfurther]
      exact .indexSignature (J.closed.keyword _) (J.closed.keyword _)
  · rw [List.mem_singleton.mp hlast]
    split
    · split
      · exact .property (J.closed.keyword _)
      · exact .property (J.closed.keyword _)
    · exact .property (J.closed.object _ hcontent)

theorem responseMembers_holds (place : String) (list : List (String × Option Response)) :
    J.Holds (responseMembers place list) fun ms => ∀ m ∈ ms, m.All J.Good := by
  induction list with
  | nil => exact J.pure nofun
  | cons entry rest ih =>
    obtain ⟨code, r⟩ := entry
    cases r with
    | none => exact ih
    | some r =>
      rw [responseMembers]
      refine J.options_bind (fun _ _ _ => rfl) fun o => ?_
      dsimp only
      split
      · refine J.bind (refType_holds responseType_holds _ _) fun t ht => ?_
        refine J.bind (Judgement.find? r.ref) fun _ _ => ?_
        refine J.bind ih fun members hmembers => J.pure ?_
        exact List.forall_mem_cons.mpr ⟨.property ht, hmembers⟩
      · refine J.bind (responseType_holds r _) fun t ht => ?_
        refine J.bind ih fun members hmembers => J.pure ?_
        exact List.forall_mem_cons.mpr ⟨.property ht, hmembers⟩

theorem responsesType_holds (responses : Option Responses) (place : String) :
    J.Holds (responsesType responses place) J.Good := by
  refine J.bind (Judgement.entries responses) fun listed _ => ?_
  refine J.bind (responseMembers_holds place listed) fun members hmembers => ?_
  split
  · exact J.pure (J.closed.keyword _)
  · exact J.pure (J.closed.object _ hmembers)

/-! Parameters and the types of operations. -/

theorem parameterType_holds (p : Parameter) (place : String) :
    J.Holds (parameterType p place) J.Good := by
  unfold parameterType
  split
  · exact schemaType_holds _ _
  · split
    · exact mediaTypeRefType_holds _ _
    · exact J.pure (J.closed.keyword _)

theorem resolvedParameter?_holds (p : Parameter) :
    J.Holds (resolvedParameter? p) fun _ => True := by
  unfold resolvedParameter?
  split
  · exact J.pure trivial
  · exact Judgement.find? p.ref

theorem resolveParameters_holds (place : String) (list : List (Option Parameter)) :
    J.Holds (resolveParameters place list) fun _ => True := by
  induction list with
  | nil => exact J.pure trivial
  | cons first rest ih =>
    cases first with
    | none => exact ih
    | some p =>
      rw [resolveParameters]
      refine J.bind (resolvedParameter?_holds p) fun found _ => ?_
      cases found with
      | none => exact J.bind (J.unresolved p.ref place) fun _ _ => ih
      | some resolved =>
        refine J.options_bind (fun _ _ _ => rfl) fun o => ?_
        split
        · exact ih
        · exact J.bind ih fun listed _ => J.pure trivial

theorem parameterMember_holds (place : String) (p : ListedParameter) :
    J.Holds (parameterMember place p) fun m => m.All J.Good := by
  have htype (place : String) : J.Holds (listedType p place) J.Good := by
    unfold listedType
    split
    · exact parameterType_holds p.resolved place
    · exact refType_holds parameterType_holds p.listed.ref place
  refine J.bind (htype _) fun t ht => ?_
  exact J.options_bind (fun _ _ _ => rfl) fun o => J.pure (.property ht)

theorem parametersMember_holds (parameters : List (Option Parameter)) (place : String) :
    J.Holds (parametersMember parameters place) fun m => m.All J.Good := by
  refine J.options_bind (fun _ _ _ => rfl) fun o => ?_
  refine J.bind (resolveParameters_holds place parameters) fun listed _ => ?_
  refine J.bind (Judgement.mapM fun location _ => ?_) fun members hmembers =>
    J.pure (.property (J.closed.object members hmembers))
  refine J.bind (Judgement.mapM fun p _ => parameterMember_holds place p) fun members hmembers => ?_
  refine J.options_bind (fun _ _ _ => rfl) fun o => J.pure (.property ?_)
  split
  · exact J.closed.keyword _
  · exact J.closed.object members hmembers

theorem parameterKey_holds (p : Parameter) (place : String) :
    J.Holds (parameterKey p place) fun _ => True := by
  unfold parameterKey
  dsimp only
  split
  · exact J.pure trivial
  · refine J.bind (J.resolving (.locate? _)) fun found _ => ?_
    split
    · exact J.pure trivial
    · exact J.pure trivial

theorem keyedParameters_holds (parameters : List (Option Parameter)) (place : String) :
    J.Holds (keyedParameters parameters place) fun _ => True := by
  have hkeyed : J.Holds (keyedParameters parameters place) fun ys => ∀ y ∈ ys, True := by
    refine Judgement.filterMapM (fun entry => ?_) _
    dsimp only
    split
    · exact J.pure nofun
    · exact J.bind (parameterKey_holds _ _) fun key _ => J.pure fun _ _ => trivial
  exact Judgement.weaken hkeyed fun _ _ => trivial

theorem operationType_holds (item : PathItem) (o : Operation) (place : String) (method : Method) :
    J.Holds (operationType item o place method) J.Good := by
  have hmerged : J.Holds (mergeParameters item o place method) fun _ => True :=
    J.bind (keyedParameters_holds _ _) fun _ _ =>
      J.bind (keyedParameters_holds _ _) fun _ _ => J.pure trivial
  refine J.bind hmerged fun merged _ => ?_
  refine J.bind ?_ fun members hmembers => J.pure (J.closed.object members hmembers)
  refine J.bind (parametersMember_holds _ _) fun parameters hparameters => ?_
  refine J.bind (requestBodyMember_holds _ _) fun body hbody => ?_
  refine J.bind (responsesType_holds _ _) fun responses hresponses => ?_
  refine J.options_bind (fun _ _ _ => rfl) fun o => J.pure ?_
  simp only [List.forall_mem_cons]
  exact ⟨hparameters, hbody, .property hresponses, nofun⟩

/-! Path items. -/

section Registering

variable (hregister : ∀ e : OperationEntry, J.Good e.type →
  J.Holds (registerOperation e) fun _ => True)

include hregister

theorem methodMember_holds (item : PathItem) (place : String) (method : Method) :
    J.Holds (methodMember item place method) fun m => m.All J.Good := by
  have hdeclared (o : Operation) (t : TypeExpr) (ht : J.Good t) :
      J.Holds (declaredType o place method t) J.Good := by
    unfold declaredType
    split
    · exact J.pure ht
    · refine J.bind (hregister _ ht) fun _ _ => J.pure ?_
      exact J.closed.index (J.closed.ref _ [] nofun) _
  rw [methodMember_eq]
  refine J.options_bind (fun _ _ _ => rfl) fun options => ?_
  split
  · exact J.pure (.property (J.closed.keyword _))
  · rename_i o _
    refine J.bind (operationType_holds item o place method) fun t ht => ?_
    exact J.bind (hdeclared o t ht) fun t ht => J.pure (.property ht)

theorem pathItemType_holds (item : PathItem) (place : String) :
    J.Holds (pathItemType item place) J.Good := by
  refine J.bind (parametersMember_holds _ _) fun shared hshared => ?_
  refine J.bind (Judgement.mapM fun method _ => methodMember_holds hregister item place method)
    fun methods hmethods => J.pure (J.closed.object _ ?_)
  exact List.forall_mem_cons.mpr ⟨hshared, hmethods⟩

theorem pathItemRefType_holds (item : PathItem) (place : String) :
    J.Holds (pathItemRefType item place) J.Good := by
  unfold pathItemRefType
  split
  · exact pathItemType_holds hregister item place
  · exact refType_holds (pathItemType_holds hregister) item.ref place

end Registering

theorem pathParamType_holds (p : Parameter) : J.Holds (pathParamType p) J.Good := by
  have hfinish (schema : Option Schema) : J.Holds
      (Pure.pure (if schema.any fun s => s.hasType "number" || s.hasType "integer" then .number
        else .string) : Typing TypeExpr) J.Good := by
    split
    · exact J.pure (J.closed.keyword _)
    · exact J.pure (J.closed.keyword _)
  unfold pathParamType
  split
  · exact hfinish none
  · dsimp only
    split
    · exact J.bind (Judgement.find? _) fun _ _ => hfinish _
    · exact hfinish _

theorem pathParamTypes_holds (item : PathItem) :
    J.Holds (pathParamTypes item) fun types => ∀ entry ∈ types, J.Good entry.2 := by
  have hreverse (types : List (String × TypeExpr)) (htypes : ∀ entry ∈ types, J.Good entry.2) :
      J.Holds (pure types.reverse) fun types => ∀ entry ∈ types, J.Good entry.2 :=
    J.pure fun entry hentry => htypes entry (List.mem_reverse.mp hentry)
  refine J.bind (Judgement.filterMapM (fun p => ?_) _) hreverse
  cases p with
  | none => exact J.pure nofun
  | some p =>
    refine J.bind (resolvedParameter?_holds p) fun found _ => ?_
    cases found with
    | none => exact J.pure nofun
    | some p =>
      dsimp only
      split
      · exact J.pure nofun
      · refine J.bind (pathParamType_holds p) fun t ht => J.pure ?_
        rintro _ ⟨⟩
        exact ht

theorem resolvedItem_holds (item : PathItem) : J.Holds (resolvedItem item) fun _ => True := by
  unfold resolvedItem
  split
  · exact J.pure trivial
  · exact J.bind (Judgement.find? item.ref) fun _ _ => J.pure trivial

theorem good_template {types : List (String × TypeExpr)} (h : ∀ entry ∈ types, J.Good entry.2)
    (template : PathTemplate) : J.Good (template.toType types) := by
  refine J.closed.template _ _ fun t tail hspan => ?_
  obtain ⟨param, -, heq⟩ := List.mem_map.mp hspan
  cases heq
  cases hfound : types.lookup param.1 with
  | none => exact J.closed.keyword _
  | some t => exact h (param.1, t) (lookup_mem hfound)

theorem good_objectOrEmpty {Good : TypeExpr → Prop} (hGood : TypeExpr.Closed Good)
    {members : List Member} (h : ∀ m ∈ members, m.All Good) : Good (objectOrEmpty members) := by
  unfold objectOrEmpty
  split
  · exact hGood.record (hGood.keyword _) (hGood.keyword _)
  · exact hGood.object members h

section Registering

variable (hregister : ∀ e : OperationEntry, J.Good e.type →
  J.Holds (registerOperation e) fun _ => True)

include hregister

theorem pathMembers_holds (list : List (String × Option PathItem)) :
    J.Holds (pathMembers list) fun ms => ∀ m ∈ ms, m.All J.Good := by
  induction list with
  | nil => exact J.pure nofun
  | cons entry rest ih =>
    obtain ⟨path, item⟩ := entry
    cases item with
    | none => exact ih
    | some item =>
      rw [pathMembers]
      refine J.bind (pathItemRefType_holds hregister item _) fun t ht => ?_
      refine J.options_bind (fun _ _ _ => rfl) fun o => ?_
      dsimp only
      split
      · refine J.bind (resolvedItem_holds item) fun resolved _ => ?_
        refine J.bind (pathParamTypes_holds resolved) fun types htypes => ?_
        refine J.bind ih fun members hmembers => J.pure ?_
        exact List.forall_mem_cons.mpr ⟨.indexSignature (good_template htypes _) ht, hmembers⟩
      · refine J.bind ih fun members hmembers => J.pure ?_
        exact List.forall_mem_cons.mpr ⟨.property ht, hmembers⟩

theorem webhookMembers_holds (list : List (String × Option PathItem)) :
    J.Holds (webhookMembers list) fun ms => ∀ m ∈ ms, m.All J.Good := by
  induction list with
  | nil => exact J.pure nofun
  | cons entry rest ih =>
    obtain ⟨name, item⟩ := entry
    cases item with
    | none => exact ih
    | some item =>
      rw [webhookMembers]
      refine J.bind (pathItemRefType_holds hregister item _) fun t ht => ?_
      refine J.bind ih fun members hmembers => J.pure ?_
      exact List.forall_mem_cons.mpr ⟨.property ht, hmembers⟩

end Registering

/-! Components and the whole document. -/

theorem namedType_holds [Referable α] {type : α → String → Typing TypeExpr}
    (htype : ∀ x place, J.Holds (type x place) J.Good) (x : α) (place : String) :
    J.Holds (namedType type x place) J.Good := by
  unfold namedType
  split
  · exact htype x place
  · exact refType_holds htype _ place

theorem componentsOf_holds {m : Option (OrderedMap (Option α))} {component : String → α → Component}
    (hcomponent : ∀ name x place, J.Holds ((component name x).typeAt place) J.Good) :
    J.Holds (componentsOf m component) fun list =>
      ∀ c ∈ list, ∀ place, J.Holds (c.typeAt place) J.Good := by
  refine J.bind (Judgement.entries m) fun listed _ => J.pure fun c hc place => ?_
  obtain ⟨entry, -, hentry⟩ := List.mem_filterMap.mp hc
  obtain ⟨x, -, rfl⟩ := Option.map_eq_some_iff.mp hentry
  exact hcomponent entry.1 x place

theorem listComponents_holds (c : Components) {category : Category}
    (hitems : category = .pathItems →
      ∀ item place, J.Holds (pathItemType item place) J.Good) :
    J.Holds (listComponents c category) fun list =>
      ∀ c ∈ list, ∀ place, J.Holds (c.typeAt place) J.Good := by
  cases category with
  | schemas =>
    refine J.bind (Judgement.entries c.schemas) fun listed _ => J.pure fun c hc place => ?_
    obtain ⟨entry, -, rfl⟩ := List.mem_map.mp hc
    exact unfinishedType_holds entry.2 place
  | responses =>
    rw [listComponents]
    refine componentsOf_holds fun name x place => ?_
    exact namedType_holds responseType_holds x place
  | parameters =>
    rw [listComponents]
    refine componentsOf_holds fun name x place => ?_
    exact namedType_holds parameterType_holds x place
  | requestBodies =>
    rw [listComponents]
    refine componentsOf_holds fun name x place => ?_
    exact namedType_holds requestBodyType_holds x place
  | headers =>
    rw [listComponents]
    refine componentsOf_holds fun name x place => ?_
    exact namedType_holds headerType_holds x place
  | pathItems =>
    rw [listComponents]
    refine componentsOf_holds fun name x place => ?_
    exact namedType_holds (hitems rfl) x place

/-- The declaration of an alias for a good type. -/
def GoodAlias (Good : TypeExpr → Prop) (d : Decl) : Prop :=
  ∃ name t, d = .alias name t true [] ∧ Good t

theorem addAlias_holds (category : Category) (name place : String) {aliases : Aliases}
    (haliases : ∀ d ∈ aliases.decls, GoodAlias J.Good d)
    (hnaming : J.Naming := by exact trivial) :
    J.Holds (addAlias category name place aliases) fun aliases =>
      ∀ d ∈ aliases.decls, GoodAlias J.Good d := by
  refine J.options_bind (fun _ _ _ => rfl) fun o => ?_
  have hmore (chosen : String) : ∀ d ∈ aliases.decls ++
      [.alias chosen ((TypeExpr.named "components").index [category.name, name]) true []],
      GoodAlias J.Good d := by
    intro d hd
    rcases List.mem_append.mp hd with hold | hnew
    · exact haliases d hold
    · rw [List.mem_singleton.mp hnew]
      exact ⟨chosen, _, rfl, J.closed.index (J.closed.ref _ [] nofun) _⟩
  dsimp only
  split
  · exact J.pure haliases
  · split
    · exact J.bind (J.nameCollision hnaming _ _) fun _ _ => J.pure (hmore _)
    · exact J.pure (hmore _)

/-- All types in the members and in the aliases beside them are good. -/
def GoodMembers (Good : TypeExpr → Prop) (found : List Member × Aliases) : Prop :=
  (∀ m ∈ found.1, m.All Good) ∧ ∀ d ∈ found.2.decls, GoodAlias Good d

theorem componentMembers_holds (category : Category) {components : List Component}
    (hcomponents : ∀ c ∈ components, ∀ place, J.Holds (c.typeAt place) J.Good) {aliases : Aliases}
    (haliases : ∀ d ∈ aliases.decls, GoodAlias J.Good d)
    (hnaming : J.Naming := by exact trivial) :
    J.Holds (componentMembers category aliases components) (GoodMembers J.Good) := by
  induction components generalizing aliases with
  | nil => exact J.pure ⟨nofun, haliases⟩
  | cons c rest ih =>
    obtain ⟨hfirst, hrest⟩ := List.forall_mem_cons.mp hcomponents
    rw [componentMembers]
    refine J.options_bind (fun _ _ _ => rfl) fun o => ?_
    split
    · exact ih hrest haliases
    · refine J.bind (hfirst _) fun t ht => ?_
      refine J.bind (J.typeHook t c.schema _) fun result hresult => ?_
      refine J.bind (addAlias_holds category c.name _ haliases hnaming) fun aliases haliases => ?_
      refine J.bind (ih hrest haliases) fun found hfound => J.pure ?_
      refine ⟨List.forall_mem_cons.mpr ⟨.property ?_, hfound.1⟩, hfound.2⟩
      cases htaken : result.bind (·.type) with
      | none => exact ht
      | some t =>
        obtain ⟨r, hr, htype⟩ := Option.bind_eq_some_iff.mp htaken
        exact hresult r hr t htype

theorem categoryMembers_holds (c : Components) {categories : List Category}
    (hitems : .pathItems ∈ categories →
      ∀ item place, J.Holds (pathItemType item place) J.Good) {aliases : Aliases}
    (haliases : ∀ d ∈ aliases.decls, GoodAlias J.Good d)
    (hnaming : J.Naming := by exact trivial) :
    J.Holds (categoryMembers c aliases categories) (GoodMembers J.Good) := by
  induction categories generalizing aliases with
  | nil => exact J.pure ⟨nofun, haliases⟩
  | cons category rest ih =>
    rw [categoryMembers]
    refine J.bind (listComponents_holds c fun h => hitems (h ▸ List.mem_cons_self))
      fun components hcomponents => ?_
    refine J.bind (componentMembers_holds category hcomponents haliases hnaming)
      fun first hfirst => ?_
    refine J.bind (ih (fun h => hitems (List.mem_cons_of_mem _ h)) hfirst.2) fun found hfound =>
      J.pure ⟨List.forall_mem_cons.mpr ⟨.property ?_, hfound.1⟩, hfound.2⟩
    split
    · exact J.closed.keyword _
    · exact J.closed.object _ hfirst.1

theorem definitionsMembers_holds (list : List (String × Option Schema)) :
    J.Holds (definitionsMembers list) fun ms => ∀ m ∈ ms, m.All J.Good := by
  induction list with
  | nil => exact J.pure nofun
  | cons entry rest ih =>
    refine J.bind (schemaType_holds _ _) fun t ht => ?_
    refine J.options_bind (fun _ _ _ => rfl) fun o => ?_
    refine J.bind ih fun members hmembers => J.pure ?_
    exact List.forall_mem_cons.mpr ⟨.property ht, hmembers⟩

/-- All types of the roots are good. -/
structure Roots.AllGood (Good : TypeExpr → Prop) (roots : Roots) : Prop where
  paths : Good roots.paths
  webhooks : Good roots.webhooks
  components : Good roots.components
  definitions : Good roots.definitions
  aliases : ∀ d ∈ roots.aliases, GoodAlias Good d

section Registering

variable (hregister : ∀ e : OperationEntry, J.Good e.type →
  J.Holds (registerOperation e) fun _ => True)

include hregister

theorem documentRoots_holds (doc : Document) (hnaming : J.Naming := by exact trivial) :
    J.Holds (documentRoots doc) (Roots.AllGood J.Good) := by
  have hpaths : J.Holds (pathsType doc.paths) J.Good :=
    J.bind (Judgement.entries _) fun listed _ =>
      J.bind (pathMembers_holds hregister listed) fun _ h => J.pure (good_objectOrEmpty J.closed h)
  have hwebhooks : J.Holds (webhooksType doc.webhooks) J.Good :=
    J.bind (Judgement.entries _) fun listed _ =>
      J.bind (webhookMembers_holds hregister listed) fun _ h =>
        J.pure (good_objectOrEmpty J.closed h)
  have hdefinitions : J.Holds (definitionsType doc.defs) J.Good :=
    J.bind (Judgement.entries _) fun listed _ =>
      J.bind (definitionsMembers_holds listed) fun _ h => J.pure (good_objectOrEmpty J.closed h)
  have hcomponents : J.Holds (optionalComponentsType doc.components) fun found =>
      J.Good found.1 ∧ ∀ d ∈ found.2, GoodAlias J.Good d := by
    cases doc.components with
    | none => exact J.pure ⟨J.closed.record (J.closed.keyword _) (J.closed.keyword _), nofun⟩
    | some c =>
      refine J.bind (categoryMembers_holds c (fun _ => pathItemType_holds hregister) nofun hnaming)
        fun found hfound => J.pure ?_
      exact ⟨J.closed.object _ hfound.1, hfound.2⟩
  refine J.bind hpaths fun paths hpaths => ?_
  refine J.bind hwebhooks fun webhooks hwebhooks => ?_
  refine J.bind hcomponents fun components hcomponents => ?_
  refine J.bind hdefinitions fun definitions hdefinitions => J.pure ?_
  exact ⟨hpaths, hwebhooks, hcomponents.1, hdefinitions, hcomponents.2⟩

/-- The declarations are put together from all that was collected. -/
theorem documentDecls_holds (hcollected : ∀ decls : Progress → List Decl,
      J.Holds (do return decls (← get)) fun _ => True) (doc : Document)
    (hnaming : J.Naming := by exact trivial) :
    J.Holds (documentDecls doc) fun _ => True := by
  refine J.options_bind (fun _ _ _ => rfl) fun o => ?_
  refine J.bind (documentRoots_holds hregister doc hnaming) fun roots _ => ?_
  exact hcollected _

end Registering

end ApiTypes.Typing
