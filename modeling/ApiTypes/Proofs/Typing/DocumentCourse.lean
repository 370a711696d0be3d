import ApiTypes.Proofs.Typing.PathTyped
import ApiTypes.Proofs.Typing.SchemaCourse

/-!
The course of a run from schemas up to a whole document. All objects that are written out are met
with the references whose targets they lie in. What is only looked at, such as the parameters behind
the templates of paths, need not be met.
-/

namespace ApiTypes.Typing

open LawfulReferable (toObject)

variable {α : Type} {w : Source} {σ : Setting} {v : Option ExternalResolver} {inl : List String}

/-- The objects of a map are met. -/
def Carries (w : Source) (inl : List String) (wrap : α → Object)
    (m : Option (OrderedMap (Option α))) : Prop :=
  ∀ name x, (name, some x) ∈ entriesOf m → w.Meets inl (wrap x)

theorem Carries.of_objects {wrap : α → Object} {m : Option (OrderedMap (Option α))}
    (h : ∀ o ∈ objectsOf wrap m, w.Meets inl o) : Carries w inl wrap m :=
  fun _ _ hmem => h _ (Index.mem_objectsOf hmem)

/-- The entries of the map, in whatever order. -/
theorem Carries.entries {wrap : α → Object} {m : Option (OrderedMap (Option α))}
    (h : Carries w inl wrap m) :
    Proceeds w σ v inl (entries m) fun listed =>
      ∀ name x, (name, some x) ∈ listed → w.Meets inl (wrap x) :=
  (Course.entries m).weaken fun _ hlisted name x hmem => h name x (hlisted.subset hmem)

/-- Parameters that are met, in a list in which there may be null. -/
def CarriesParameters (w : Source) (inl : List String) (parameters : List (Option Parameter)) :
    Prop := ∀ x, some x ∈ parameters → w.Meets inl (.parameter x)

theorem CarriesParameters.of_objects {parameters : Option (List (Option Parameter))}
    (h : ∀ o ∈ parameterObjects parameters, w.Meets inl o) :
    CarriesParameters w inl (parameters.getD []) :=
  fun _ hmem => h _ (Index.mem_parameterObjects hmem)

theorem seen_of_parts {o : Object} (ho : w.Meets inl o) {s : Option Schema}
    (hs : ∀ x, s = some x → .schema x ∈ o.parts) : Seen w (inl, s) :=
  fun x hx => .whole (ho.part (hs x hx))

/-- The type of an object of a kind is made wherever such an object is met. -/
def Made (w : Source) (σ : Setting) (v : Option ExternalResolver) [Referable α] [LawfulReferable α]
    (type : α → String → Typing TypeExpr) : Prop :=
  ∀ inl x, w.Meets inl (toObject x) → ∀ place, Proceeds w σ v inl (type x place) fun _ => True

/-- The type of a reference that stands in an object that is met. -/
theorem Made.refType [Referable α] [LawfulReferable α] {type : α → String → Typing TypeExpr}
    (h : Made w σ v type) {o : Object} (ho : w.Meets inl o)
    (hwanted : o.wanted? = some (Referable.kind α)) (place : String) :
    Proceeds w σ v inl (refType type o.ref place) fun _ => True :=
  .refType ho hwanted place fun x _ _ _ hx place => h _ x hx place

/-! What is sent and received. -/

theorem mediaTypeType_course {m : Option MediaType}
    (hm : ∀ x, m = some x → w.Meets inl (.mediaType x)) (place : String) :
    Proceeds w σ v inl (mediaTypeType m place) fun _ => True := by
  unfold mediaTypeType
  cases hschema : m.bind (·.schema) with
  | none => exact .pure trivial
  | some s =>
    obtain ⟨x, hx, hs⟩ := Option.bind_eq_some_iff.mp hschema
    refine schemaType_course (seen_of_parts (hm x hx) ?_) _
    rintro _ ⟨⟩
    simp [Object.parts, hs]

theorem mediaTypeRefType_course {m : Option MediaType}
    (hm : ∀ x, m = some x → w.Meets inl (.mediaType x)) (place : String) :
    Proceeds w σ v inl (mediaTypeRefType m place) fun _ => True := by
  unfold mediaTypeRefType
  cases href : m.filter (·.ref ≠ "") with
  | none => exact mediaTypeType_course hm place
  | some x =>
    have hx := hm x (Option.filter_eq_some_iff.mp href).1
    exact schemaRefType_course (o := .mediaType x) hx rfl place

theorem contentMembers_course {content : Content} (hcontent : Carries w inl .mediaType content)
    (place : String) : Proceeds w σ v inl (contentMembers content place) fun _ => True := by
  refine .options_bind ?_
  refine hcontent.entries.bind fun listed hlisted => ?_
  refine .eachM fun entry hentry => ?_
  obtain ⟨name, m⟩ := entry
  refine (mediaTypeRefType_course ?_ _).returns
  rintro x rfl
  exact hlisted name x hentry

theorem headerType_course : Made w σ v headerType := by
  intro inl h hh place
  unfold headerType
  split
  · exact schemaType_course (seen_of_parts hh fun x hx => by simp [toObject, Object.parts, hx]) _
  · split
    · have hcontent : Carries w inl .mediaType h.content :=
        .of_objects fun o ho => hh.part (List.mem_append_right _ ho)
      exact (contentMembers_course hcontent place).returns
    · exact .pure trivial

theorem requestBodyType_course : Made w σ v requestBodyType := by
  intro inl b hb place
  unfold requestBodyType
  split
  · exact .pure trivial
  · have hcontent : Carries w inl .mediaType b.content := .of_objects fun o ho => hb.part ho
    refine (contentMembers_course hcontent _).bind fun _ _ => ?_
    exact .options_bind (.pure trivial)

theorem requestBodyMember_course {b : Option RequestBody}
    (hb : ∀ x, b = some x → w.Meets inl (.requestBody x)) (place : String) :
    Proceeds w σ v inl (requestBodyMember b place) fun _ => True := by
  refine .options_bind ?_
  dsimp only
  cases b with
  | none => exact .pure trivial
  | some b =>
    have hmeets := hb b rfl
    have hasks : w.Asks b.ref := hmeets.asks
    dsimp only
    split
    · exact (requestBodyType_course inl b hmeets place).returns
    · refine (Course.find?_reaches hasks (α := RequestBody)).bind fun found _ => ?_
      cases found with
      | none => exact (Course.unresolved b.ref place).returns
      | some resolved =>
        have htype := requestBodyType_course.refType (σ := σ) (v := v) hmeets rfl place
        exact htype.returns

theorem headerMembers_course (place : String) (listed : List (String × Option Header))
    (hlisted : ∀ name h, (name, some h) ∈ listed → w.Meets inl (.header h)) :
    Proceeds w σ v inl (headerMembers place listed) fun _ => True := by
  induction listed with
  | nil => exact .pure trivial
  | cons entry rest ih =>
    have hrest := ih fun name h hmem => hlisted name h (List.mem_cons_of_mem _ hmem)
    obtain ⟨name, h⟩ := entry
    cases h with
    | none => exact hrest
    | some h =>
      have hh : w.Meets inl (.header h) := hlisted name h List.mem_cons_self
      have hasks : w.Asks h.ref := hh.asks
      rw [headerMembers]
      refine .options_bind ?_
      dsimp only
      split
      · refine (headerType_course.refType hh rfl _).bind fun _ _ => ?_
        refine (Course.find?_reaches hasks (α := Header)).bind fun _ _ => ?_
        exact hrest.returns
      · split
        · exact hrest
        · refine (headerType_course inl h hh _).bind fun _ _ => ?_
          exact hrest.returns

theorem responseType_course : Made w σ v responseType := by
  intro inl r hr place
  have hheaders : Carries w inl .header r.headers :=
    .of_objects fun o ho => hr.part (List.mem_append_left _ ho)
  have hcontent : Carries w inl .mediaType r.content :=
    .of_objects fun o ho => hr.part (List.mem_append_right _ ho)
  refine .options_bind ?_
  refine hheaders.entries.bind fun listed hlisted => ?_
  refine (headerMembers_course place listed hlisted).bind fun _ _ => ?_
  exact (contentMembers_course hcontent _).returns

theorem responseMembers_course (place : String) (listed : List (String × Option Response))
    (hlisted : ∀ code r, (code, some r) ∈ listed → w.Meets inl (.response r)) :
    Proceeds w σ v inl (responseMembers place listed) fun _ => True := by
  induction listed with
  | nil => exact .pure trivial
  | cons entry rest ih =>
    have hrest := ih fun code r hmem => hlisted code r (List.mem_cons_of_mem _ hmem)
    obtain ⟨code, r⟩ := entry
    cases r with
    | none => exact hrest
    | some r =>
      have hr : w.Meets inl (.response r) := hlisted code r List.mem_cons_self
      have hasks : w.Asks r.ref := hr.asks
      rw [responseMembers]
      refine .options_bind ?_
      dsimp only
      split
      · refine (responseType_course.refType hr rfl _).bind fun _ _ => ?_
        refine (Course.find?_reaches hasks (α := Response)).bind fun _ _ => ?_
        exact hrest.returns
      · refine (responseType_course inl r hr _).bind fun _ _ => ?_
        exact hrest.returns

theorem responsesType_course {responses : Option Responses}
    (hresponses : Carries w inl .response responses) (place : String) :
    Proceeds w σ v inl (responsesType responses place) fun _ => True := by
  refine hresponses.entries.bind fun listed hlisted => ?_
  refine (responseMembers_course place listed hlisted).bind fun members _ => ?_
  split
  · exact .pure trivial
  · exact .pure trivial

/-! Parameters. -/

theorem parameterType_course : Made w σ v parameterType := by
  intro inl p hp place
  unfold parameterType
  split
  · exact schemaType_course (seen_of_parts hp fun x hx => by simp [toObject, Object.parts, hx]) _
  · have hcontent : Carries w inl .mediaType p.content :=
      .of_objects fun o ho => hp.part (List.mem_append_right _ ho)
    split
    · rename_i name m rest hentries
      refine mediaTypeRefType_course ?_ _
      rintro x rfl
      exact hcontent name x (by rw [hentries]; exact List.mem_cons_self)
    · exact .pure trivial

theorem resolvedParameter?_course {p : Parameter} (hp : w.Reaches (.parameter p)) :
    Proceeds w σ v inl (resolvedParameter? p) fun found =>
      ∀ x, found = some x → w.Reaches (.parameter x) ∧ (p.ref = "" → x = p) := by
  have hasks : w.Asks p.ref := Source.Asks.held hp
  unfold resolvedParameter?
  split
  · refine .pure ?_
    rintro x ⟨⟩
    exact ⟨hp, fun _ => rfl⟩
  · rename_i href
    exact (Course.find?_reaches hasks).weaken fun found hfound x hx =>
      ⟨hfound x hx, fun hnone => absurd hnone href⟩

/-- A parameter that is met as it is listed, and stands for itself unless it is a reference. -/
def MeetsListed (w : Source) (inl : List String) (p : ListedParameter) : Prop :=
  w.Meets inl (.parameter p.listed) ∧ (p.listed.ref = "" → p.resolved = p.listed)

theorem resolveParameters_course (place : String) (parameters : List (Option Parameter))
    (hparameters : CarriesParameters w inl parameters) :
    Proceeds w σ v inl (resolveParameters place parameters) fun found =>
      ∀ p ∈ found, MeetsListed w inl p := by
  induction parameters with
  | nil => exact .pure (List.forall_mem_nil _)
  | cons first rest ih =>
    have hrest := ih fun x hx => hparameters x (List.mem_cons_of_mem _ hx)
    cases first with
    | none => exact hrest
    | some p =>
      have hp : w.Meets inl (.parameter p) := hparameters p List.mem_cons_self
      rw [resolveParameters]
      refine (resolvedParameter?_course hp.reaches).bind fun found hfound => ?_
      cases found with
      | none => exact (Course.unresolved p.ref place).bind fun _ _ => hrest
      | some resolved =>
        refine .options_bind ?_
        split
        · exact hrest
        · refine hrest.bind fun listed hlisted => .pure ?_
          exact List.forall_mem_cons.mpr ⟨⟨hp, (hfound resolved rfl).2⟩, hlisted⟩

theorem parameterMember_course (place : String) {p : ListedParameter} (hp : MeetsListed w inl p) :
    Proceeds w σ v inl (parameterMember place p) fun _ => True := by
  have htype (place : String) : Proceeds w σ v inl (listedType p place) fun _ => True := by
    unfold listedType
    split
    · rename_i href
      rw [hp.2 href]
      exact parameterType_course inl p.listed hp.1 place
    · exact parameterType_course.refType hp.1 rfl place
  refine (htype _).bind fun _ _ => ?_
  exact .options_bind (.pure trivial)

theorem parametersMember_course {parameters : List (Option Parameter)}
    (hparameters : CarriesParameters w inl parameters) (place : String) :
    Proceeds w σ v inl (parametersMember parameters place) fun _ => True := by
  refine .options_bind ?_
  refine (resolveParameters_course place parameters hparameters).bind fun listed hlisted => ?_
  extract_lets ordered
  have hordered : ∀ p ∈ ordered, MeetsListed w inl p := by
    intro p hp
    dsimp only [ordered] at hp
    split at hp
    · exact hlisted p ((List.mergeSort_perm _ _).subset hp)
    · exact hlisted p hp
  refine (Course.eachM fun location _ => ?_).andThen fun _ => .pure trivial
  refine (Course.eachM fun p hp =>
    parameterMember_course place (hordered p (List.mem_filter.mp hp).1)).andThen fun _ => ?_
  exact .options_bind (.pure trivial)

theorem parameterKey_course {p : Parameter} (hp : w.Meets inl (.parameter p)) (place : String) :
    Proceeds w σ v inl (parameterKey p place) fun _ => True := by
  have hasks : w.Asks p.ref := hp.asks
  unfold parameterKey
  dsimp only
  split
  · exact .pure trivial
  · refine Course.andThen (.resolving
      ((Resolver.locate?_kept (α := Parameter) hasks).weaken fun _ _ => trivial)
      fun hfits => Resolver.locate?_steady hfits hasks) fun found => ?_
    split
    · exact .pure trivial
    · exact .pure trivial

theorem keyedParameters_course {parameters : List (Option Parameter)}
    (hparameters : CarriesParameters w inl parameters) (place : String) :
    Proceeds w σ v inl (keyedParameters parameters place) fun keyed =>
      ∀ entry ∈ keyed, w.Meets inl (.parameter entry.2) := by
  refine .filterMapM fun entry hentry => ?_
  obtain ⟨p, i⟩ := entry
  have hmem := List.fst_mem_of_mem_zipIdx hentry
  cases p with
  | none => exact .pure nofun
  | some p =>
    have hp := hparameters p hmem
    refine (parameterKey_course hp _).bind fun key _ => .pure ?_
    rintro _ ⟨⟩
    exact hp

/-- The parameters of an operation and those of its path item are met. -/
theorem mergeParameters_course {item : PathItem} {o : Operation}
    (hshared : CarriesParameters w inl (item.parameters.getD []))
    (hown : CarriesParameters w inl (o.parameters.getD [])) (place : String) (method : Method) :
    Proceeds w σ v inl (mergeParameters item o place method) fun merged =>
      CarriesParameters w inl merged := by
  refine (keyedParameters_course hshared _).bind fun shared hkeyed => ?_
  refine (keyedParameters_course hown _).bind fun own hkeyed' => .pure fun x hx => ?_
  obtain ⟨p, hp, heq⟩ := List.mem_map.mp hx
  cases heq
  obtain ⟨⟨key, p⟩, hentry, rfl⟩ := List.mem_map.mp hp
  rcases List.mem_append.mp (OrderedMap.mem_ofList hentry) with h | h
  · exact hkeyed _ h
  · exact hkeyed' _ h

/-! Operations and path items. -/

theorem registerOperation_course (e : OperationEntry) :
    Proceeds w σ v inl (registerOperation e) fun _ => True := by
  refine .get_bind fun p _ _ => ?_
  have hsame : (p.via v).operations = p.operations := rfl
  rw [hsame]
  obtain ⟨earlier, operations⟩ := p.operations.register e
  refine (Course.modify (fun q => { q with operations }) (fun _ => ⟨rfl, rfl, rfl⟩)
    fun _ => rfl).bind fun _ _ => ?_
  cases earlier with
  | none => exact .pure trivial
  | some earlier =>
    have hwarn (place message : String) :
        Proceeds w σ v inl (warn .duplicateOperationId place message) fun _ => True :=
      .warn (by rintro ⟨⟩)
    refine .options_bind ?_
    dsimp only
    split
    · exact .andThen (.throw trivial) fun _ => hwarn _ _
    · exact hwarn _ _

theorem declaredType_course (o : Operation) (place : String) (method : Method) (t : TypeExpr) :
    Proceeds w σ v inl (declaredType o place method t) fun _ => True := by
  unfold declaredType
  split
  · exact .pure trivial
  · exact (registerOperation_course _).returns

theorem operationType_course {item : PathItem} (hitem : w.Meets inl (.pathItem item))
    {method : Method} {o : Operation} (ho : shownOperation? σ.options item method = some o)
    (place : String) :
    Proceeds w σ v inl (operationType item o place method) fun _ => True := by
  have hlisted : (method, o) ∈ item.inOrder :=
    PathItem.mem_inOrder.mpr (Option.filter_eq_some_iff.mp ho).1
  have hoperation : w.Meets inl (.operation o) :=
    hitem.part (List.mem_append_right _ (List.mem_map.mpr ⟨(method, o), hlisted, rfl⟩))
  have hshared : CarriesParameters w inl (item.parameters.getD []) :=
    .of_objects fun x hx => hitem.part (List.mem_append_left _ hx)
  have hown : CarriesParameters w inl (o.parameters.getD []) := .of_objects fun x hx =>
    hoperation.part (List.mem_append_left _ (List.mem_append_left _ hx))
  have hbody : ∀ b, o.requestBody = some b → w.Meets inl (.requestBody b) := fun b hb =>
    hoperation.part (List.mem_append_left _ (List.mem_append_right _ (by simp [hb])))
  have hresponses : Carries w inl .response o.responses :=
    .of_objects fun x hx => hoperation.part (List.mem_append_right _ hx)
  refine (mergeParameters_course hshared hown place method).bind fun merged hmerged => ?_
  refine .andThen ?_ fun _ => .pure trivial
  refine (parametersMember_course hmerged _).bind fun _ _ => ?_
  refine (requestBodyMember_course hbody _).bind fun _ _ => ?_
  refine (responsesType_course hresponses _).bind fun _ _ => ?_
  exact .options_bind (.pure trivial)

theorem methodMember_course {item : PathItem} (hitem : w.Meets inl (.pathItem item))
    (place : String) (method : Method) :
    Proceeds w σ v inl (methodMember item place method) fun _ => True := by
  rw [methodMember_eq]
  refine .options_bind ?_
  split
  · exact .pure trivial
  · rename_i o ho
    refine (operationType_course hitem ho place).bind fun t _ => ?_
    exact (declaredType_course o place method t).returns

theorem pathItemType_course : Made w σ v pathItemType := by
  intro inl item hitem place
  have hshared : CarriesParameters w inl (item.parameters.getD []) :=
    .of_objects fun x hx => hitem.part (List.mem_append_left _ hx)
  refine (parametersMember_course hshared _).bind fun _ _ => ?_
  exact (Course.eachM fun method _ =>
    methodMember_course hitem place method).andThen fun _ => .pure trivial

theorem pathItemRefType_course {item : PathItem} (hitem : w.Meets inl (.pathItem item))
    (place : String) : Proceeds w σ v inl (pathItemRefType item place) fun _ => True := by
  unfold pathItemRefType
  split
  · exact pathItemType_course inl item hitem place
  · exact pathItemType_course.refType hitem rfl place

theorem resolvedItem_course {item : PathItem} (hitem : w.Reaches (.pathItem item)) :
    Proceeds w σ v inl (resolvedItem item) fun found => w.Reaches (.pathItem found) := by
  have hasks : w.Asks item.ref := Source.Asks.held hitem
  unfold resolvedItem
  split
  · exact .pure hitem
  · refine (Course.find?_reaches hasks).bind fun found hfound => .pure ?_
    cases found with
    | none => exact hitem
    | some x => exact hfound x rfl

theorem pathParamType_course {p : Parameter} (hp : w.Reaches (.parameter p)) :
    Proceeds w σ v inl (pathParamType p) fun _ => True := by
  unfold pathParamType
  cases hschema : p.schema with
  | none => exact .pure trivial
  | some s =>
    have hs : w.Reaches (.schema s) := .part hp (by simp [Object.parts, hschema])
    have hasks : w.Asks s.ref := Source.Asks.held hs
    dsimp only
    split
    · exact (Course.find?_reaches hasks).returns
    · exact .pure trivial

theorem pathParamTypes_course {item : PathItem} (hitem : w.Reaches (.pathItem item)) :
    Proceeds w σ v inl (pathParamTypes item) fun _ => True := by
  have hlisted : HeldParameters w (item.parameters.getD [] ++
      item.inOrder.flatMap fun entry => entry.2.parameters.getD []) := by
    intro x hx
    rcases List.mem_append.mp hx with hshared | hown
    · exact .part hitem (List.mem_append_left _ (Index.mem_parameterObjects hshared))
    · obtain ⟨⟨method, o⟩, ho, hmem⟩ := List.mem_flatMap.mp hown
      have hoperation : w.Reaches (.operation o) :=
        .part hitem (List.mem_append_right _ (List.mem_map.mpr ⟨(method, o), ho, rfl⟩))
      exact .part hoperation
        (List.mem_append_left _ (List.mem_append_left _ (Index.mem_parameterObjects hmem)))
  refine (@Course.filterMapM _ _ w σ v inl _ (fun _ => True) _ fun p hp => ?_).bind
    fun _ _ => .pure trivial
  cases p with
  | none => exact .pure nofun
  | some p =>
    refine (resolvedParameter?_course (hlisted p hp)).bind fun found hfound => ?_
    cases found with
    | none => exact .pure nofun
    | some x =>
      dsimp only
      split
      · exact .pure nofun
      · refine (pathParamType_course (hfound x rfl).1).bind fun _ _ => .pure ?_
        exact fun _ _ => trivial

/-! Roots. -/

theorem pathMembers_course (listed : List (String × Option PathItem))
    (hlisted : ∀ name x, (name, some x) ∈ listed → w.Meets inl (.pathItem x)) :
    Proceeds w σ v inl (pathMembers listed) fun _ => True := by
  induction listed with
  | nil => exact .pure trivial
  | cons entry rest ih =>
    have hrest := ih fun name x hmem => hlisted name x (List.mem_cons_of_mem _ hmem)
    obtain ⟨path, item⟩ := entry
    cases item with
    | none => exact hrest
    | some item =>
      have hitem : w.Meets inl (.pathItem item) := hlisted path item List.mem_cons_self
      rw [pathMembers]
      refine (pathItemRefType_course hitem _).bind fun t _ => ?_
      refine .options_bind ?_
      dsimp only
      split
      · refine (resolvedItem_course hitem.reaches).bind fun resolved hresolved => ?_
        refine (pathParamTypes_course hresolved).bind fun _ _ => ?_
        exact hrest.returns
      · exact hrest.returns

theorem webhookMembers_course (listed : List (String × Option PathItem))
    (hlisted : ∀ name x, (name, some x) ∈ listed → w.Meets inl (.pathItem x)) :
    Proceeds w σ v inl (webhookMembers listed) fun _ => True := by
  induction listed with
  | nil => exact .pure trivial
  | cons entry rest ih =>
    have hrest := ih fun name x hmem => hlisted name x (List.mem_cons_of_mem _ hmem)
    obtain ⟨name, item⟩ := entry
    cases item with
    | none => exact hrest
    | some item =>
      rw [webhookMembers]
      refine (pathItemRefType_course (hlisted name item List.mem_cons_self) _).bind fun _ _ => ?_
      exact hrest.returns

theorem definitionsMembers_course (listed : List (String × Option Schema))
    (hlisted : ∀ name x, (name, some x) ∈ listed → w.Meets inl (.schema x)) :
    Proceeds w σ v inl (definitionsMembers listed) fun _ => True := by
  induction listed with
  | nil => exact .pure trivial
  | cons entry rest ih =>
    have hrest := ih fun name x hmem => hlisted name x (List.mem_cons_of_mem _ hmem)
    obtain ⟨name, s⟩ := entry
    have hs : Seen w (inl, s) := by
      rintro x rfl
      exact .whole (hlisted name x List.mem_cons_self)
    rw [definitionsMembers]
    refine (schemaType_course hs _).bind fun _ _ => ?_
    exact .options_bind (hrest.returns)

/-- A component whose type is made at every place. -/
def Typable (w : Source) (σ : Setting) (v : Option ExternalResolver) (inl : List String)
    (c : Component) : Prop :=
  ∀ place, Proceeds w σ v inl (c.typeAt place) fun _ => True

theorem namedType_course [Referable α] [LawfulReferable α] {type : α → String → Typing TypeExpr}
    (h : Made w σ v type) {x : α} (hx : w.Meets inl (toObject x))
    (hwanted : (toObject x).wanted? = some (Referable.kind α)) (place : String) :
    Proceeds w σ v inl (namedType type x place) fun _ => True := by
  unfold namedType
  split
  · exact h inl x hx place
  · rw [← LawfulReferable.ref_toObject]
    exact h.refType hx hwanted place

/-- The components of a kind, under their names. -/
theorem componentsOf_course [Referable α] [LawfulReferable α]
    {type : α → String → Typing TypeExpr} (htype : Made w σ v type)
    {m : Option (OrderedMap (Option α))} (hm : ∀ o ∈ objectsOf toObject m, w.Meets inl o)
    {component : String → α → Component}
    (hcomponent : ∀ name x, (component name x).typeAt = namedType type x)
    (hwanted : ∀ x : α, (toObject x).wanted? = some (Referable.kind α)) :
    Proceeds w σ v inl (componentsOf m component) fun found =>
      ∀ c ∈ found, Typable w σ v inl c := by
  refine (Carries.of_objects hm).entries.bind fun listed hlisted => .pure fun c hc place => ?_
  obtain ⟨⟨name, x⟩, hmem, hsome⟩ := List.mem_filterMap.mp hc
  obtain ⟨y, rfl, rfl⟩ := Option.map_eq_some_iff.mp hsome
  rw [hcomponent]
  exact namedType_course htype (hlisted name y hmem) (hwanted y) place

theorem listComponents_course {c : Components} (hc : ∀ o ∈ c.objects, w.Meets inl o)
    (category : Category) :
    Proceeds w σ v inl (listComponents c category) fun found =>
      ∀ k ∈ found, Typable w σ v inl k := by
  simp only [Components.objects, List.forall_mem_append] at hc
  obtain ⟨⟨⟨⟨⟨hschemas, hresponses⟩, hparameters⟩, hbodies⟩, hheaders⟩, hitems⟩ := hc
  cases category with
  | schemas =>
    refine (Carries.of_objects hschemas).entries.bind fun listed hlisted => .pure fun k hk => ?_
    obtain ⟨⟨name, s⟩, hmem, rfl⟩ := List.mem_map.mp hk
    intro place
    refine unfinishedType_course ?_ place
    rintro x rfl
    exact .whole (hlisted name x hmem)
  | responses =>
    rw [listComponents]
    exact componentsOf_course responseType_course hresponses (fun _ _ => rfl) fun _ => rfl
  | parameters =>
    rw [listComponents]
    exact componentsOf_course parameterType_course hparameters (fun _ _ => rfl) fun _ => rfl
  | requestBodies =>
    rw [listComponents]
    exact componentsOf_course requestBodyType_course hbodies (fun _ _ => rfl) fun _ => rfl
  | headers =>
    rw [listComponents]
    exact componentsOf_course headerType_course hheaders (fun _ _ => rfl) fun _ => rfl
  | pathItems =>
    rw [listComponents]
    exact componentsOf_course pathItemType_course hitems (fun _ _ => rfl) fun _ => rfl

theorem addAlias_course (category : Category) (name place : String) (aliases : Aliases) :
    Proceeds w σ v inl (addAlias category name place aliases) fun _ => True := by
  refine .options_bind ?_
  split
  · exact .pure trivial
  · dsimp only
    split
    · exact (Course.warn (by rintro ⟨⟩)).returns
    · exact .pure trivial

theorem componentMembers_course (category : Category) (aliases : Aliases) (list : List Component)
    (hlist : ∀ c ∈ list, Typable w σ v inl c) :
    Proceeds w σ v inl (componentMembers category aliases list) fun _ => True := by
  induction list generalizing aliases with
  | nil => exact .pure trivial
  | cons c rest ih =>
    obtain ⟨hfirst, hrest⟩ := List.forall_mem_cons.mp hlist
    rw [componentMembers]
    refine .options_bind ?_
    dsimp only
    split
    · exact ih aliases hrest
    · refine (hfirst _).bind fun t _ => .typeHook_bind fun result => ?_
      refine (addAlias_course category c.name _ aliases).bind fun aliases _ => ?_
      exact (ih aliases hrest).returns

theorem categoryMembers_course {c : Components} (hc : ∀ o ∈ c.objects, w.Meets inl o)
    (aliases : Aliases) (categories : List Category) :
    Proceeds w σ v inl (categoryMembers c aliases categories) fun _ => True := by
  induction categories generalizing aliases with
  | nil => exact .pure trivial
  | cons category rest ih =>
    refine (listComponents_course hc category).bind fun listed hlisted => ?_
    refine (componentMembers_course category aliases listed hlisted).bind fun found _ => ?_
    exact (ih found.2).returns

theorem optionalComponentsType_course {c : Option Components}
    (hc : ∀ o ∈ c.elim [] Components.objects, w.Meets inl o) :
    Proceeds w σ v inl (optionalComponentsType c) fun _ => True := by
  cases c with
  | none => exact .pure trivial
  | some c => exact (categoryMembers_course hc {} Category.all).returns

/-- The types of the roots of a document. -/
theorem documentRoots_course : Proceeds w σ v [] (documentRoots w.doc) fun _ => True := by
  have hobjects : ∀ o ∈ w.doc.objects, w.Meets [] o := fun _ h => .root h
  simp only [Document.objects, List.forall_mem_append] at hobjects
  obtain ⟨⟨⟨hcomponents, hpaths⟩, hwebhooks⟩, hdefs⟩ := hobjects
  have hpathsType : Proceeds w σ v [] (pathsType w.doc.paths) fun _ => True :=
    (Carries.of_objects hpaths).entries.bind fun listed hlisted =>
      (pathMembers_course listed hlisted).returns
  have hwebhooksType : Proceeds w σ v [] (webhooksType w.doc.webhooks) fun _ => True :=
    (Carries.of_objects hwebhooks).entries.bind fun listed hlisted =>
      (webhookMembers_course listed hlisted).returns
  have hdefinitionsType : Proceeds w σ v [] (definitionsType w.doc.defs) fun _ => True :=
    (Carries.of_objects hdefs).entries.bind fun listed hlisted =>
      (definitionsMembers_course listed hlisted).returns
  refine hpathsType.bind fun _ _ => hwebhooksType.bind fun _ _ => ?_
  refine (optionalComponentsType_course hcomponents).bind fun _ _ => ?_
  exact hdefinitionsType.returns

/-- The declarations for a document. -/
theorem documentDecls_course : Proceeds w σ v [] (documentDecls w.doc) fun _ => True := by
  refine .options_bind ?_
  refine documentRoots_course.bind fun roots _ => ?_
  -- Nothing that is declared depends on the resolver.
  exact .get_bind fun p _ _ => .pure trivial

/-- Before any type is made, the resolver is one of the document. -/
theorem knows_startOf (doc : Document) (request : Request) :
    Source.Knows ⟨doc, request.external⟩ (startOf doc request).resolver :=
  (Discriminators.scan_kept ⟨doc, request.external⟩ _
    (Source.knows_ofDocument ⟨doc, request.external⟩)).1

/-- A run on a whole document. -/
theorem along_document (doc : Document) (request : Request) (v : Option ExternalResolver) :
    Along ⟨doc, request.external⟩ v (startOf doc request) (fun _ => True)
      (exec (documentDecls doc) (settingOf doc request) (startOf doc request))
      (exec (documentDecls doc) (settingOf doc request) ((startOf doc request).via v)) :=
  (documentDecls_course (w := ⟨doc, request.external⟩)).along _ (knows_startOf doc request) rfl

/-- A resolver that answers the same to what can be asked for leads to the same types. -/
theorem generate_via {doc : Document} {request : Request} {v : Option ExternalResolver}
    (hfits : Source.Fits ⟨doc, request.external⟩ v) :
    generate doc { request with external := v } = generate doc request := by
  have hscan := Discriminators.scan_steady hfits (Resolver.ofDocument doc request.external)
    (Source.knows_ofDocument ⟨doc, request.external⟩)
  change Discriminators.scan.run (Resolver.ofDocument doc v) = _ at hscan
  have hsetting : settingOf doc { request with external := v } = settingOf doc request := by
    unfold settingOf
    rw [hscan]
  have hstart : startOf doc { request with external := v } = (startOf doc request).via v := by
    unfold startOf
    rw [hscan]
    rfl
  have hrun := (along_document doc request v).follows hfits
  rw [generate_eq, generate_eq, hsetting, hstart, hrun]
  cases exec (documentDecls doc) (settingOf doc request) (startOf doc request) with
  | mk result q => cases result <;> rfl

/-- What ends the making of types ends the run on the document. -/
theorem exec_of_generate_error {doc : Document} {request : Request} {e : TypingError}
    (hrun : generate doc request = .error (.typing e)) :
    (exec (documentDecls doc) (settingOf doc request) (startOf doc request)).1 = .error e := by
  rw [generate_eq] at hrun
  cases hversion : doc.checkVersion with
  | error e =>
    rw [hversion] at hrun
    cases hrun
  | ok _ =>
    rw [← generate_eq, generate_of_version hversion] at hrun
    exact outcome_error_iff.mp hrun

end ApiTypes.Typing
