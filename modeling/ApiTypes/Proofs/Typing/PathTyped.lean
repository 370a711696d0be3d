import ApiTypes.Proofs.Registry
import ApiTypes.Proofs.Typing.ContentTyped

/-!
The types of parameters, operations and path items use only names that stand for something. An
operation with an id is declared before it is accessed, and a declaration stays when its content is
replaced.
-/

namespace ApiTypes

namespace OrderedMap

variable {α : Type}

/-- Setting a key keeps all keys and adds this one. -/
theorem mem_keys_set (m : OrderedMap α) (key : String) (value : α) {name : String} :
    name ∈ (m.set key value).keys ↔ name = key ∨ name ∈ m.keys := by
  rw [keys_set]
  split
  · rename_i hkey
    exact ⟨.inr, fun h => h.elim (fun heq => heq ▸ hkey) id⟩
  · rw [List.mem_append, List.mem_singleton, or_comm]

theorem mem_ofList {entries : List (String × α)} {entry : String × α}
    (h : entry ∈ (ofList entries).toList) : entry ∈ entries := by
  have hfold (start : OrderedMap α) (list : List (String × α)) :
      entry ∈ (list.foldl (fun m added => m.set added.1 added.2) start).toList →
        entry ∈ start.toList ∨ entry ∈ list := by
    induction list generalizing start with
    | nil => exact .inl
    | cons first rest ih =>
      intro hmem
      rcases ih (start.set first.1 first.2) hmem with hset | hrest
      · rcases mem_toList_set hset with rfl | ⟨-, hold⟩
        · exact .inr List.mem_cons_self
        · exact .inl hold
      · exact .inr (List.mem_cons_of_mem _ hrest)
  rcases hfold empty entries h with hnone | hmem
  · cases hnone
  · exact hmem

end OrderedMap

namespace Typing

variable {w : Source} {σ : Setting} {p : Progress}

/-- Parameters that can be met, in a list in which there may be null. -/
def HeldParameters (w : Source) (parameters : List (Option Parameter)) : Prop :=
  ∀ x, some x ∈ parameters → w.Reaches (.parameter x)

theorem HeldParameters.of_objects {parameters : Option (List (Option Parameter))}
    (h : ∀ o ∈ parameterObjects parameters, w.Reaches o) :
    HeldParameters w (parameters.getD []) :=
  fun _ hmem => h _ (Index.mem_parameterObjects hmem)

theorem parameterType_ensures (hσ : HookFree σ) {x : Parameter} (hx : w.Reaches (.parameter x))
    (place : String) : Ensures w σ p (parameterType x place) (Typed w) := by
  unfold parameterType
  split
  · exact schemaType_ensures hσ (met_of_parts hx fun s hs => by simp [Object.parts, hs]) place
  · have hcontent : Held w .mediaType x.content :=
      .of_objects fun o ho => .part hx (List.mem_append_right _ ho)
    split
    · rename_i name m rest hentries
      apply mediaTypeRefType_ensures hσ
      rintro t rfl
      exact hcontent name t (by rw [hentries]; exact List.mem_cons_self)
    · exact .pure (.keyword _)

theorem resolvedParameter?_ensures {x : Parameter} (hx : w.Reaches (.parameter x)) :
    Ensures w σ p (resolvedParameter? x) fun _ found =>
      ∀ y, found = some y → w.Reaches (.parameter y) := by
  have hasks : w.Asks x.ref := Source.Asks.held hx
  unfold resolvedParameter?
  split
  · apply Ensures.pure
    rintro y ⟨⟩
    exact hx
  · exact (find?_ensures hasks).weaken fun _ found _ hfound y hy => (hfound y hy).finds.reaches

/-- The parameters that are written and what they stand for can be met. -/
theorem resolveParameters_ensures (place : String) (parameters : List (Option Parameter))
    (hparameters : HeldParameters w parameters) :
    Ensures w σ p (resolveParameters place parameters) fun _ found =>
      ∀ x ∈ found, w.Reaches (.parameter x.listed) ∧ w.Reaches (.parameter x.resolved) := by
  induction parameters generalizing p with
  | nil =>
    rw [resolveParameters]
    exact .pure (List.forall_mem_nil _)
  | cons x rest ih =>
    have hrest (q : Progress) := ih (p := q) fun y hy => hparameters y (List.mem_cons_of_mem _ hy)
    cases x with
    | none =>
      rw [resolveParameters]
      exact hrest p
    | some x =>
      have hx : w.Reaches (.parameter x) := hparameters x List.mem_cons_self
      rw [resolveParameters]
      apply (resolvedParameter?_ensures hx).bind
      intro q found _ hfound
      cases found with
      | none =>
        apply (unresolved_ensures x.ref place).bind
        intro r _ _ _
        exact hrest r
      | some resolved =>
        apply Ensures.options_bind
        split
        · exact hrest q
        · apply (hrest q).bind
          intro r others _ hothers
          apply Ensures.pure
          intro y hy
          rcases List.mem_cons.mp hy with rfl | hmem
          · exact ⟨hx, hfound resolved rfl⟩
          · exact hothers y hmem

theorem listedType_ensures (hσ : HookFree σ) {x : ListedParameter}
    (hx : w.Reaches (.parameter x.listed) ∧ w.Reaches (.parameter x.resolved)) (place : String) :
    Ensures w σ p (listedType x place) (Typed w) := by
  have hasks : w.Asks x.listed.ref := Source.Asks.held hx.1
  unfold listedType
  split
  · exact parameterType_ensures hσ hx.2 place
  · exact refType_of_reaches (fun y place q hy => parameterType_ensures hσ hy place) hasks place

theorem locationMember_ensures (hσ : HookFree σ) (place : String)
    {parameters : List ListedParameter} (hparameters : ∀ x ∈ parameters,
      w.Reaches (.parameter x.listed) ∧ w.Reaches (.parameter x.resolved)) (location : String) :
    Ensures w σ p (locationMember place parameters location) (MemberTyped w) := by
  unfold locationMember
  have hmembers : Ensures w σ p
      ((parameters.filter (·.resolved.location = location)).mapM (parameterMember place))
      fun q members => ∀ m ∈ members, MemberTyped w q m := by
    apply Ensures.mapM MemberTyped.stable
    intro x hx q _
    unfold parameterMember
    apply (listedType_ensures hσ (hparameters x (List.mem_filter.mp hx).1) _).bind
    intro r t _ ht
    exact .options_bind (.pure (.property ht))
  apply hmembers.bind
  intro q members _ htyped
  apply Ensures.options_bind
  apply Ensures.pure
  apply Member.UsesOnly.property
  split
  · exact .keyword _
  · exact .object htyped

/-- The member for a list of parameters. -/
theorem parametersMember_ensures (hσ : HookFree σ) {parameters : List (Option Parameter)}
    (hparameters : HeldParameters w parameters) (place : String) :
    Ensures w σ p (parametersMember parameters place) (MemberTyped w) := by
  unfold parametersMember
  apply Ensures.options_bind
  apply (resolveParameters_ensures place parameters hparameters).bind
  intro q listed _ hlisted
  have hordered : ∀ x ∈ (if σ.options.alphabetize then
      listed.mergeSort fun a b => a.resolved.name ≤ b.resolved.name else listed),
      w.Reaches (.parameter x.listed) ∧ w.Reaches (.parameter x.resolved) := by
    intro x hx
    split at hx
    · exact hlisted x ((List.mergeSort_perm _ _).subset hx)
    · exact hlisted x hx
  apply (Ensures.mapM MemberTyped.stable parameterLocations fun location _ r _ =>
    locationMember_ensures hσ place hordered location).bind
  intro r members _ hmembers
  exact .pure (.property (.object hmembers))

theorem parameterKey_ensures {x : Parameter} (hx : w.Reaches (.parameter x)) (place : String) :
    Ensures w σ p (parameterKey x place) fun _ _ => True := by
  have hasks : w.Asks x.ref := Source.Asks.held hx
  unfold parameterKey
  split
  · exact .pure trivial
  · have hlocate : Ensures w σ p (resolving (Resolver.locate? Parameter x.ref)) fun _ _ => True :=
      .resolving ((Resolver.locate?_kept hasks).weaken fun _ _ => trivial)
    apply hlocate.bind
    intro q found _ _
    cases found <;> exact .pure trivial

theorem keyedParameters_ensures {parameters : List (Option Parameter)}
    (hparameters : HeldParameters w parameters) (place : String) :
    Ensures w σ p (keyedParameters parameters place) fun _ keyed =>
      ∀ entry ∈ keyed, w.Reaches (.parameter entry.2) := by
  have hstable : Stable fun (_ : Progress) (entry : String × Parameter) =>
      w.Reaches (.parameter entry.2) := fun _ _ _ _ h => h
  unfold keyedParameters
  apply Ensures.filterMapM hstable
  rintro ⟨x, i⟩ hmem q _
  cases x with
  | none => exact .pure nofun
  | some x =>
    have hx : w.Reaches (.parameter x) := hparameters x (List.fst_mem_of_mem_zipIdx hmem)
    apply (parameterKey_ensures hx _).bind
    intro r key _ _
    apply Ensures.pure
    rintro entry ⟨⟩
    exact hx

/-- The parameters of an operation and its path item, merged. -/
theorem mergeParameters_ensures {item : PathItem} {o : Operation}
    (hitem : HeldParameters w (item.parameters.getD []))
    (ho : HeldParameters w (o.parameters.getD [])) (place : String) (method : Method) :
    Ensures w σ p (mergeParameters item o place method) fun _ merged =>
      HeldParameters w merged := by
  unfold mergeParameters
  apply (keyedParameters_ensures hitem place).bind
  intro q shared _ hshared
  apply (keyedParameters_ensures ho _).bind
  intro r own _ hown
  apply Ensures.pure
  intro x hx
  obtain ⟨y, hy, heq⟩ := List.mem_map.mp hx
  cases heq
  obtain ⟨entry, hentry, rfl⟩ := List.mem_map.mp hy
  rcases List.mem_append.mp (OrderedMap.mem_ofList hentry) with h | h
  · exact hshared entry h
  · exact hown entry h

theorem operationMembers_ensures (hσ : HookFree σ) {o : Operation}
    (hparameters : HeldParameters w (o.parameters.getD []))
    (hbody : ∀ b, o.requestBody = some b → w.Reaches (.requestBody b))
    (hresponses : Held w .response o.responses) (place : String) :
    Ensures w σ p (operationMembers o place) fun q members =>
      ∀ m ∈ members, MemberTyped w q m := by
  unfold operationMembers
  apply (parametersMember_ensures hσ hparameters _).bind
  intro q parameters _ hparameters'
  apply (requestBodyMember_ensures hσ hbody _).bind
  intro r body hqr hbody'
  apply (responsesType_ensures hσ hresponses _).bind
  intro r' responses hrr' hresponses'
  apply Ensures.options_bind
  apply Ensures.pure
  apply memberTyped_cons (hqr.trans hrr') hparameters'
  apply memberTyped_cons hrr' hbody'
  apply memberTyped_cons (.refl r') (Member.UsesOnly.property hresponses')
  exact nofun

/-- Declaring an operation keeps the declared ones and adds it. -/
theorem registerOperation_ensures {e : OperationEntry} (he : Typed w p e.type) :
    Ensures w σ p (registerOperation e) fun q _ => e.id ∈ q.operations.keys := by
  unfold registerOperation
  apply Ensures.get_bind
  have hmodify : Ensures w σ p
      (modify fun q => { q with operations := p.operations.set e.id e }) fun q _ =>
        e.id ∈ q.operations.keys := by
    constructor
    intro hp
    have hext : Extends p { p with operations := p.operations.set e.id e } :=
      ⟨⟨fun _ h => h, fun _ h => (OrderedMap.mem_keys_set _ _ _).mpr (.inr h), id⟩, rfl⟩
    refine ⟨⟨hp.knows, hp.places, hp.enums, ?_⟩, hext,
      (OrderedMap.mem_keys_set _ _ _).mpr (.inl rfl)⟩
    intro key entry hentry
    rcases OrderedMap.mem_toList_set hentry with heq | ⟨-, hold⟩
    · cases heq
      exact ⟨rfl, he.mono hext.toGrows⟩
    · exact ⟨(hp.operations key entry hold).1, (hp.operations key entry hold).2.mono hext.toGrows⟩
  unfold OperationRegistry.register
  dsimp only
  apply hmodify.bind
  intro q _ _ hq
  split
  · exact .pure hq
  · apply Ensures.options_bind
    split
    · rename_i hstrict
      exact .throw_bind hstrict
    · exact (Ensures.warn _ _ _).weaken fun r _ hqr _ => hqr.operations hq

theorem declaredType_ensures (o : Operation) (place : String) (method : Method) {t : TypeExpr}
    (ht : Typed w p t) : Ensures w σ p (declaredType o place method t) (Typed w) := by
  unfold declaredType
  split
  · exact .pure ht
  · apply Ensures.bind (registerOperation_ensures ht)
    intro q _ _ hid
    apply Ensures.pure
    intro u hu
    rw [List.mem_singleton.mp hu]
    exact .operation hid

/-- The type of an operation that is written in a path item. -/
theorem operationType_ensures (hσ : HookFree σ) {item : PathItem}
    (hitem : w.Reaches (.pathItem item)) {method : Method} {o : Operation}
    (ho : shownOperation? σ.options item method = some o) (place : String) :
    Ensures w σ p (operationType item o place method) (Typed w) := by
  have hlisted : (method, o) ∈ item.inOrder :=
    PathItem.mem_inOrder.mpr (Option.filter_eq_some_iff.mp ho).1
  have hoperation : w.Reaches (.operation o) :=
    .part hitem (List.mem_append_right _ (List.mem_map.mpr ⟨(method, o), hlisted, rfl⟩))
  have hshared : HeldParameters w (item.parameters.getD []) :=
    .of_objects fun x hx => .part hitem (List.mem_append_left _ hx)
  have hown : HeldParameters w (o.parameters.getD []) :=
    .of_objects fun x hx =>
      .part hoperation (List.mem_append_left _ (List.mem_append_left _ hx))
  apply (mergeParameters_ensures hshared hown place method).bind
  intro q merged _ hmerged
  have hbody : ∀ b, o.requestBody = some b → w.Reaches (.requestBody b) := fun b hb =>
    .part hoperation (List.mem_append_left _ (List.mem_append_right _ (by simp [hb])))
  have hresponses : Held w .response o.responses :=
    .of_objects fun x hx => .part hoperation (List.mem_append_right _ hx)
  apply (operationMembers_ensures hσ (o := { o with parameters := some merged }) hmerged hbody
    hresponses _).bind
  intro r members _ hmembers
  exact .pure (.object hmembers)

theorem methodMember_ensures (hσ : HookFree σ) {item : PathItem}
    (hitem : w.Reaches (.pathItem item)) (place : String) (method : Method) :
    Ensures w σ p (methodMember item place method) (MemberTyped w) := by
  rw [methodMember_eq]
  apply Ensures.options_bind
  split
  · exact .pure (.property (.keyword _))
  · rename_i o ho
    apply (operationType_ensures hσ hitem ho place).bind
    intro q t _ ht
    apply (declaredType_ensures o place method ht).bind
    intro r declared _ hdeclared
    exact .pure (.property hdeclared)

/-- The type of a path item. -/
theorem pathItemType_ensures (hσ : HookFree σ) {item : PathItem}
    (hitem : w.Reaches (.pathItem item)) (place : String) :
    Ensures w σ p (pathItemType item place) (Typed w) := by
  unfold pathItemType
  have hshared : HeldParameters w (item.parameters.getD []) :=
    .of_objects fun x hx => .part hitem (List.mem_append_left _ hx)
  apply (parametersMember_ensures hσ hshared _).bind
  intro q shared _ hmember
  apply (Ensures.mapM MemberTyped.stable Method.all fun method _ r _ =>
    methodMember_ensures hσ hitem place method).bind
  intro r methods hqr hmethods
  exact .pure (.object (memberTyped_cons hqr hmember hmethods))

theorem pathItemRefType_ensures (hσ : HookFree σ) {item : PathItem}
    (hitem : w.Reaches (.pathItem item)) (place : String) :
    Ensures w σ p (pathItemRefType item place) (Typed w) := by
  have hasks : w.Asks item.ref := Source.Asks.held hitem
  unfold pathItemRefType
  split
  · exact pathItemType_ensures hσ hitem place
  · exact refType_of_reaches (fun x place q hx => pathItemType_ensures hσ hx place) hasks place

theorem resolvedItem_ensures {item : PathItem} (hitem : w.Reaches (.pathItem item)) :
    Ensures w σ p (resolvedItem item) fun _ found => w.Reaches (.pathItem found) := by
  have hasks : w.Asks item.ref := Source.Asks.held hitem
  unfold resolvedItem
  split
  · exact .pure hitem
  · apply (find?_ensures hasks (α := PathItem)).bind
    intro q found _ hfound
    apply Ensures.pure
    cases found with
    | none => exact hitem
    | some x => exact (hfound x rfl).finds.reaches

theorem pathParamType_ensures {x : Parameter} (hx : w.Reaches (.parameter x)) :
    Ensures w σ p (pathParamType x) (Typed w) := by
  have hlast (schema : Option Schema) (q : Progress) : Ensures w σ q
      (pure (if schema.any fun s => s.hasType "number" || s.hasType "integer" then .number
        else .string)) (Typed w) := by
    apply Ensures.pure
    split <;> exact TypeExpr.UsesOnly.keyword _
  unfold pathParamType
  cases hschema : x.schema with
  | none => exact hlast none p
  | some s =>
    have hs : w.Reaches (.schema s) := .part hx (by simp [Object.parts, hschema])
    have hasks : w.Asks s.ref := Source.Asks.held hs
    dsimp only
    split
    · apply (find?_ensures hasks (α := Schema)).bind
      intro q found _ _
      exact hlast _ q
    · exact hlast _ p

/-- The types of path parameters are keywords. -/
theorem pathParamTypes_ensures {item : PathItem} (hitem : w.Reaches (.pathItem item)) :
    Ensures w σ p (pathParamTypes item) fun q types => ∀ entry ∈ types, Typed w q entry.2 := by
  have hlisted : HeldParameters w (item.parameters.getD [] ++
      item.inOrder.flatMap fun entry => entry.2.parameters.getD []) := by
    intro x hx
    rcases List.mem_append.mp hx with hshared | hown
    · exact .part hitem (List.mem_append_left _ (Index.mem_parameterObjects hshared))
    · obtain ⟨⟨method, o⟩, ho, hmem⟩ := List.mem_flatMap.mp hown
      have hoperation : w.Reaches (.operation o) :=
        .part hitem (List.mem_append_right _ (List.mem_map.mpr ⟨(method, o), ho, rfl⟩))
      exact .part hoperation
        (List.mem_append_left _ (List.mem_append_left _ (Index.mem_parameterObjects hmem)))
  have hstable : Stable fun (q : Progress) (entry : String × TypeExpr) => Typed w q entry.2 :=
    fun _ _ _ h ht => ht.mono h.toGrows
  unfold pathParamTypes
  apply (Ensures.filterMapM hstable _ ?_).bind
  · intro q types _ htypes
    exact .pure fun entry hentry => htypes entry (List.mem_reverse.mp hentry)
  · intro x hx q _
    cases x with
    | none => exact .pure nofun
    | some x =>
      apply (resolvedParameter?_ensures (hlisted x hx)).bind
      intro r found _ hfound
      cases found with
      | none => exact .pure nofun
      | some y =>
        dsimp only
        split
        · exact .pure nofun
        · apply (pathParamType_ensures (hfound y rfl)).bind
          intro r' t _ ht
          apply Ensures.pure
          rintro entry ⟨⟩
          exact ht

theorem typed_toType_template (template : PathTemplate) {types : List (String × TypeExpr)}
    (htypes : ∀ entry ∈ types, Typed w p entry.2) : Typed w p (template.toType types) := by
  apply TypeExpr.UsesOnly.template
  intro t tail hspan
  obtain ⟨⟨name, tail'⟩, -, heq⟩ := List.mem_map.mp hspan
  cases heq
  cases hfound : types.lookup name with
  | none => exact .keyword _
  | some found => exact htypes (name, found) (lookup_mem hfound)

end Typing

end ApiTypes
