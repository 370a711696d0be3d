import ApiTypes.Proofs.Typing.SchemaParallel

/-!
The declarations for documents that are alike: what is sent and received, parameters, operations,
path items, components and the roots. Where a list is sorted by the names in it, the lists of both
documents come into the same order.
-/

namespace ApiTypes

variable {α β γ δ : Type} {sorted : Bool}

theorem forall₂_all {R : α → β → Prop} {l : List α} {l' : List β} (h : List.Forall₂ R l l')
    {test : α → Bool} {test' : β → Bool} (htest : ∀ x y, R x y → test x = test' y) :
    l.all test = l'.all test' := by
  induction h with
  | nil => rfl
  | cons hxy _ ih => rw [List.all_cons, List.all_cons, htest _ _ hxy, ih]

/-- Related lists stay related when both are sorted by what related members have in common. -/
theorem forall₂_mergeSort {R : α → β → Prop} {l : List α} {l' : List β}
    (h : List.Forall₂ R l l') {le : α → α → Bool} {le' : β → β → Bool}
    (hle : ∀ a a' b b', R a a' → R b b' → le a b = le' a' b') :
    List.Forall₂ R (l.mergeSort le) (l'.mergeSort le') := by
  obtain ⟨hlength, hpairs⟩ := List.forall₂_iff_zip.mp h
  -- both are what the sorted list of pairs has on its sides
  have hrel : ∀ x ∈ l.zip l', R x.1 x.2 := fun x hx => hpairs hx
  have hleft : ((l.zip l').mergeSort fun x y => le x.1 y.1).map Prod.fst = l.mergeSort le := by
    rw [List.map_mergeSort (s := le) fun _ _ _ _ => rfl, List.map_fst_zip (Nat.le_of_eq hlength)]
  have hright : ((l.zip l').mergeSort fun x y => le x.1 y.1).map Prod.snd = l'.mergeSort le' := by
    rw [List.map_mergeSort (s := le') fun x hx y hy => hle _ _ _ _ (hrel x hx) (hrel y hy),
      List.map_snd_zip (Nat.le_of_eq hlength.symm)]
  rw [← hleft, ← hright, List.forall₂_map_left_iff, List.forall₂_map_right_iff,
    List.forall₂_same]
  exact fun x hx => hrel x ((List.mergeSort_perm _ _).mem_iff.mp hx)

theorem EntryRel.setEntry {R : α → β → Prop} {key : String} {x : α} {y : β} (hxy : R x y)
    {l : List (String × α)} {l' : List (String × β)} (h : List.Forall₂ (EntryRel R) l l') :
    List.Forall₂ (EntryRel R) (OrderedMap.setEntry key x l) (OrderedMap.setEntry key y l') := by
  induction h with
  | nil => exact .cons ⟨rfl, hxy⟩ .nil
  | @cons a b _ _ hab hrest ih =>
    obtain ⟨k, v, v', rfl, rfl, hv⟩ := hab.split
    rw [OrderedMap.setEntry, OrderedMap.setEntry]
    split
    · exact .cons ⟨rfl, hxy⟩ hrest
    · exact .cons ⟨rfl, hv⟩ ih

/-- Maps made from related entries are related. -/
theorem EntryRel.ofList {R : α → β → Prop} {l : List (String × α)} {l' : List (String × β)}
    (h : List.Forall₂ (EntryRel R) l l') :
    List.Forall₂ R (OrderedMap.ofList l).values (OrderedMap.ofList l').values := by
  have hentries : List.Forall₂ (EntryRel R) (OrderedMap.ofList l).toList
      (OrderedMap.ofList l').toList := by
    refine List.rel_foldl (R := EntryRel R)
      (P := fun (m : OrderedMap α) (m' : OrderedMap β) =>
        List.Forall₂ (EntryRel R) m.toList m'.toList) ?_ .nil h
    intro m m' hm a b hab
    obtain ⟨key, x, y, rfl, rfl, hxy⟩ := hab.split
    rw [OrderedMap.toList_set, OrderedMap.toList_set]
    exact EntryRel.setEntry hxy hm
  rw [OrderedMap.values, OrderedMap.values, List.forall₂_map_left_iff, List.forall₂_map_right_iff]
  exact hentries.imp fun _ _ hab => hab.2

namespace Typing

variable {σ : Setting} {O : OperationRegistry → OperationRegistry → Prop}

theorem hasContent_eq {R : MediaType → MediaType → Prop} {content content' : Content}
    (h : MapRel sorted R content content') : hasContent content = hasContent content' := by
  unfold hasContent
  rw [EntriesRel.isEmpty_eq h]

section Contents

variable (hσ : HookFree σ)

include hσ

theorem mediaTypeType_parallel {m m' : Option MediaType}
    (h : Option.Rel (MediaType.Alike σ.options.alphabetize) m m') (place : String) :
    Parallel σ O (mediaTypeType m place) (mediaTypeType m' place) Eq := by
  cases h with
  | none => exact .pure rfl
  | @some a b hab =>
    have hschema := hab.schema
    unfold mediaTypeType
    simp only [Option.bind_some]
    generalize a.schema = s, b.schema = t at hschema
    cases hschema with
    | none => exact .pure rfl
    | some hst => exact schemaType_parallel hσ _ (.some hst)

theorem mediaTypeRefType_parallel {m m' : Option MediaType}
    (h : Option.Rel (MediaType.Alike σ.options.alphabetize) m m') (place : String) :
    Parallel σ O (mediaTypeRefType m place) (mediaTypeRefType m' place) Eq := by
  have htype := mediaTypeType_parallel hσ (O := O) h place
  unfold mediaTypeRefType
  cases h with
  | none => exact htype
  | @some a b hab =>
    simp only [Option.filter_some, hab.ref]
    cases decide (b.ref ≠ "") with
    | true =>
      simp only [if_true, hab.ref]
      exact schemaRefType_parallel hσ b.ref place
    | false => exact htype

theorem contentMembers_parallel {content content' : Content}
    (h : MapRel σ.options.alphabetize (MediaType.Alike σ.options.alphabetize) content content')
    (place : String) :
    Parallel σ O (contentMembers content place) (contentMembers content' place) Eq := by
  apply Parallel.options_bind
  apply (Parallel.entries h).bind
  intro listed listed' hlisted
  rw [← List.forall₂_eq_eq_eq]
  refine .mapM hlisted ?_
  intro a b hab
  obtain ⟨name, m, m', rfl, rfl, hm⟩ := hab.split
  exact (mediaTypeRefType_parallel hσ hm _).bind_eq fun t => .pure rfl

theorem headerType_parallel {h h' : Header} (hh : h.Alike σ.options.alphabetize h')
    (place : String) : Parallel σ O (headerType h place) (headerType h' place) Eq := by
  have hschema := hh.schema
  unfold headerType
  rw [hasContent_eq hh.content]
  generalize h.schema = s, h'.schema = t at hschema
  cases hschema with
  | some hst => exact schemaType_parallel hσ place (.some hst)
  | none =>
    split
    · contradiction
    · split
      · exact (contentMembers_parallel hσ hh.content place).bind_eq fun _ => .pure rfl
      · exact .pure rfl

theorem requestBodyType_parallel {b b' : RequestBody} (h : b.Alike σ.options.alphabetize b')
    (place : String) :
    Parallel σ O (requestBodyType b place) (requestBodyType b' place) Eq := by
  unfold requestBodyType
  rw [hasContent_eq h.content]
  split
  · exact .pure rfl
  · apply (contentMembers_parallel hσ h.content _).bind_eq
    intro members
    exact .options_bind (.pure rfl)

theorem requestBodyMember_parallel {b b' : Option RequestBody}
    (h : Option.Rel (RequestBody.Alike σ.options.alphabetize) b b') (place : String) :
    Parallel σ O (requestBodyMember b place) (requestBodyMember b' place) Eq := by
  have hknown {b b' : RequestBody} (h : b.Alike σ.options.alphabetize b') (t : TypeExpr) :
      Member.property "requestBody" (!b.required || !hasContent b.content) σ.options.immutable t
          b.doc =
        Member.property "requestBody" (!b'.required || !hasContent b'.content)
          σ.options.immutable t b'.doc := by
    rw [hasContent_eq h.content, congr_of_bare h.bare RequestBody.required fun _ => rfl,
      congr_of_bare h.bare RequestBody.doc fun _ => rfl]
  apply Parallel.options_bind
  cases h with
  | none => exact .pure rfl
  | @some b b' hb =>
    dsimp only
    rw [congr_of_bare hb.bare RequestBody.ref fun _ => rfl]
    split
    · exact (requestBodyType_parallel hσ hb place).bind_eq fun t => .pure (hknown hb t)
    · apply (Parallel.find? b'.ref).bind
      intro found found' hfound
      cases hfound with
      | none => exact (Parallel.unresolved b'.ref place).bind_eq fun t => .pure rfl
      | some hresolved =>
        apply (refType_parallel (fun _ _ place h => requestBodyType_parallel hσ h place)
          b'.ref place).bind_eq
        exact fun t => .pure (hknown hresolved t)

theorem headerMembers_parallel (place : String) {l l' : List (String × Option Header)}
    (hl : List.Forall₂ (EntryRel (Option.Rel (Header.Alike σ.options.alphabetize))) l l') :
    Parallel σ O (headerMembers place l) (headerMembers place l') Eq := by
  induction hl with
  | nil => exact .pure rfl
  | @cons a b _ _ hab _ ih =>
    obtain ⟨name, x, x', rfl, rfl, hx⟩ := hab.split
    cases hx with
    | none => exact ih
    | @some h h' hh =>
      have hdoc {h h' : Header} (hh : h.Alike σ.options.alphabetize h') : h.doc = h'.doc :=
        congr_of_bare hh.bare Header.doc fun _ => rfl
      rw [headerMembers, headerMembers]
      apply Parallel.options_bind
      dsimp only
      rw [congr_of_bare hh.bare Header.ref fun _ => rfl,
        congr_of_bare hh.bare Header.deprecated fun _ => rfl,
        congr_of_bare hh.bare Header.required fun _ => rfl, hdoc hh]
      split
      · apply (refType_parallel (fun _ _ place h => headerType_parallel hσ h place) _ _).bind_eq
        intro t
        apply (Parallel.find? h'.ref).bind
        intro found found' hfound
        have hfoundDoc : found.elim [] Header.doc = found'.elim [] Header.doc := by
          cases hfound with
          | none => rfl
          | some h => exact hdoc h
        rw [hfoundDoc]
        exact ih.bind_eq fun members => .pure rfl
      · split
        · exact ih
        · exact (headerType_parallel hσ hh _).bind_eq fun t => ih.bind_eq fun members => .pure rfl

theorem responseType_parallel {r r' : Response} (h : r.Alike σ.options.alphabetize r')
    (place : String) : Parallel σ O (responseType r place) (responseType r' place) Eq := by
  apply Parallel.options_bind
  apply (Parallel.entries h.headers).bind
  intro listed listed' hlisted
  apply (headerMembers_parallel hσ place hlisted).bind_eq
  intro headers
  exact (contentMembers_parallel hσ h.content _).bind_eq fun content => .pure rfl

theorem responseMembers_parallel (place : String) {l l' : List (String × Option Response)}
    (hl : List.Forall₂ (EntryRel (Option.Rel (Response.Alike σ.options.alphabetize))) l l') :
    Parallel σ O (responseMembers place l) (responseMembers place l') Eq := by
  induction hl with
  | nil => exact .pure rfl
  | @cons a b _ _ hab _ ih =>
    obtain ⟨code, x, x', rfl, rfl, hx⟩ := hab.split
    cases hx with
    | none => exact ih
    | @some r r' hr =>
      have hdoc {r r' : Response} (hr : r.Alike σ.options.alphabetize r') : r.doc = r'.doc :=
        congr_of_bare hr.bare Response.doc fun _ => rfl
      rw [responseMembers, responseMembers]
      apply Parallel.options_bind
      dsimp only
      rw [congr_of_bare hr.bare Response.ref fun _ => rfl, hdoc hr]
      split
      · apply (refType_parallel (fun _ _ place h => responseType_parallel hσ h place) _ _).bind_eq
        intro t
        apply (Parallel.find? r'.ref).bind
        intro found found' hfound
        have hfoundDoc : found.elim [] Response.doc = found'.elim [] Response.doc := by
          cases hfound with
          | none => rfl
          | some h => exact hdoc h
        rw [hfoundDoc]
        exact ih.bind_eq fun members => .pure rfl
      · exact (responseType_parallel hσ hr _).bind_eq fun t => ih.bind_eq fun members => .pure rfl

theorem responsesType_parallel {responses responses' : Option Responses}
    (h : MapRel σ.options.alphabetize (Response.Alike σ.options.alphabetize) responses responses')
    (place : String) :
    Parallel σ O (responsesType responses place) (responsesType responses' place) Eq := by
  apply (Parallel.entries h).bind
  intro listed listed' hlisted
  apply (responseMembers_parallel hσ place hlisted).bind_eq
  intro members
  split
  · exact .pure rfl
  · exact .pure rfl

end Contents

section Parameters

/-- A parameter as it is listed and what it stands for, each alike to that of the other document. -/
def ListedAlike (sorted : Bool) (p p' : ListedParameter) : Prop :=
  p.listed.Alike sorted p'.listed ∧ p.resolved.Alike sorted p'.resolved

variable {p p' : Parameter}

theorem resolvedParameter?_parallel (h : p.Alike σ.options.alphabetize p') :
    Parallel σ O (resolvedParameter? p) (resolvedParameter? p')
      (Option.Rel (Parameter.Alike σ.options.alphabetize)) := by
  unfold resolvedParameter?
  rw [congr_of_bare h.bare Parameter.ref fun _ => rfl]
  split
  · exact .pure (.some h)
  · exact .find? p'.ref

theorem resolveParameters_parallel (place : String) {l l' : List (Option Parameter)}
    (hl : List.Forall₂ (Option.Rel (Parameter.Alike σ.options.alphabetize)) l l') :
    Parallel σ O (resolveParameters place l) (resolveParameters place l')
      (List.Forall₂ (ListedAlike σ.options.alphabetize)) := by
  induction hl with
  | nil => exact .pure .nil
  | cons hp _ ih =>
    cases hp with
    | none => exact ih
    | some hp =>
      rw [resolveParameters, resolveParameters]
      apply (resolvedParameter?_parallel hp).bind
      intro found found' hfound
      cases hfound with
      | none =>
        dsimp only
        rw [congr_of_bare hp.bare Parameter.ref fun _ => rfl]
        exact (Parallel.unresolved _ place).bind_eq fun _ => ih
      | some hresolved =>
        apply Parallel.options_bind
        rw [congr_of_bare hresolved.bare Parameter.deprecated fun _ => rfl]
        split
        · exact ih
        · exact ih.bind fun _ _ hlisted => .pure (.cons ⟨hp, hresolved⟩ hlisted)

theorem parameterKey_parallel (h : p.Alike σ.options.alphabetize p') (place : String) :
    Parallel σ O (parameterKey p place) (parameterKey p' place) Eq := by
  rw [congr_of_bare h.bare (parameterKey · place) fun _ => rfl]
  unfold parameterKey
  dsimp only
  split
  · exact .pure rfl
  · apply (Parallel.resolving (Resolver.locate?_agree p'.ref)).bind
    intro found found' hfound
    cases hfound with
    | none => exact .pure rfl
    | @some a b hab =>
      obtain ⟨key, q, q', rfl, rfl, hq⟩ := hab.split
      dsimp only
      rw [congr_of_bare hq.bare Parameter.location fun _ => rfl,
        congr_of_bare hq.bare Parameter.name fun _ => rfl,
        congr_of_bare hq.bare Parameter.ref fun _ => rfl]
      exact .pure rfl

theorem keyedParameters_parallel {l l' : List (Option Parameter)}
    (hl : List.Forall₂ (Option.Rel (Parameter.Alike σ.options.alphabetize)) l l')
    (place : String) :
    Parallel σ O (keyedParameters l place) (keyedParameters l' place)
      (List.Forall₂ (EntryRel (Parameter.Alike σ.options.alphabetize))) := by
  refine .filterMapM (Index.forall₂_zipIdx hl 0) ?_
  rintro ⟨x, i⟩ ⟨x', j⟩ ⟨hx, rfl⟩
  dsimp only at hx ⊢
  cases hx with
  | none => exact .pure .none
  | some hp => exact (parameterKey_parallel hp _).bind_eq fun key => .pure (.some ⟨rfl, hp⟩)

theorem mergeParameters_parallel {item item' : PathItem} {o o' : Operation}
    (hitem : item.Alike σ.options.alphabetize item') (ho : o.Alike σ.options.alphabetize o')
    (place : String) (method : Method) :
    Parallel σ O (mergeParameters item o place method) (mergeParameters item' o' place method)
      (List.Forall₂ (Option.Rel (Parameter.Alike σ.options.alphabetize))) := by
  apply (keyedParameters_parallel hitem.parameters.members place).bind
  intro shared shared' hshared
  apply (keyedParameters_parallel ho.parameters.members _).bind
  intro own own' hown
  apply Parallel.pure
  rw [List.forall₂_map_left_iff, List.forall₂_map_right_iff]
  exact (EntryRel.ofList (List.rel_append hshared hown)).imp fun _ _ h => .some h

theorem pathParamType_parallel (h : p.Alike σ.options.alphabetize p') :
    Parallel σ O (pathParamType p) (pathParamType p') Eq := by
  have hschema := h.schema
  unfold pathParamType
  generalize p.schema = s, p'.schema = t at hschema
  have hnumeric {s t : Schema} (h : s.Alike σ.options.alphabetize t) :
      (s.hasType "number" || s.hasType "integer") = (t.hasType "number" || t.hasType "integer") :=
    h.congr (fun s => s.hasType "number" || s.hasType "integer") fun _ => rfl
  have hresult {s t : Schema} (h : s.Alike σ.options.alphabetize t) :
      (if s.hasType "number" || s.hasType "integer" then TypeExpr.number else TypeExpr.string) =
        if t.hasType "number" || t.hasType "integer" then .number else .string := by
    rw [hnumeric h]
  cases hschema with
  | none => exact .pure rfl
  | @some s t hst =>
    dsimp only
    rw [hst.congr Schema.isRef fun _ => rfl, hst.congr Schema.ref fun _ => rfl]
    split
    · apply (Parallel.find? t.ref).bind
      intro found found' hfound
      cases hfound with
      | none => exact .pure (hresult hst)
      | some hfound => exact .pure (hresult hfound)
    · exact .pure (hresult hst)

section Typed

variable (hσ : HookFree σ)

include hσ

theorem parameterType_parallel (h : p.Alike σ.options.alphabetize p') (place : String) :
    Parallel σ O (parameterType p place) (parameterType p' place) Eq := by
  have hschema := h.schema
  have hcontent : List.Forall₂ (EntryRel (Option.Rel (MediaType.Alike σ.options.alphabetize)))
    (entriesOf p.content) (entriesOf p'.content) := h.content
  unfold parameterType
  generalize p.schema = s, p'.schema = t at hschema
  generalize entriesOf p.content = l, entriesOf p'.content = l' at hcontent
  cases hschema with
  | some hst => exact schemaType_parallel hσ place (.some hst)
  | none =>
    cases hcontent with
    | nil => exact .pure rfl
    | @cons a b _ _ hab _ =>
      obtain ⟨name, m, m', rfl, rfl, hm⟩ := hab.split
      exact mediaTypeRefType_parallel hσ hm _

theorem parameterMember_parallel (place : String) {p p' : ListedParameter}
    (h : ListedAlike σ.options.alphabetize p p') :
    Parallel σ O (parameterMember place p) (parameterMember place p') Eq := by
  obtain ⟨hlisted, hresolved⟩ := h
  have htype (place : String) : Parallel σ O (listedType p place) (listedType p' place) Eq := by
    unfold listedType
    rw [congr_of_bare hlisted.bare Parameter.ref fun _ => rfl]
    split
    · exact parameterType_parallel hσ hresolved place
    · exact refType_parallel (fun _ _ place h => parameterType_parallel hσ h place) _ place
  unfold parameterMember
  rw [congr_of_bare hresolved.bare Parameter.location fun _ => rfl,
    congr_of_bare hresolved.bare Parameter.name fun _ => rfl,
    congr_of_bare hresolved.bare isOptionalParameter fun _ => rfl,
    congr_of_bare hresolved.bare Parameter.doc fun _ => rfl]
  exact (htype _).bind_eq fun t => .options_bind (.pure rfl)

theorem locationMember_parallel (place : String) {l l' : List ListedParameter}
    (hl : List.Forall₂ (ListedAlike σ.options.alphabetize) l l') (location : String) :
    Parallel σ O (locationMember place l location) (locationMember place l' location) Eq := by
  have hhere : List.Forall₂ (ListedAlike σ.options.alphabetize)
      (l.filter (·.resolved.location = location)) (l'.filter (·.resolved.location = location)) := by
    refine List.rel_filter (fun p p' h => ?_) hl
    simp only [congr_of_bare h.2.bare Parameter.location fun _ => rfl]
  unfold locationMember
  dsimp only
  rw [forall₂_all hhere fun p p' h => congr_of_bare h.2.bare isOptionalParameter fun _ => rfl]
  have hmembers : Parallel σ O
      ((l.filter (·.resolved.location = location)).mapM (parameterMember place))
      ((l'.filter (·.resolved.location = location)).mapM (parameterMember place)) Eq := by
    rw [← List.forall₂_eq_eq_eq]
    exact .mapM hhere fun _ _ h => parameterMember_parallel hσ place h
  exact hmembers.bind_eq fun members => .options_bind (.pure rfl)

theorem parametersMember_parallel {l l' : List (Option Parameter)}
    (hl : List.Forall₂ (Option.Rel (Parameter.Alike σ.options.alphabetize)) l l')
    (place : String) :
    Parallel σ O (parametersMember l place) (parametersMember l' place) Eq := by
  apply Parallel.options_bind
  apply (resolveParameters_parallel place hl).bind
  intro listed listed' hlisted
  dsimp only
  have hordered : List.Forall₂ (ListedAlike σ.options.alphabetize)
      (if σ.options.alphabetize then
        listed.mergeSort fun a b => a.resolved.name ≤ b.resolved.name else listed)
      (if σ.options.alphabetize then
        listed'.mergeSort fun a b => a.resolved.name ≤ b.resolved.name else listed') := by
    have hname {p p' : ListedParameter} (h : ListedAlike σ.options.alphabetize p p') :
        p.resolved.name = p'.resolved.name := congr_of_bare h.2.bare Parameter.name fun _ => rfl
    split
    · exact forall₂_mergeSort hlisted fun a a' b b' ha hb => by rw [hname ha, hname hb]
    · exact hlisted
  have hmembers : Parallel σ O
      (parameterLocations.mapM (locationMember place (if σ.options.alphabetize then
        listed.mergeSort fun a b => a.resolved.name ≤ b.resolved.name else listed)))
      (parameterLocations.mapM (locationMember place (if σ.options.alphabetize then
        listed'.mergeSort fun a b => a.resolved.name ≤ b.resolved.name else listed'))) Eq := by
    rw [← List.forall₂_eq_eq_eq]
    refine .mapM (R := Eq) (List.forall₂_same.mpr fun _ _ => rfl) ?_
    rintro location _ rfl
    exact locationMember_parallel hσ place hordered location
  exact hmembers.bind_eq fun members => .pure rfl

end Typed

end Parameters

/-! Operations are registered, so that from here on both runs have declared the same ones. -/

section Operations

theorem registerOperation_parallel (e : OperationEntry) :
    Parallel σ Eq (registerOperation e) (registerOperation e) Eq := by
  unfold registerOperation
  apply Parallel.get_bind
  intro p p' hp
  rw [hp.operations]
  obtain ⟨earlier, operations⟩ := p'.operations.register e
  refine Parallel.bind_eq (.modify fun q q' hq => { hq with operations := rfl }) fun _ => ?_
  cases earlier with
  | none => exact .pure rfl
  | some earlier =>
    apply Parallel.options_bind
    dsimp only
    split
    · exact (Parallel.throw _).bind_eq fun _ => .warn _ _ _
    · exact .warn _ _ _

theorem declaredType_parallel {o o' : Operation} (h : o.Alike sorted o') (place : String)
    (method : Method) (t : TypeExpr) :
    Parallel σ Eq (declaredType o place method t) (declaredType o' place method t) Eq := by
  rw [congr_of_bare h.bare (declaredType · place method t) fun _ => rfl]
  unfold declaredType
  split
  · exact .pure rfl
  · exact (registerOperation_parallel _).bind_eq fun _ => .pure rfl

theorem resolvedItem_parallel {item item' : PathItem}
    (h : item.Alike σ.options.alphabetize item') :
    Parallel σ O (resolvedItem item) (resolvedItem item')
      (PathItem.Alike σ.options.alphabetize) := by
  unfold resolvedItem
  rw [congr_of_bare h.bare PathItem.ref fun _ => rfl]
  split
  · exact .pure h
  · apply (Parallel.find? item'.ref).bind
    intro found found' hfound
    cases hfound with
    | none => exact .pure h
    | some hfound => exact .pure hfound

theorem pathParamTypes_parallel {item item' : PathItem}
    (h : item.Alike σ.options.alphabetize item') :
    Parallel σ O (pathParamTypes item) (pathParamTypes item') Eq := by
  have hlisted : List.Forall₂ (Option.Rel (Parameter.Alike σ.options.alphabetize))
      (item.parameters.getD [] ++ item.inOrder.flatMap fun x => x.2.parameters.getD [])
      (item'.parameters.getD [] ++ item'.inOrder.flatMap fun x => x.2.parameters.getD []) :=
    List.rel_append h.parameters.members
      (List.rel_flatMap h.inOrder fun _ _ ho => ho.2.parameters.members)
  refine Parallel.bind_eq ?_ fun types => .pure rfl
  rw [← List.forall₂_eq_eq_eq]
  refine .filterMapM hlisted fun x x' hx => ?_
  cases hx with
  | none => exact .pure .none
  | some hp =>
    dsimp only
    apply (resolvedParameter?_parallel hp).bind
    intro found found' hfound
    cases hfound with
    | none => exact .pure .none
    | some hp =>
      dsimp only
      rw [congr_of_bare hp.bare Parameter.location fun _ => rfl,
        congr_of_bare hp.bare Parameter.name fun _ => rfl]
      split
      · exact .pure .none
      · exact (pathParamType_parallel hp).bind_eq fun t => .pure (.some rfl)

section Typed

variable (hσ : HookFree σ)

include hσ

theorem operationMembers_parallel {o o' : Operation} (h : o.Alike σ.options.alphabetize o')
    (place : String) :
    Parallel σ O (operationMembers o place) (operationMembers o' place) Eq := by
  apply (parametersMember_parallel hσ h.parameters.members _).bind_eq
  intro parameters
  apply (requestBodyMember_parallel hσ h.requestBody _).bind_eq
  intro body
  apply (responsesType_parallel hσ h.responses _).bind_eq
  intro responses
  exact .options_bind (.pure rfl)

theorem operationType_parallel {item item' : PathItem} {o o' : Operation}
    (h : item.Alike σ.options.alphabetize item') (ho : o.Alike σ.options.alphabetize o')
    (place : String) (method : Method) :
    Parallel σ O (operationType item o place method) (operationType item' o' place method) Eq := by
  apply (mergeParameters_parallel h ho place method).bind
  intro parameters parameters' hparameters
  have hmerged : { o with parameters := some parameters : Operation }.Alike
      σ.options.alphabetize { o' with parameters := some parameters' } :=
    { ho with parameters := .some hparameters }
  exact (operationMembers_parallel hσ hmerged _).bind_eq fun members => .pure rfl

theorem methodMember_parallel {item item' : PathItem}
    (h : item.Alike σ.options.alphabetize item') (place : String) (method : Method) :
    Parallel σ Eq (methodMember item place method) (methodMember item' place method) Eq := by
  rw [methodMember_eq, methodMember_eq]
  apply Parallel.options_bind
  have hoperation := h.operations method
  unfold shownOperation?
  generalize item.operation? method = o, item'.operation? method = o' at hoperation
  cases hoperation with
  | none => exact .pure rfl
  | @some o o' ho =>
    simp only [Option.filter_some, congr_of_bare ho.bare Operation.deprecated fun _ => rfl]
    cases !(σ.options.excludeDeprecated && o'.deprecated) with
    | false => exact .pure rfl
    | true =>
      simp only [if_true]
      apply (operationType_parallel hσ h ho place method).bind_eq
      intro t
      apply (declaredType_parallel ho place method t).bind_eq
      intro declared
      rw [congr_of_bare ho.bare Operation.doc fun _ => rfl]
      exact .pure rfl

theorem pathItemType_parallel {item item' : PathItem}
    (h : item.Alike σ.options.alphabetize item') (place : String) :
    Parallel σ Eq (pathItemType item place) (pathItemType item' place) Eq := by
  apply (parametersMember_parallel hσ h.parameters.members _).bind_eq
  intro shared
  have hmethods : Parallel σ Eq (Method.all.mapM (methodMember item place))
      (Method.all.mapM (methodMember item' place)) Eq := by
    rw [← List.forall₂_eq_eq_eq]
    refine .mapM (R := Eq) (List.forall₂_same.mpr fun _ _ => rfl) ?_
    rintro method _ rfl
    exact methodMember_parallel hσ h place method
  exact hmethods.bind_eq fun methods => .pure rfl

theorem pathItemRefType_parallel {item item' : PathItem}
    (h : item.Alike σ.options.alphabetize item') (place : String) :
    Parallel σ Eq (pathItemRefType item place) (pathItemRefType item' place) Eq := by
  unfold pathItemRefType
  rw [congr_of_bare h.bare PathItem.ref fun _ => rfl]
  split
  · exact pathItemType_parallel hσ h place
  · exact refType_parallel (fun _ _ place h => pathItemType_parallel hσ h place) _ place

theorem pathMembers_parallel {l l' : List (String × Option PathItem)}
    (hl : List.Forall₂ (EntryRel (Option.Rel (PathItem.Alike σ.options.alphabetize))) l l') :
    Parallel σ Eq (pathMembers l) (pathMembers l') Eq := by
  induction hl with
  | nil => exact .pure rfl
  | @cons a b _ _ hab _ ih =>
    obtain ⟨path, x, x', rfl, rfl, hx⟩ := hab.split
    cases hx with
    | none => exact ih
    | some hitem =>
      rw [pathMembers, pathMembers]
      apply (pathItemRefType_parallel hσ hitem _).bind_eq
      intro t
      apply Parallel.options_bind
      dsimp only
      split
      · apply (resolvedItem_parallel hitem).bind
        intro resolved resolved' hresolved
        exact (pathParamTypes_parallel hresolved).bind_eq fun types =>
          ih.bind_eq fun members => .pure rfl
      · rw [congr_of_bare hitem.bare PathItem.doc fun _ => rfl]
        exact ih.bind_eq fun members => .pure rfl

theorem pathsType_parallel {paths paths' : Option PathItems}
    (h : MapRel σ.options.alphabetize (PathItem.Alike σ.options.alphabetize) paths paths') :
    Parallel σ Eq (pathsType paths) (pathsType paths') Eq := by
  apply (Parallel.entries h).bind
  intro listed listed' hlisted
  exact (pathMembers_parallel hσ hlisted).bind_eq fun members => .pure rfl

theorem webhookMembers_parallel {l l' : List (String × Option PathItem)}
    (hl : List.Forall₂ (EntryRel (Option.Rel (PathItem.Alike σ.options.alphabetize))) l l') :
    Parallel σ Eq (webhookMembers l) (webhookMembers l') Eq := by
  induction hl with
  | nil => exact .pure rfl
  | @cons a b _ _ hab _ ih =>
    obtain ⟨name, x, x', rfl, rfl, hx⟩ := hab.split
    cases hx with
    | none => exact ih
    | some hitem =>
      rw [webhookMembers, webhookMembers, congr_of_bare hitem.bare PathItem.doc fun _ => rfl]
      exact (pathItemRefType_parallel hσ hitem _).bind_eq fun t =>
        ih.bind_eq fun members => .pure rfl

theorem webhooksType_parallel {webhooks webhooks' : Option PathItems}
    (h : MapRel σ.options.alphabetize (PathItem.Alike σ.options.alphabetize) webhooks webhooks') :
    Parallel σ Eq (webhooksType webhooks) (webhooksType webhooks') Eq := by
  apply (Parallel.entries h).bind
  intro listed listed' hlisted
  exact (webhookMembers_parallel hσ hlisted).bind_eq fun members => .pure rfl

end Typed

end Operations

section Components

/-- Components that are written the same. -/
structure ComponentAlike (σ : Setting) (O : OperationRegistry → OperationRegistry → Prop)
    (c c' : Component) : Prop where
  name : c.name = c'.name
  deprecated : c.deprecated = c'.deprecated
  doc : c.doc = c'.doc
  typeAt : ∀ place, Parallel σ O (c.typeAt place) (c'.typeAt place) Eq

theorem componentsOf_parallel {α : Type} {R : α → α → Prop}
    {m m' : Option (OrderedMap (Option α))} (h : MapRel σ.options.alphabetize R m m')
    {component : String → α → Component}
    (hcomponent : ∀ name x y, R x y → ComponentAlike σ O (component name x) (component name y)) :
    Parallel σ O (componentsOf m component) (componentsOf m' component)
      (List.Forall₂ (ComponentAlike σ O)) := by
  apply (Parallel.entries h).bind
  intro listed listed' hlisted
  apply Parallel.pure
  refine List.rel_filterMap ?_ hlisted
  intro a b hab
  obtain ⟨name, x, y, rfl, rfl, hxy⟩ := hab.split
  cases hxy with
  | none => exact .none
  | some hxy => exact .some (hcomponent name _ _ hxy)

/-- The type of a component that may be a reference. -/
theorem namedType_parallel {α : Type} [Referable α] [Comparable α]
    {type : α → String → Typing TypeExpr}
    (htype : ∀ x y place, Comparable.Alike σ.options.alphabetize x y →
      Parallel σ O (type x place) (type y place) Eq) {x y : α}
    (h : Comparable.Alike σ.options.alphabetize x y) (place : String) :
    Parallel σ O (namedType type x place) (namedType type y place) Eq := by
  unfold namedType
  rw [Comparable.refOf_eq h]
  split
  · exact htype x y place h
  · exact refType_parallel htype _ place

theorem addAlias_parallel (category : Category) (name place : String) (aliases : Aliases) :
    Parallel σ O (addAlias category name place aliases) (addAlias category name place aliases)
      Eq := by
  apply Parallel.options_bind
  dsimp only
  split
  · exact .pure rfl
  · split
    · exact (Parallel.warn _ _ _).bind_eq fun _ => .pure rfl
    · exact .pure rfl

variable (hσ : HookFree σ)

include hσ

/-- Of the components only path items declare operations. -/
theorem listComponents_parallel {c c' : Components} (h : c.Alike σ.options.alphabetize c')
    (category : Category) (hO : category = .pathItems → O = Eq) :
    Parallel σ O (listComponents c category) (listComponents c' category)
      (List.Forall₂ (ComponentAlike σ O)) := by
  cases category with
  | schemas =>
    apply (Parallel.entries h.schemas).bind
    intro listed listed' hlisted
    apply Parallel.pure
    rw [List.forall₂_map_left_iff, List.forall₂_map_right_iff]
    refine hlisted.imp ?_
    intro a b hab
    obtain ⟨name, s, t, rfl, rfl, hst⟩ := hab.split
    refine ⟨rfl, ?_, ?_, fun place => unfinishedType_parallel hσ place hst⟩
    · cases hst with
      | none => rfl
      | some hst => exact Schema.Alike.congr hst Schema.deprecated fun _ => rfl
    · cases hst with
      | none => rfl
      | some hst => exact Schema.Alike.congr hst Schema.doc fun _ => rfl
  | responses =>
    rw [listComponents, listComponents]
    refine componentsOf_parallel h.responses fun name r r' hr => ?_
    refine ⟨rfl, rfl, congr_of_bare hr.bare Response.doc fun _ => rfl, ?_⟩
    exact namedType_parallel (fun _ _ place h => responseType_parallel hσ h place) hr
  | parameters =>
    rw [listComponents, listComponents]
    refine componentsOf_parallel h.parameters fun name p p' hp => ?_
    refine ⟨rfl, congr_of_bare hp.bare Parameter.deprecated fun _ => rfl,
      congr_of_bare hp.bare Parameter.doc fun _ => rfl, ?_⟩
    exact namedType_parallel (fun _ _ place h => parameterType_parallel hσ h place) hp
  | requestBodies =>
    rw [listComponents, listComponents]
    refine componentsOf_parallel h.requestBodies fun name b b' hb => ?_
    refine ⟨rfl, rfl, congr_of_bare hb.bare RequestBody.doc fun _ => rfl, ?_⟩
    exact namedType_parallel (fun _ _ place h => requestBodyType_parallel hσ h place) hb
  | headers =>
    rw [listComponents, listComponents]
    refine componentsOf_parallel h.headers fun name x x' hx => ?_
    refine ⟨rfl, congr_of_bare hx.bare Header.deprecated fun _ => rfl,
      congr_of_bare hx.bare Header.doc fun _ => rfl, ?_⟩
    exact namedType_parallel (fun _ _ place h => headerType_parallel hσ h place) hx
  | pathItems =>
    obtain rfl := hO rfl
    rw [listComponents, listComponents]
    refine componentsOf_parallel h.pathItems fun name item item' hitem => ?_
    refine ⟨rfl, rfl, congr_of_bare hitem.bare PathItem.doc fun _ => rfl, ?_⟩
    exact namedType_parallel (fun _ _ place h => pathItemType_parallel hσ h place) hitem

theorem componentMembers_parallel (category : Category) {l l' : List Component}
    (hl : List.Forall₂ (ComponentAlike σ O) l l') (aliases : Aliases) :
    Parallel σ O (componentMembers category aliases l) (componentMembers category aliases l')
      Eq := by
  induction hl generalizing aliases with
  | nil => exact .pure rfl
  | @cons c c' _ _ hc _ ih =>
    rw [componentMembers, componentMembers]
    apply Parallel.options_bind
    rw [hc.name, hc.deprecated, hc.doc]
    split
    · exact ih aliases
    · apply (hc.typeAt _).bind_eq
      intro t
      refine .congr (exec_typeHook_bind hσ _ _ · t _) (exec_typeHook_bind hσ _ _ · t _) ?_
      apply (addAlias_parallel category c'.name _ aliases).bind_eq
      intro aliases'
      exact (ih aliases').bind_eq fun found => .pure rfl

theorem categoryMembers_parallel {c c' : Components} (h : c.Alike σ.options.alphabetize c')
    (categories : List Category) (hO : .pathItems ∈ categories → O = Eq) (aliases : Aliases) :
    Parallel σ O (categoryMembers c aliases categories) (categoryMembers c' aliases categories)
      Eq := by
  induction categories generalizing aliases with
  | nil => exact .pure rfl
  | cons category rest ih =>
    rw [categoryMembers, categoryMembers]
    apply (listComponents_parallel hσ h category fun hcategory =>
      hO (hcategory ▸ List.mem_cons_self)).bind
    intro components components' hcomponents
    apply (componentMembers_parallel hσ category hcomponents aliases).bind_eq
    intro found
    exact (ih (fun hmem => hO (List.mem_cons_of_mem _ hmem)) found.2).bind_eq fun _ => .pure rfl

theorem optionalComponentsType_parallel {c c' : Option Components}
    (h : Option.Rel (Components.Alike σ.options.alphabetize) c c') :
    Parallel σ Eq (optionalComponentsType c) (optionalComponentsType c') Eq := by
  cases h with
  | none => exact .pure rfl
  | some h =>
    exact (categoryMembers_parallel hσ h Category.all (fun _ => rfl) {}).bind_eq fun _ => .pure rfl

theorem definitionsMembers_parallel {l l' : List (String × Option Schema)}
    (hl : List.Forall₂ (EntryRel (Option.Rel (Schema.Alike σ.options.alphabetize))) l l') :
    Parallel σ O (definitionsMembers l) (definitionsMembers l') Eq := by
  induction hl with
  | nil => exact .pure rfl
  | @cons a b _ _ hab _ ih =>
    obtain ⟨name, s, t, rfl, rfl, hst⟩ := hab.split
    have hdoc : s.elim [] Schema.doc = t.elim [] Schema.doc := by
      cases hst with
      | none => rfl
      | some hst => exact Schema.Alike.congr hst Schema.doc fun _ => rfl
    rw [definitionsMembers, definitionsMembers, hdoc]
    apply (schemaType_parallel hσ _ hst).bind_eq
    intro typed
    exact .options_bind (ih.bind_eq fun members => .pure rfl)

theorem definitionsType_parallel {defs defs' : Option (OrderedMap (Option Schema))}
    (h : MapRel σ.options.alphabetize (Schema.Alike σ.options.alphabetize) defs defs') :
    Parallel σ O (definitionsType defs) (definitionsType defs') Eq := by
  apply (Parallel.entries h).bind
  intro listed listed' hlisted
  exact (definitionsMembers_parallel hσ hlisted).bind_eq fun members => .pure rfl

theorem documentRoots_parallel {doc doc' : Document} (h : doc.Alike σ.options.alphabetize doc') :
    Parallel σ Eq (documentRoots doc) (documentRoots doc') Eq := by
  apply (pathsType_parallel hσ h.paths).bind_eq
  intro paths
  apply (webhooksType_parallel hσ h.webhooks).bind_eq
  intro webhooks
  apply (optionalComponentsType_parallel hσ h.components).bind_eq
  intro components
  exact (definitionsType_parallel hσ h.defs).bind_eq fun definitions => .pure rfl

/-- Without the enum of paths, the declarations of both documents are the same. -/
theorem documentDecls_parallel {doc doc' : Document} (h : doc.Alike σ.options.alphabetize doc')
    (hpaths : σ.options.makePathsEnum = false) :
    Parallel σ Eq (documentDecls doc) (documentDecls doc') Eq := by
  apply Parallel.options_bind
  apply (documentRoots_parallel hσ h).bind_eq
  intro roots
  apply Parallel.get_bind
  intro p p' hp
  apply Parallel.pure
  have hfurther : furtherDecls doc σ.options roots.aliases p =
      furtherDecls doc' σ.options roots.aliases p' := by
    simp only [furtherDecls, hpaths, hp.enums, hp.usesWithRequired, Bool.false_and,
      Bool.false_eq_true, if_false]
  rw [hp.operations, hfurther]

end Components

end Typing

end ApiTypes
