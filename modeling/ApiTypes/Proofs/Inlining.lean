import ApiTypes.Proofs.Names
import ApiTypes.Proofs.Typing.DocumentCourse
import ApiTypes.Proofs.Typing.Keeping

/-!
The references whose targets are being written out. Whatever is transformed leaves them as they
were, whether it succeeds or fails. A reference is reported as circular, and typed as unknown, only
where its own target is being written out. So nothing is reported if no reference into another
document leads back to itself, however often and from wherever the same target is referred to.
-/

namespace ApiTypes.Typing

/-- The actions that transform a part of a document. -/
inductive Transforms : {α : Type} → Typing α → Prop where
  | schemaBody (steps : Nat) (s : Option Schema) (place : String) :
    Transforms (schemaBody steps s place)
  | schemaType (s : Option Schema) (place : String) : Transforms (schemaType s place)
  | unfinishedType (s : Option Schema) (place : String) : Transforms (unfinishedType s place)
  | schemaRefType (ref place : String) : Transforms (schemaRefType ref place)
  | mediaTypeType (m : Option MediaType) (place : String) : Transforms (mediaTypeType m place)
  | mediaTypeRefType (m : Option MediaType) (place : String) :
    Transforms (mediaTypeRefType m place)
  | contentMembers (content : Content) (place : String) : Transforms (contentMembers content place)
  | headerType (h : Header) (place : String) : Transforms (headerType h place)
  | requestBodyType (b : RequestBody) (place : String) : Transforms (requestBodyType b place)
  | requestBodyMember (b : Option RequestBody) (place : String) :
    Transforms (requestBodyMember b place)
  | responseType (r : Response) (place : String) : Transforms (responseType r place)
  | responsesType (responses : Option Responses) (place : String) :
    Transforms (responsesType responses place)
  | parameterType (p : Parameter) (place : String) : Transforms (parameterType p place)
  | parametersMember (parameters : List (Option Parameter)) (place : String) :
    Transforms (parametersMember parameters place)
  | operationType (item : PathItem) (o : Operation) (place : String) (method : Method) :
    Transforms (operationType item o place method)
  | methodMember (item : PathItem) (place : String) (method : Method) :
    Transforms (methodMember item place method)
  | pathItemType (item : PathItem) (place : String) : Transforms (pathItemType item place)
  | pathItemRefType (item : PathItem) (place : String) : Transforms (pathItemRefType item place)
  | pathsType (paths : Option PathItems) : Transforms (pathsType paths)
  | webhooksType (webhooks : Option PathItems) : Transforms (webhooksType webhooks)
  | optionalComponentsType (c : Option Components) : Transforms (optionalComponentsType c)
  | definitionsType (defs : Option (OrderedMap (Option Schema))) :
    Transforms (definitionsType defs)
  | documentDecls (doc : Document) : Transforms (documentDecls doc)
  | refType {α : Type} [Referable α] {inline : α → String → Typing TypeExpr} (ref place : String) :
    (∀ x place, Transforms (inline x place)) → Transforms (refType inline ref place)

variable {α β : Type}

/-- The references being written out change only while a target is, and are then as they were. -/
theorem aside_inlining : Aside (·.inlining) where
  warning _ _ _ := rfl
  enums _ _ := rfl
  usesWithRequired _ _ := rfl
  resolver _ _ _ := rfl
  inliningRef hact := by
    refine ⟨fun σ p => ?_, fun σ => (hact.gives σ).inliningRef⟩
    rw [exec_inliningRef, hact.keeps, List.erase_cons_head]

/-- The action leaves the references being written out as they were. -/
abbrev Balanced (act : Typing α) : Prop := Keeps (·.inlining) act fun _ => True

/-- The judgement that the references being written out are left as they were. -/
abbrev balanced : Judgement := keeping aside_inlining

theorem balanced_of_transforms {α : Type} {act : Typing α} (h : Transforms act) :
    Balanced act := by
  have hregister (e : OperationEntry) (_ : balanced.Good e.type) :=
    registerOperation_keeps aside_inlining (fun _ _ => rfl) e
  have hany {γ : Type} {act : Typing γ} {post : γ → Prop} (hact : balanced.Holds act post) :
      Balanced act := Judgement.weaken hact fun _ _ => trivial
  induction h with
  | schemaBody steps s place => exact hany (schemaBody_holds steps s place)
  | schemaType s place => exact hany (schemaType_holds s place)
  | unfinishedType s place => exact hany (unfinishedType_holds s place)
  | schemaRefType ref place =>
    exact hany (refType_holds (fun target => schemaType_holds (some target)) ref place)
  | mediaTypeType m place => exact hany (mediaTypeType_holds m place)
  | mediaTypeRefType m place => exact hany (mediaTypeRefType_holds m place)
  | contentMembers content place => exact hany (contentMembers_holds content place)
  | headerType h place => exact hany (headerType_holds h place)
  | requestBodyType b place => exact hany (requestBodyType_holds b place)
  | requestBodyMember b place => exact hany (requestBodyMember_holds b place)
  | responseType r place => exact hany (responseType_holds r place)
  | responsesType responses place => exact hany (responsesType_holds responses place)
  | parameterType p place => exact hany (parameterType_holds p place)
  | parametersMember parameters place => exact hany (parametersMember_holds parameters place)
  | operationType item o place method => exact hany (operationType_holds item o place method)
  | methodMember item place method => exact hany (methodMember_holds hregister item place method)
  | pathItemType item place => exact hany (pathItemType_holds hregister item place)
  | pathItemRefType item place => exact hany (pathItemRefType_holds hregister item place)
  | pathsType paths =>
    exact balanced.bind (Judgement.entries _) fun listed _ =>
      balanced.bind (pathMembers_holds hregister listed) fun _ _ => balanced.pure trivial
  | webhooksType webhooks =>
    exact balanced.bind (Judgement.entries _) fun listed _ =>
      balanced.bind (webhookMembers_holds hregister listed) fun _ _ => balanced.pure trivial
  | optionalComponentsType c =>
    cases c with
    | none => exact balanced.pure trivial
    | some c =>
      exact balanced.bind (categoryMembers_holds c (fun _ => pathItemType_holds hregister) nofun
        fun _ _ => rfl) fun _ _ => balanced.pure trivial
  | definitionsType defs =>
    exact balanced.bind (Judgement.entries _) fun listed _ =>
      balanced.bind (definitionsMembers_holds listed) fun _ _ => balanced.pure trivial
  | documentDecls doc =>
    exact hany (documentDecls_holds hregister (fun _ => .of_eq fun _ _ => rfl) doc fun _ _ => rfl)
  | refType ref place _ ih => exact hany (refType_holds ih ref place)

section References

variable [Referable α] {inline : α → String → Typing TypeExpr} {ref place : String} {σ : Setting}
  {p : Progress}

/-- A reference whose target is being written out. -/
theorem exec_refType_circular (hexternal : Reference.isExternal ref = true)
    (hmem : Reference.canonical ref ∈ p.inlining) :
    exec (refType inline ref place) σ p =
      (.ok .unknown, { p with warnings := p.warnings ++ [cycleWarning ref place] }) := by
  unfold refType
  rw [hexternal, if_neg (by decide), exec_get_bind, if_pos (List.contains_iff_mem.mpr hmem)]
  rfl

/-- A reference whose target is not being written out. -/
theorem exec_refType_open (hexternal : Reference.isExternal ref = true)
    (hnew : Reference.canonical ref ∉ p.inlining) :
    exec (refType inline ref place) σ p = exec (do
      match ← find? α ref with
      | none => unresolved ref place
      | some target =>
        inliningRef (Reference.canonical ref) (inline target (Reference.canonical ref))) σ p := by
  unfold refType
  rw [hexternal, if_neg (by decide), exec_get_bind]
  exact congrArg (exec · σ p) (if_neg (by simpa using hnew))

end References

/-- The references that are marked as being written out are exactly those that enclose what is
transformed, and only these are reported as circular. -/
structure CyclesExact (doc : Document) (request : Request) : Prop where
  /-- In every setting and state, on success and on error. -/
  restores : ∀ {α : Type} (act : Typing α), Transforms act →
    ∀ σ p, (exec act σ p).2.inlining = p.inlining
  /-- What is marked is unknown and reported. -/
  circular : ∀ {α : Type} [Referable α] (inline : α → String → Typing TypeExpr) ref place σ p,
    Reference.isExternal ref = true → Reference.canonical ref ∈ p.inlining →
      exec (refType inline ref place) σ p =
        (.ok .unknown, { p with warnings := p.warnings ++ [cycleWarning ref place] })
  /-- What is not marked is looked up, and written out with the mark. -/
  opened : ∀ {α : Type} [Referable α] (inline : α → String → Typing TypeExpr) ref place σ p,
    Reference.isExternal ref = true → Reference.canonical ref ∉ p.inlining →
      exec (refType inline ref place) σ p = exec (do
        match ← find? α ref with
        | none => unresolved ref place
        | some target =>
          inliningRef (Reference.canonical ref) (inline target (Reference.canonical ref))) σ p
  /-- What is reported is met while its own target is being written out. -/
  enclosed : ∀ m ∈ (runOn (documentDecls doc) doc request).2.warnings, m.kind = .refCycle →
    Closes ⟨doc, request.external⟩ m
  /-- If no reference leads back to itself, nothing is reported, whether the run succeeds or not. -/
  acyclic : (∀ key, ¬ Relation.TransGen (Source.Cites ⟨doc, request.external⟩) key key) →
    (∀ m ∈ (runOn (documentDecls doc) doc request).2.warnings, m.kind ≠ .refCycle) ∧
      ∀ output, generate doc request = .ok output → ∀ m ∈ output.warnings, m.kind ≠ .refCycle

theorem closes_of_mem_warnings {doc : Document} {request : Request} :
    ∀ m ∈ (runOn (documentDecls doc) doc request).2.warnings, m.kind = .refCycle →
      Closes ⟨doc, request.external⟩ m := by
  obtain ⟨added, hadded, hcloses⟩ := (along_document doc request none).warnings
  rw [runOn_eq, hadded]
  exact hcloses

theorem warnings_of_generate {doc : Document} {request : Request} {output : Output}
    (hrun : generate doc request = .ok output) :
    output.warnings = (runOn (documentDecls doc) doc request).2.warnings := by
  have hversion : doc.checkVersion = .ok () := by
    rw [generate_eq] at hrun
    cases hversion : doc.checkVersion with
    | error e =>
      rw [hversion] at hrun
      cases hrun
    | ok _ => rfl
  rw [generate_of_version hversion] at hrun
  obtain ⟨decls, -, rfl⟩ := outcome_ok hrun
  rfl

/-- Cycle detection is exact. -/
theorem cyclesExact (doc : Document) (request : Request) : CyclesExact doc request where
  restores _ h := (balanced_of_transforms h).keeps
  circular _ _ _ _ _ hexternal hmem := exec_refType_circular hexternal hmem
  opened _ _ _ _ _ hexternal hnew := exec_refType_open hexternal hnew
  enclosed := closes_of_mem_warnings
  acyclic hacyclic := by
    have hquiet : ∀ m ∈ (runOn (documentDecls doc) doc request).2.warnings,
        m.kind ≠ .refCycle := by
      intro m hm hkind
      obtain ⟨inl, o, place, ho, hexternal, hmem, -⟩ := closes_of_mem_warnings m hm hkind
      exact hacyclic _ (ho.cites_self hexternal hmem)
    refine ⟨hquiet, fun output hrun => ?_⟩
    rw [warnings_of_generate hrun]
    exact hquiet

/-- Schemas that refer to one schema of another document, at different depths. -/
def sharedDocument : Document where
  openapi := "3.1.0"
  components := some {
    schemas := some (.ofList [
      ("Cat", some { ref := "common.yaml#/Id" }),
      ("Dog", some { ref := "common.yaml#/Id" }),
      ("Owner", some { properties := some (.ofList [
        ("id", some { ref := "common.yaml#/Id" }),
        ("pet", some { ref := "common.yaml#/Id" })]) })]) }

def fetchId : String → Kind → Option Object
  | "common.yaml#/Id", .schema => some (.schema { types := some ["string"] })
  | _, _ => none

theorem fetchId_eq {ref : String} {kind : Kind} {o : Object} (h : fetchId ref kind = some o) :
    o = .schema { types := some ["string"] } := by
  unfold fetchId at h
  split at h
  · exact (Option.some.inj h).symm
  · cases h

/-- The source of the document and its common schema. -/
def sharedSource : Source := ⟨sharedDocument, some ⟨fetchId, 1⟩⟩

theorem resolves_shared [Referable α] [LawfulReferable α] {ref : String} {x : α}
    (hexternal : Reference.isExternal ref = true) (h : sharedSource.Resolves ref x) :
    LawfulReferable.toObject x = .schema { types := some ["string"] } := by
  obtain ⟨r, hr, hfound⟩ := h
  have hlookup (node : α) (hnode : ((Resolver.lookup? α ref).run r).1 = some node) :
      LawfulReferable.toObject node = .schema { types := some ["string"] } := by
    rw [Resolver.lookup?_run, if_pos hexternal] at hnode
    split at hnode
    · rename_i o hcached
      obtain ⟨e, ref', kind, he, -, -, -, hfetch⟩ := hr.fetched _ _ (lookup_mem hcached)
      cases he
      rw [← LawfulReferable.eq_toObject hnode, fetchId_eq hfetch]
    · rw [hr.external] at hnode
      split at hnode
      · cases hnode
      · rename_i o hfetch
        rw [← LawfulReferable.eq_toObject hnode]
        exact fetchId_eq hfetch
  have hnonempty : ref ≠ "" := by
    rintro rfl
    exact absurd hexternal (by decide)
  have hend (node : α) (hnode : ((Resolver.lookup? α ref).run r).1 = some node) :
      Referable.refOf node = "" := by
    rw [← LawfulReferable.ref_toObject, hlookup node hnode]
    rfl
  exact hlookup x ((Resolver.find?_eq_lookup? hnonempty hend).symm.trans hfound)

theorem meets_shared {inl : List String} {o : Object} (h : sharedSource.Meets inl o) :
    inl = [] ∨ o = .schema { types := some ["string"] } := by
  induction h with
  | root _ => exact .inl rfl
  | part _ hinner ih =>
    rcases ih with rfl | rfl
    · exact .inl rfl
    · cases hinner
  | target _ _ hexternal _ hresolves _ => exact .inr (resolves_shared hexternal hresolves)

/-- The target holds no reference, so none leads back to itself. -/
theorem acyclic_shared (key : String) : ¬ Relation.TransGen sharedSource.Cites key key := by
  intro h
  obtain ⟨next, ⟨inl, o, ho, hexternal, -⟩, -⟩ := Relation.TransGen.head'_iff.mp h
  rcases meets_shared ho with hnil | rfl
  · cases hnil
  · exact absurd hexternal (by decide)

/-- One target is written out four times, twice inside one schema, and nothing is reported. -/
theorem cyclesExact_shared :
    (∀ key, ¬ Relation.TransGen sharedSource.Cites key key) ∧
    ∃ output, generate sharedDocument { external := some ⟨fetchId, 1⟩ } = .ok output ∧
      ∀ m ∈ output.warnings, m.kind ≠ .refCycle := by
  obtain ⟨output, hrun, -⟩ := @exists_output sharedDocument { external := some ⟨fetchId, 1⟩ }
    (fun _ => True) _ (by decide +kernel)
  exact ⟨acyclic_shared, output, hrun, ((cyclesExact _ _).acyclic acyclic_shared).2 output hrun⟩

end ApiTypes.Typing
