import ApiTypes.Proofs.Typing.PathTyped
import ApiTypes.Proofs.Typing.Siting

/-!
Two runs over what holds schemas, up to a whole document. They end alike if the schemas that stand
in it are typed alike where they stand.
-/

namespace ApiTypes.Typing

variable {α β : Type} {σ σ' : Setting} {At : Option Schema → String → String → Prop}

/-- The schemas at the spots below two places stand there in the two runs. -/
def Sited (At : Option Schema → String → String → Prop) (place place' : String) (spots : Spots) :
    Prop :=
  ∀ spot ∈ spots, At spot.2 (Reference.join place (texts spot.1))
    (Reference.join place' (texts spot.1))

namespace Sited

variable {place place' : String} {spots more : Spots}

theorem left (h : Sited At place place' (spots ++ more)) : Sited At place place' spots :=
  fun spot hspot => h spot (List.mem_append_left _ hspot)

theorem right (h : Sited At place place' (spots ++ more)) : Sited At place place' more :=
  fun spot hspot => h spot (List.mem_append_right _ hspot)

theorem under {steps : List Step} (h : Sited At place place' (spots.under steps)) :
    Sited At (Reference.join place (texts steps)) (Reference.join place' (texts steps)) spots := by
  rintro ⟨rest, s⟩ hspot
  have hbelow := h (steps ++ rest, s) (List.mem_map.mpr ⟨_, hspot, rfl⟩)
  rwa [texts, List.map_append, ← Reference.join_join, ← Reference.join_join] at hbelow

theorem of_mem {list : List α} {f : α → Spots} (h : Sited At place place' (list.flatMap f))
    {x : α} (hx : x ∈ list) : Sited At place place' (f x) :=
  fun spot hspot => h spot (List.mem_flatMap.mpr ⟨x, hx, hspot⟩)

theorem entry {m : Option (OrderedMap (Option α))} {f : α → Spots}
    (h : Sited At place place' (spotsOfEntries m f)) {name : String} {x : α}
    (hx : (name, some x) ∈ entriesOf m) :
    Sited At (Reference.join place [name]) (Reference.join place' [name]) (f x) :=
  ((h.of_mem hx).of_mem (List.mem_singleton_self x)).under

end Sited

section Content

variable (hsiting : Siting σ σ' At) {place place' : String}

include hsiting

theorem mediaTypeRefType_matches {m : Option MediaType}
    (h : ∀ x ∈ m, Sited At place place' x.spots) :
    Matches σ σ' (mediaTypeRefType m place) (mediaTypeRefType m place') := by
  unfold mediaTypeRefType
  split
  · exact schemaRefType_matches hsiting _ place place'
  · unfold mediaTypeType
    split
    · exact .pure _
    · rename_i s hschema
      obtain ⟨x, rfl, hx⟩ := Option.bind_eq_some_iff.mp hschema
      apply schemaType_matches hsiting
      exact h x rfl ([.key "schema"], some s) (by simp [MediaType.spots, hx])

theorem contentMembers_matches {content : Content}
    (h : Sited At place place' (spotsOfContent content)) :
    Matches σ σ' (contentMembers content place) (contentMembers content place') := by
  apply Matches.options_bind
  rw [hsiting.options]
  refine (Matches.entries hsiting.options _).bind_gives (.entries _) fun listed hlisted => ?_
  refine .mapM fun entry hentry => ?_
  obtain ⟨name, m⟩ := entry
  have hm : ∀ x ∈ m, Sited At (Reference.join place [name]) (Reference.join place' [name])
      x.spots := by
    rintro x rfl
    exact h.entry (hlisted.mem_iff.mp hentry)
  exact (mediaTypeRefType_matches hsiting hm).bind fun _ => .pure _

/-- The types of a request body at two places. -/
theorem requestBodyType_matches {b : RequestBody} (h : Sited At place place' b.spots) :
    Matches σ σ' (requestBodyType b place) (requestBodyType b place') := by
  unfold requestBodyType
  split
  · exact .pure _
  · refine (contentMembers_matches hsiting h.under).bind fun _ => .options_bind ?_
    rw [hsiting.options]
    exact .pure _

end Content

/-- Where the schemas stand that are met on the way through a document, at the same places in both
runs. -/
structure Settled (σ σ' : Setting) (At : Option Schema → String → String → Prop) : Prop extends
    Siting σ σ' At where
  typeHooks : σ'.typeHooks = σ.typeHooks
  targets {ref : String} (o : Object) : Reference.isExternal ref = true →
    Sited At (Reference.canonical ref) (Reference.canonical ref) o.spots

/-- What has a type at a place has the same type there in both runs. -/
abbrev Steady (σ σ' : Setting) (act : Typing α) : Prop := Matches σ σ' act act

section Walk

variable (hsettled : Settled σ σ' At) {place : String}

include hsettled

/-- A reference, given what is written out in its place. -/
theorem refType_steady [Referable α] {type : α → String → Typing TypeExpr} (object : α → Object)
    (htype : ∀ x place, Reference.join place [] = place →
      Sited At place place (object x).spots → Steady σ σ' (type x place)) (ref place : String) :
    Steady σ σ' (refType type ref place) := by
  refine refType_matches hsettled.options (fun hexternal x => ?_) place place
  exact htype x _ (Reference.join_canonical hexternal) (hsettled.targets (object x) hexternal)

/-- A header or a parameter with a schema of its own. -/
theorem schemaType_steady {schema : Option Schema} {content : Content}
    (hplace : Reference.join place [] = place)
    (h : Sited At place place (spotsOfValue schema content))
    (hschema : schema.isSome = true) : Steady σ σ' (schemaType schema place) := by
  obtain ⟨s, rfl⟩ := Option.isSome_iff_exists.mp hschema
  apply schemaType_matches hsettled.toSiting
  have hs := h ([], some s) (by simp [spotsOfValue])
  rwa [texts, List.map_nil, hplace] at hs

theorem headerType_steady (h : Header) (place : String) (hplace : Reference.join place [] = place)
    (hspots : Sited At place place h.spots) : Steady σ σ' (headerType h place) := by
  unfold headerType
  split
  · rename_i hschema
    exact schemaType_steady hsettled hplace hspots hschema
  · split
    · exact (contentMembers_matches hsettled.toSiting hspots.right).bind fun _ => .pure _
    · exact .pure _

theorem headerMembers_steady {headers : Option (OrderedMap (Option Header))}
    (h : Sited At (Reference.join place ["headers"]) (Reference.join place ["headers"])
      (spotsOfEntries headers Header.spots)) {list : List (String × Option Header)}
    (hlist : ∀ entry ∈ list, entry ∈ entriesOf headers) :
    Steady σ σ' (headerMembers place list) := by
  induction list with
  | nil => exact .pure []
  | cons entry rest ih =>
    have hrest := ih fun entry hentry => hlist entry (List.mem_cons_of_mem _ hentry)
    obtain ⟨name, header⟩ := entry
    cases header with
    | none => exact hrest
    | some header =>
      have hspots := h.entry (hlist _ List.mem_cons_self)
      rw [Reference.join_join] at hspots
      rw [headerMembers]
      apply Matches.options_bind
      rw [hsettled.options]
      dsimp only
      split
      · refine (refType_steady hsettled .header (headerType_steady hsettled) _ _).bind
          fun _ => ?_
        exact (Matches.find? _).bind fun _ => hrest.bind fun _ => .pure _
      · split
        · exact hrest
        · refine (headerType_steady hsettled header _ (Reference.join_join _ _ _) hspots).bind
            fun _ => ?_
          exact hrest.bind fun _ => .pure _

theorem responseType_steady (r : Response) (place : String)
    (hspots : Sited At place place r.spots) : Steady σ σ' (responseType r place) := by
  apply Matches.options_bind
  rw [hsettled.options]
  refine (Matches.entries hsettled.options _).bind_gives (.entries _) fun listed hlisted => ?_
  refine (headerMembers_steady hsettled hspots.left.under fun _ => hlisted.mem_iff.mp).bind
    fun _ => ?_
  exact (contentMembers_matches hsettled.toSiting hspots.right.under).bind fun _ => .pure _

theorem responseMembers_steady {responses : Option Responses}
    (h : Sited At place place (spotsOfEntries responses Response.spots))
    {list : List (String × Option Response)} (hlist : ∀ entry ∈ list, entry ∈ entriesOf responses) :
    Steady σ σ' (responseMembers place list) := by
  induction list with
  | nil => exact .pure []
  | cons entry rest ih =>
    have hrest := ih fun entry hentry => hlist entry (List.mem_cons_of_mem _ hentry)
    obtain ⟨code, r⟩ := entry
    cases r with
    | none => exact hrest
    | some r =>
      rw [responseMembers]
      apply Matches.options_bind
      rw [hsettled.options]
      dsimp only
      split
      · refine (refType_steady hsettled .response
          (fun x place _ => responseType_steady hsettled x place) _ _).bind fun _ => ?_
        exact (Matches.find? _).bind fun _ => hrest.bind fun _ => .pure _
      · refine (responseType_steady hsettled r _ (h.entry (hlist _ List.mem_cons_self))).bind
          fun _ => ?_
        exact hrest.bind fun _ => .pure _

theorem responsesType_steady {responses : Option Responses}
    (h : Sited At place place (spotsOfEntries responses Response.spots)) :
    Steady σ σ' (responsesType responses place) := by
  refine (Matches.entries hsettled.options _).bind_gives (.entries _) fun listed hlisted => ?_
  refine (responseMembers_steady hsettled h fun _ => hlisted.mem_iff.mp).bind fun members => ?_
  split
  · exact .pure _
  · exact .pure _

theorem requestBodyMember_steady {b : Option RequestBody}
    (h : ∀ x ∈ b, Sited At place place x.spots) : Steady σ σ' (requestBodyMember b place) := by
  have hbody (x : RequestBody) (place : String) (_ : Reference.join place [] = place)
      (hx : Sited At place place x.spots) := requestBodyType_matches hsettled.toSiting hx
  apply Matches.options_bind
  rw [hsettled.options]
  cases b with
  | none => exact .pure _
  | some b =>
    dsimp only
    split
    · exact (requestBodyType_matches hsettled.toSiting (h b rfl)).bind fun _ => .pure _
    · refine (Matches.find? _).bind fun found => ?_
      cases found with
      | none => exact (Matches.unresolved hsettled.options _ _ _).bind fun _ => .pure _
      | some resolved =>
        exact (refType_steady hsettled .requestBody hbody _ _).bind fun _ => .pure _

end Walk

/-! Parameters. -/

theorem Sited.parameter {list : List (Option Parameter)} {p : Parameter} {place place' : String}
    (h : Sited At place place' (spotsOfParameters list)) (hp : some p ∈ list) :
    Sited At (Reference.join place ["parameters", p.location, p.name])
      (Reference.join place' ["parameters", p.location, p.name]) p.spots :=
  ((h.of_mem hp).of_mem (List.mem_singleton_self p)).under

theorem resolvedParameter?_gives (p : Parameter) :
    Gives σ (resolvedParameter? p) fun found => ∀ x, found = some x → p.ref = "" → x = p := by
  unfold resolvedParameter?
  split
  · refine .pure ?_
    rintro x ⟨⟩ -
    rfl
  · rename_i href
    exact (Gives.any _).weaken fun _ _ _ _ hnone => absurd hnone href

/-- A parameter that stands for itself is one of the list. -/
theorem resolveParameters_gives (place : String) (parameters : List (Option Parameter)) :
    Gives σ (resolveParameters place parameters) fun found =>
      ∀ x ∈ found, x.listed.ref = "" → some x.resolved ∈ parameters := by
  have hlater {found : List ListedParameter} {first : Option Parameter}
      {rest : List (Option Parameter)}
      (h : ∀ x ∈ found, x.listed.ref = "" → some x.resolved ∈ rest) :
      ∀ x ∈ found, x.listed.ref = "" → some x.resolved ∈ first :: rest :=
    fun x hx href => List.mem_cons_of_mem _ (h x hx href)
  induction parameters with
  | nil => exact .pure (List.forall_mem_nil _)
  | cons first rest ih =>
    cases first with
    | none => exact ih.weaken fun _ => hlater
    | some p =>
      rw [resolveParameters]
      refine (resolvedParameter?_gives p).bind fun found hfound => ?_
      cases found with
      | none => exact (Gives.any _).bind fun _ _ => ih.weaken fun _ => hlater
      | some resolved =>
        refine .options_bind ?_
        split
        · exact ih.weaken fun _ => hlater
        · refine ih.bind fun listed hlisted => .pure (List.forall_mem_cons.mpr ⟨?_, hlater hlisted⟩)
          intro href
          rw [hfound resolved rfl href]
          exact List.mem_cons_self

theorem keyedParameters_gives (parameters : List (Option Parameter)) (place : String) :
    Gives σ (keyedParameters parameters place) fun keyed =>
      ∀ entry ∈ keyed, some entry.2 ∈ parameters := by
  refine .filterMapM fun entry hentry => ?_
  obtain ⟨p, i⟩ := entry
  have hmem := List.fst_mem_of_mem_zipIdx hentry
  cases p with
  | none => exact .pure nofun
  | some p =>
    refine (Gives.any _).bind fun key _ => .pure ?_
    rintro _ ⟨⟩
    exact hmem

/-- An operation has its own parameters and those of its path item. -/
theorem mergeParameters_gives (item : PathItem) (o : Operation) (place : String)
    (method : Method) :
    Gives σ (mergeParameters item o place method) fun merged =>
      ∀ p ∈ merged, p ∈ item.parameters.getD [] ++ o.parameters.getD [] := by
  refine (keyedParameters_gives _ _).bind fun shared hshared => ?_
  refine (keyedParameters_gives _ _).bind fun own hown => .pure fun p hp => ?_
  obtain ⟨x, hx, rfl⟩ := List.mem_map.mp hp
  obtain ⟨entry, hentry, rfl⟩ := List.mem_map.mp hx
  rcases List.mem_append.mp (OrderedMap.mem_ofList hentry) with h | h
  · exact List.mem_append_left _ (hshared entry h)
  · exact List.mem_append_right _ (hown entry h)

section Parameters

variable (hsettled : Settled σ σ' At) {place : String}

theorem resolvedParameter?_steady (p : Parameter) : Steady σ σ' (resolvedParameter? p) := by
  unfold resolvedParameter?
  split
  · exact .pure _
  · exact .find? _

include hsettled

theorem parameterType_steady (p : Parameter) (place : String)
    (hplace : Reference.join place [] = place) (hspots : Sited At place place p.spots) :
    Steady σ σ' (parameterType p place) := by
  unfold parameterType
  split
  · rename_i hschema
    exact schemaType_steady hsettled hplace hspots hschema
  · split
    · rename_i name m rest hentries
      apply mediaTypeRefType_matches hsettled.toSiting
      rintro x rfl
      exact hspots.right.entry (by rw [hentries]; exact List.mem_cons_self)
    · exact .pure _

theorem resolveParameters_steady (parameters : List (Option Parameter)) :
    Steady σ σ' (resolveParameters place parameters) := by
  induction parameters with
  | nil => exact .pure []
  | cons first rest ih =>
    cases first with
    | none => exact ih
    | some p =>
      rw [resolveParameters]
      refine (resolvedParameter?_steady p).bind fun found => ?_
      cases found with
      | none => exact (Matches.unresolved hsettled.options _ _ _).bind fun _ => ih
      | some resolved =>
        apply Matches.options_bind
        rw [hsettled.options]
        split
        · exact ih
        · exact ih.bind fun _ => .pure _

theorem parameterMember_steady {parameters : List (Option Parameter)}
    (h : Sited At place place (spotsOfParameters parameters)) {p : ListedParameter}
    (hp : p.listed.ref = "" → some p.resolved ∈ parameters) :
    Steady σ σ' (parameterMember (Reference.join place ["parameters"]) p) := by
  have htype : Steady σ σ' (listedType p (Reference.join (Reference.join place ["parameters"])
      [p.resolved.location, p.resolved.name])) := by
    unfold listedType
    rw [Reference.join_join]
    split
    · rename_i href
      exact parameterType_steady hsettled _ _ (Reference.join_join _ _ _) (h.parameter (hp href))
    · exact refType_steady hsettled .parameter (parameterType_steady hsettled) _ _
  refine htype.bind fun t => .options_bind ?_
  rw [hsettled.options]
  exact .pure _

theorem parametersMember_steady {parameters : List (Option Parameter)}
    (h : Sited At place place (spotsOfParameters parameters)) :
    Steady σ σ' (parametersMember parameters (Reference.join place ["parameters"])) := by
  apply Matches.options_bind
  rw [hsettled.options]
  refine (resolveParameters_steady hsettled parameters).bind_gives (resolveParameters_gives _ _)
    fun listed hlisted => ?_
  extract_lets ordered
  have hordered : ∀ p ∈ ordered, p.listed.ref = "" → some p.resolved ∈ parameters := by
    intro p hp
    dsimp only [ordered] at hp
    split at hp
    · exact hlisted p ((List.mergeSort_perm _ _).subset hp)
    · exact hlisted p hp
  refine (Matches.mapM fun location _ => ?_).bind fun _ => .pure _
  refine (Matches.mapM fun p hp =>
    parameterMember_steady hsettled h (hordered p (List.mem_filter.mp hp).1)).bind fun _ => ?_
  apply Matches.options_bind
  rw [hsettled.options]
  exact .pure _

omit hsettled in
theorem keyedParameters_steady (parameters : List (Option Parameter)) :
    Steady σ σ' (keyedParameters parameters place) := by
  refine .filterMapM fun entry _ => ?_
  obtain ⟨p, i⟩ := entry
  cases p with
  | none => exact .pure _
  | some p =>
    refine Matches.bind ?_ fun _ => .pure _
    unfold parameterKey
    dsimp only
    split
    · exact .pure _
    · refine (Matches.resolving _).bind fun found => ?_
      cases found with
      | none => exact .pure _
      | some found => exact .pure _

end Parameters

/-! Operations and path items. -/

section Paths

variable (hsettled : Settled σ σ' At) {place : String}

include hsettled

/-- The parameters are given separately: those of the path item are among them. -/
theorem operationMembers_steady {o : Operation} {shared : List (Option Parameter)}
    {parameters : List (Option Parameter)} (h : Sited At place place (o.spots shared))
    (hparameters : ∀ p ∈ parameters, p ∈ shared ++ o.parameters.getD []) :
    Steady σ σ' (operationMembers { o with parameters := some parameters } place) := by
  have hlisted : Sited At place place (spotsOfParameters parameters) := by
    intro spot hspot
    obtain ⟨p, hp, hmem⟩ := List.mem_flatMap.mp hspot
    exact h.left.left spot (List.mem_flatMap.mpr ⟨p, hparameters p hp, hmem⟩)
  have hbody : ∀ b ∈ o.requestBody, Sited At (Reference.join place ["requestBody"])
      (Reference.join place ["requestBody"]) b.spots :=
    fun b hb => (h.left.right.of_mem (Option.mem_toList.mpr hb)).under
  refine (parametersMember_steady hsettled hlisted).bind fun _ => ?_
  refine (requestBodyMember_steady hsettled hbody).bind fun _ => ?_
  refine (responsesType_steady hsettled h.right.under).bind fun _ => .options_bind ?_
  rw [hsettled.options]
  exact .pure _

omit hsettled in
/-- Which operations are declared depends on no place of a schema. -/
theorem declaredType_steady (hoptions : σ'.options = σ.options) (o : Operation) (method : Method)
    (t : TypeExpr) : Steady σ σ' (declaredType o place method t) := by
  have hregister (e : OperationEntry) : Steady σ σ' (registerOperation e) := by
    apply Matches.get_bind
    rintro p _ ⟨warnings, rfl⟩
    dsimp only
    obtain ⟨earlier, operations⟩ := p.operations.register e
    refine (Matches.modify ?_).bind fun _ => ?_
    · rintro q _ ⟨warnings', rfl⟩
      exact ⟨warnings', rfl⟩
    · cases earlier with
      | none => exact .pure _
      | some earlier =>
        apply Matches.options_bind
        rw [hoptions]
        split
        · exact (Matches.throw _ _).bind fun _ => .warn _ _ _ _
        · exact .warn _ _ _ _
  unfold declaredType
  split
  · exact .pure _
  · exact (hregister _).bind fun _ => .pure _

theorem methodMember_steady {item : PathItem} (h : Sited At place place item.spots)
    (method : Method) : Steady σ σ' (methodMember item place method) := by
  apply Matches.options_bind
  rw [hsettled.options]
  split
  · exact .pure _
  · rename_i o ho
    have hlisted : (method, o) ∈ item.inOrder :=
      PathItem.mem_inOrder.mpr (Option.filter_eq_some_iff.mp ho).1
    have hspots := (h.right.of_mem hlisted).under
    have hmerge : Steady σ σ' (mergeParameters item o place method) :=
      (keyedParameters_steady _).bind fun _ => (keyedParameters_steady _).bind fun _ => .pure _
    refine hmerge.bind_gives (mergeParameters_gives _ _ _ _) fun parameters hparameters => ?_
    refine (operationMembers_steady hsettled hspots hparameters).bind fun _ => ?_
    exact (declaredType_steady hsettled.options o method _).bind fun _ => .pure _

theorem pathItemType_steady (item : PathItem) (place : String)
    (h : Sited At place place item.spots) : Steady σ σ' (pathItemType item place) :=
  (parametersMember_steady hsettled h.left).bind fun _ =>
    (Matches.mapM fun method _ => methodMember_steady hsettled h method).bind fun _ => .pure _

theorem pathItemRefType_steady {item : PathItem} (h : Sited At place place item.spots) :
    Steady σ σ' (pathItemRefType item place) := by
  unfold pathItemRefType
  split
  · exact pathItemType_steady hsettled item place h
  · exact refType_steady hsettled .pathItem
      (fun x place _ => pathItemType_steady hsettled x place) _ _

omit hsettled in
theorem resolvedItem_steady (item : PathItem) : Steady σ σ' (resolvedItem item) := by
  unfold resolvedItem
  split
  · exact .pure _
  · exact (Matches.find? _).bind fun _ => .pure _

omit hsettled in
theorem pathParamTypes_steady (item : PathItem) : Steady σ σ' (pathParamTypes item) := by
  have htype (p : Parameter) : Steady σ σ' (pathParamType p) := by
    unfold pathParamType
    cases p.schema with
    | none => exact .pure _
    | some s =>
      dsimp only
      split
      · exact (Matches.find? _).bind fun _ => .pure _
      · exact .pure _
  refine (Matches.filterMapM fun p _ => ?_).bind fun _ => .pure _
  cases p with
  | none => exact .pure _
  | some p =>
    refine (resolvedParameter?_steady p).bind fun found => ?_
    cases found with
    | none => exact .pure _
    | some p =>
      dsimp only
      split
      · exact .pure _
      · exact (htype p).bind fun _ => .pure _

/-! Roots. -/

theorem pathMembers_steady {paths : Option PathItems}
    (h : Sited At "#" "#" ((spotsOfEntries paths PathItem.spots).under [.key "paths"]))
    {list : List (String × Option PathItem)} (hlist : ∀ entry ∈ list, entry ∈ entriesOf paths) :
    Steady σ σ' (pathMembers list) := by
  induction list with
  | nil => exact .pure []
  | cons entry rest ih =>
    have hrest := ih fun entry hentry => hlist entry (List.mem_cons_of_mem _ hentry)
    obtain ⟨path, item⟩ := entry
    cases item with
    | none => exact hrest
    | some item =>
      have hspots := h.under.entry (hlist _ List.mem_cons_self)
      rw [Reference.join_join] at hspots
      rw [pathMembers]
      refine (pathItemRefType_steady hsettled hspots).bind fun t => .options_bind ?_
      rw [hsettled.options]
      dsimp only
      split
      · refine (resolvedItem_steady item).bind fun resolved => ?_
        refine (pathParamTypes_steady resolved).bind fun types => ?_
        exact hrest.bind fun _ => .pure _
      · exact hrest.bind fun _ => .pure _

theorem webhookMembers_steady {webhooks : Option PathItems}
    (h : Sited At "#" "#" ((spotsOfEntries webhooks PathItem.spots).under [.key "webhooks"]))
    {list : List (String × Option PathItem)} (hlist : ∀ entry ∈ list, entry ∈ entriesOf webhooks) :
    Steady σ σ' (webhookMembers list) := by
  induction list with
  | nil => exact .pure []
  | cons entry rest ih =>
    have hrest := ih fun entry hentry => hlist entry (List.mem_cons_of_mem _ hentry)
    obtain ⟨name, item⟩ := entry
    cases item with
    | none => exact hrest
    | some item =>
      have hspots := h.under.entry (hlist _ List.mem_cons_self)
      rw [Reference.join_join] at hspots
      rw [webhookMembers]
      exact (pathItemRefType_steady hsettled hspots).bind fun t => hrest.bind fun _ => .pure _

theorem definitionsMembers_steady {defs : Option (OrderedMap (Option Schema))}
    (h : Sited At "#" "#" ((spotsOfSchemas defs).under [.key "$defs"]))
    {list : List (String × Option Schema)} (hlist : ∀ entry ∈ list, entry ∈ entriesOf defs) :
    Steady σ σ' (definitionsMembers list) := by
  induction list with
  | nil => exact .pure []
  | cons entry rest ih =>
    have hrest := ih fun entry hentry => hlist entry (List.mem_cons_of_mem _ hentry)
    obtain ⟨name, s⟩ := entry
    have hs := h.under _ (List.mem_map.mpr ⟨_, hlist _ List.mem_cons_self, rfl⟩)
    rw [Reference.join_join] at hs
    rw [definitionsMembers]
    refine (schemaType_matches hsettled.toSiting hs).bind fun t => .options_bind ?_
    rw [hsettled.options]
    exact hrest.bind fun _ => .pure _

/-- A component whose type is the same in both runs where it stands. -/
def SteadyComponent (σ σ' : Setting) (category : Category) (c : Component) : Prop :=
  Steady σ σ' (c.typeAt (Reference.join "#" ["components", category.name, c.name]))

theorem namedType_steady [Referable α] {type : α → String → Typing TypeExpr} (object : α → Object)
    (htype : ∀ x place, Reference.join place [] = place →
      Sited At place place (object x).spots → Steady σ σ' (type x place))
    (x : α) (hplace : Reference.join place [] = place)
    (hspots : Sited At place place (object x).spots) : Steady σ σ' (namedType type x place) := by
  unfold namedType
  split
  · exact htype x place hplace hspots
  · exact refType_steady hsettled object htype _ _

theorem componentsOf_steady [Referable α] {type : α → String → Typing TypeExpr}
    (object : α → Object)
    (htype : ∀ x place, Reference.join place [] = place →
      Sited At place place (object x).spots → Steady σ σ' (type x place))
    {m : Option (OrderedMap (Option α))} {component : String → α → Component}
    (hname : ∀ name x, (component name x).name = name)
    (hcomponent : ∀ name x, (component name x).typeAt = namedType type x) {category : Category}
    (h : Sited At (Reference.join "#" ["components"]) (Reference.join "#" ["components"])
      ((spotsOfEntries m fun x => (object x).spots).under [.key category.name])) :
    Gives σ (componentsOf m component) fun found =>
      ∀ c ∈ found, SteadyComponent σ σ' category c := by
  refine (Gives.entries m).bind fun listed hlisted => .pure fun c hc => ?_
  obtain ⟨⟨name, x⟩, hmem, hsome⟩ := List.mem_filterMap.mp hc
  obtain ⟨y, rfl, rfl⟩ := Option.map_eq_some_iff.mp hsome
  have hspots := h.under.entry (hlisted.mem_iff.mp hmem)
  rw [Reference.join_join, Reference.join_join] at hspots
  rw [SteadyComponent, hcomponent, hname]
  exact namedType_steady hsettled object htype y (Reference.join_join _ _ _) hspots

theorem listComponents_gives {c : Components}
    (h : Sited At (Reference.join "#" ["components"]) (Reference.join "#" ["components"]) c.spots)
    (category : Category) :
    Gives σ (listComponents c category) fun found =>
      ∀ k ∈ found, SteadyComponent σ σ' category k := by
  have hitem (x : PathItem) (place : String) (_ : Reference.join place [] = place) :=
    pathItemType_steady hsettled x place
  have hresponse (x : Response) (place : String) (_ : Reference.join place [] = place) :=
    responseType_steady hsettled x place
  have hbody (x : RequestBody) (place : String) (_ : Reference.join place [] = place)
      (hx : Sited At place place x.spots) := requestBodyType_matches hsettled.toSiting hx
  cases category with
  | schemas =>
    refine (Gives.entries _).bind fun listed hlisted => .pure fun k hk => ?_
    obtain ⟨⟨name, s⟩, hmem, rfl⟩ := List.mem_map.mp hk
    have hs := h.left.left.left.left.left.under _
      (List.mem_map.mpr ⟨_, hlisted.mem_iff.mp hmem, rfl⟩)
    rw [Reference.join_join, Reference.join_join] at hs
    exact unfinishedType_matches hsettled.toSiting hs
  | responses =>
    rw [listComponents]
    exact componentsOf_steady hsettled .response hresponse (fun _ _ => rfl) (fun _ _ => rfl)
      h.left.left.left.left.right
  | parameters =>
    rw [listComponents]
    exact componentsOf_steady hsettled .parameter (parameterType_steady hsettled) (fun _ _ => rfl)
      (fun _ _ => rfl) h.left.left.left.right
  | requestBodies =>
    rw [listComponents]
    exact componentsOf_steady hsettled .requestBody hbody (fun _ _ => rfl) (fun _ _ => rfl)
      h.left.left.right
  | headers =>
    rw [listComponents]
    exact componentsOf_steady hsettled .header (headerType_steady hsettled) (fun _ _ => rfl)
      (fun _ _ => rfl) h.left.right
  | pathItems =>
    rw [listComponents]
    exact componentsOf_steady hsettled .pathItem hitem (fun _ _ => rfl) (fun _ _ => rfl) h.right

omit hsettled in
theorem addAlias_steady (hoptions : σ'.options = σ.options) (category : Category)
    (name place : String) (aliases : Aliases) :
    Steady σ σ' (addAlias category name place aliases) := by
  apply Matches.options_bind
  rw [hoptions]
  split
  · exact .pure _
  · dsimp only
    split
    · exact (Matches.warn _ _ _ _).bind fun _ => .pure _
    · exact .pure _

theorem componentMembers_steady (category : Category) (aliases : Aliases) (list : List Component)
    (hlist : ∀ c ∈ list, SteadyComponent σ σ' category c) :
    Steady σ σ' (componentMembers category aliases list) := by
  induction list generalizing aliases with
  | nil => exact .pure _
  | cons c rest ih =>
    obtain ⟨hfirst, hrest⟩ := List.forall_mem_cons.mp hlist
    rw [componentMembers]
    apply Matches.options_bind
    rw [hsettled.options]
    dsimp only
    split
    · exact ih aliases hrest
    · have hhooks (t : TypeExpr) (s : Option Schema) (place : String) :
          replaced? σ t s place = replaced? σ' t s place := by
        rw [replaced?, replaced?, hsettled.typeHooks]
      refine hfirst.bind fun t => .typeHook_bind (hhooks _ _ _) fun result => ?_
      refine (addAlias_steady hsettled.options category c.name _ aliases).bind fun aliases => ?_
      exact (ih aliases hrest).bind fun _ => .pure _

theorem categoryMembers_steady {c : Components}
    (h : Sited At (Reference.join "#" ["components"]) (Reference.join "#" ["components"]) c.spots)
    (aliases : Aliases) (categories : List Category) :
    Steady σ σ' (categoryMembers c aliases categories) := by
  have hlisted (category : Category) : Steady σ σ' (listComponents c category) := by
    have hentries {α : Type} (m : Option (OrderedMap α)) := Matches.entries hsettled.options m
    cases category with
    | schemas => exact (hentries _).bind fun _ => .pure _
    | responses => exact (hentries _).bind fun _ => .pure _
    | parameters => exact (hentries _).bind fun _ => .pure _
    | requestBodies => exact (hentries _).bind fun _ => .pure _
    | headers => exact (hentries _).bind fun _ => .pure _
    | pathItems => exact (hentries _).bind fun _ => .pure _
  induction categories generalizing aliases with
  | nil => exact .pure _
  | cons category rest ih =>
    refine (hlisted category).bind_gives (listComponents_gives hsettled h category)
      fun list hlist => ?_
    refine (componentMembers_steady hsettled category aliases list hlist).bind fun found => ?_
    exact (ih found.2).bind fun _ => .pure _

theorem optionalComponentsType_steady {c : Option Components}
    (h : Sited At "#" "#" (Spots.under [.key "components"] (c.elim [] Components.spots))) :
    Steady σ σ' (optionalComponentsType c) := by
  cases c with
  | none => exact .pure _
  | some c =>
    exact (categoryMembers_steady hsettled h.under {} Category.all).bind fun _ => .pure _

/-- The declarations for a document whose schemas are typed alike in both runs. -/
theorem documentDecls_steady {doc : Document} (h : Sited At "#" "#" doc.spots) :
    Steady σ σ' (documentDecls doc) := by
  have hpaths : Steady σ σ' (pathsType doc.paths) :=
    (Matches.entries hsettled.options _).bind_gives (.entries _) fun _ hlisted =>
      (pathMembers_steady hsettled h.left.left.left fun _ => hlisted.mem_iff.mp).bind fun _ =>
        .pure _
  have hwebhooks : Steady σ σ' (webhooksType doc.webhooks) :=
    (Matches.entries hsettled.options _).bind_gives (.entries _) fun _ hlisted =>
      (webhookMembers_steady hsettled h.left.left.right fun _ => hlisted.mem_iff.mp).bind fun _ =>
        .pure _
  have hdefinitions : Steady σ σ' (definitionsType doc.defs) :=
    (Matches.entries hsettled.options _).bind_gives (.entries _) fun _ hlisted =>
      (definitionsMembers_steady hsettled h.right fun _ => hlisted.mem_iff.mp).bind fun _ =>
        .pure _
  have hroots : Steady σ σ' (documentRoots doc) := by
    refine hpaths.bind fun _ => hwebhooks.bind fun _ => ?_
    refine (optionalComponentsType_steady hsettled h.left.right).bind fun _ => ?_
    exact hdefinitions.bind fun _ => .pure _
  apply Matches.options_bind
  rw [hsettled.options]
  refine hroots.bind fun roots => .get_bind ?_
  -- Nothing that is declared depends on the warnings.
  rintro p _ ⟨warnings, rfl⟩
  exact .pure _

end Paths

end ApiTypes.Typing
