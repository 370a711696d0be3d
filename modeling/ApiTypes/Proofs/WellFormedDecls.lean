import ApiTypes.Proofs.DeclaredOperations
import ApiTypes.Proofs.Typing.Maintaining

/-!
The types of all declarations that are made for a document are well-formed, with no hooks but those
that name the types of formats.
-/

namespace ApiTypes

/-- Every type of a declared operation is well-formed. -/
def OperationRegistry.WellFormed (r : OperationRegistry) : Prop :=
  ∀ e ∈ r.values, e.type.WellFormed

theorem OperationRegistry.WellFormed.register {r : OperationRegistry} (h : r.WellFormed)
    {e : OperationEntry} (he : e.type.WellFormed) : (r.register e).2.WellFormed := by
  intro e' he'
  obtain ⟨entry, hentry, rfl⟩ := List.mem_map.mp he'
  rcases OrderedMap.mem_toList_set hentry with rfl | ⟨-, hold⟩
  · exact he
  · exact h _ (List.mem_map_of_mem hold)

/-- The types of the declared operations and of the declared enums are well-formed. -/
def wellFormedDeclared : DeclaredProperty where
  operations := OperationRegistry.WellFormed
  enums r := ∀ d ∈ r.decls, d.WellFormed

theorem EnumRegistry.wellFormed_hoist (r : EnumRegistry) (place : String) (s : Schema)
    (h : ∀ d ∈ r.decls, d.WellFormed) : ∀ d ∈ (r.hoist place s).2.decls, d.WellFormed := by
  unfold hoist
  cases r.byPlace.lookup place with
  | some name => exact h
  | none =>
    intro d hd
    rcases List.mem_append.mp hd with hold | hnew
    · exact h d hold
    · rw [List.mem_singleton.mp hnew]
      exact .enum _ _ _ _

theorem wellFormed_formatHook {formats : List (String × String)} {s : Schema} {place : String}
    {result : HookResult} (h : formatHook formats s place = some result) :
    ∀ t ∈ result.type, t.WellFormed := by
  unfold formatHook at h
  split at h
  · cases h
  · obtain ⟨name, -, rfl⟩ := Option.map_eq_some_iff.mp h
    have hname : (TypeExpr.named name).WellFormed := .ref (List.forall_mem_nil _)
    rintro _ ⟨⟩
    split
    · exact TypeExpr.closed_wellFormed.unionOf _
        (by simp [hname, TypeExpr.null, TypeExpr.WellFormed.keyword])
    · exact hname

namespace Typing

variable {σ : Setting}

/-- The only hooks name the types of formats. -/
structure FormatHooks (σ : Setting) : Prop where
  schemaHooks : ∀ hook ∈ σ.schemaHooks, ∃ formats, hook = formatHook formats
  typeHooks : σ.typeHooks = []

theorem schemaHook_wellFormed (hσ : FormatHooks σ) (s : Option Schema) (place : String) :
    Gives σ (schemaHook? s place) fun taken => ∀ t ∈ taken, t.1.WellFormed := by
  refine .read_bind (.pure ?_)
  intro t ht
  obtain ⟨s, -, hfound⟩ := Option.bind_eq_some_iff.mp ht
  obtain ⟨hook, hhook, htaken⟩ := List.exists_of_findSome?_eq_some hfound
  obtain ⟨formats, rfl⟩ := hσ.schemaHooks hook hhook
  obtain ⟨result, hresult, htaken⟩ := Option.bind_eq_some_iff.mp htaken
  obtain ⟨t, htype, rfl⟩ := Option.map_eq_some_iff.mp htaken
  exact wellFormed_formatHook hresult t htype

theorem typeHook_wellFormed (hσ : FormatHooks σ) (t : TypeExpr) (s : Option Schema)
    (place : String) : Gives σ (typeHook? t s place) fun result =>
      ∀ r ∈ result, ∀ t ∈ r.type, t.WellFormed := by
  refine .read_bind (.pure ?_)
  rw [hσ.typeHooks]
  exact nofun

/-- The judgement that types are well-formed. -/
def wellFormed (hσ : FormatHooks σ) : Judgement :=
  maintaining wellFormedDeclared σ EnumRegistry.wellFormed_hoist TypeExpr.closed_wellFormed
    (schemaHook_wellFormed hσ) (typeHook_wellFormed hσ)

/-! The declarations. -/

theorem wellFormed_rootDecl (options : Options) (name : String) {t : TypeExpr}
    (ht : t.WellFormed) : (rootDecl options name t).WellFormed := by
  unfold rootDecl
  split
  · cases ht with
    | object hmembers => exact .interface hmembers
  · exact .alias ht

theorem wellFormed_rawDecls (text : String) : ∀ d ∈ rawDecls text, d.WellFormed := by
  unfold rawDecls
  split
  · exact List.forall_mem_nil _
  · intro d hd
    rw [List.mem_singleton.mp hd]
    exact .raw _

theorem wellFormed_operationsType (options : Options) {r : OperationRegistry}
    (h : r.WellFormed) : (operationsType options r).WellFormed := by
  refine good_objectOrEmpty TypeExpr.closed_wellFormed fun m hm => ?_
  obtain ⟨e, he, rfl⟩ := List.mem_map.mp hm
  exact .property (h e he)

theorem wellFormed_rootDecls (options : Options) {roots : Roots} {r : OperationRegistry}
    (hroots : roots.AllGood TypeExpr.WellFormed) (h : r.WellFormed) :
    ∀ d ∈ rootDecls options roots r, d.WellFormed := by
  simp only [rootDecls, List.forall_mem_cons]
  exact ⟨wellFormed_rootDecl options _ hroots.paths, wellFormed_rootDecl options _ hroots.webhooks,
    wellFormed_rootDecl options _ hroots.components,
    wellFormed_rootDecl options _ hroots.definitions,
    wellFormed_rootDecl options _ (wellFormed_operationsType options h), List.forall_mem_nil _⟩

theorem wellFormed_furtherDecls (doc : Document) (options : Options) {aliases : List Decl}
    {p : Progress} (haliases : ∀ d ∈ aliases, GoodAlias TypeExpr.WellFormed d)
    (hp : p.Has wellFormedDeclared) : ∀ d ∈ furtherDecls doc options aliases p, d.WellFormed := by
  intro d hd
  simp only [furtherDecls, List.mem_append] at hd
  rcases hd with (((halias | henum) | hhelper) | hfooter) | hpaths
  · obtain ⟨name, t, rfl, ht⟩ := haliases d halias
    exact .alias ht
  · exact hp.enums d henum
  · split at hhelper
    · rw [List.mem_singleton.mp hhelper]
      exact .raw _
    · cases hhelper
  · exact wellFormed_rawDecls _ d hfooter
  · split at hpaths
    · rw [List.mem_singleton.mp hpaths]
      exact .enum _ _ _ _
    · cases hpaths

/-- With no hooks but those for formats, the types of all declarations are well-formed. -/
theorem generate_well_formed {doc : Document} {options : Options}
    {formats : List (List (String × String))} {external : Option ExternalResolver}
    {output : Output}
    (hrun : generate doc { options, schemaHooks := formats.map formatHook, external } =
      .ok output) : ∀ d ∈ output.decls, d.WellFormed := by
  obtain ⟨decls, q, hdecls, rfl⟩ := runs_of_generate hrun
  obtain ⟨roots, r, hroots, hrest⟩ := Runs.bind_iff.mp hdecls.options_bind
  obtain ⟨rfl, rfl⟩ := Runs.pure_iff.mp hrest.get_bind
  have hhooks : FormatHooks (settingOf doc
      { options, schemaHooks := formats.map formatHook, external }) := by
    refine ⟨fun hook hhook => ?_, rfl⟩
    obtain ⟨names, -, rfl⟩ := List.mem_map.mp hhook
    exact ⟨names, rfl⟩
  have hstart : (startOf doc
      { options, schemaHooks := formats.map formatHook, external }).Has wellFormedDeclared :=
    ⟨List.forall_mem_nil _, List.forall_mem_nil _⟩
  obtain ⟨hr, hgood⟩ := (documentRoots_holds (J := wellFormed hhooks)
    (fun _ he => registerOperation_maintains fun _ hr => hr.register he) doc).kept
      _ roots r hroots hstart
  intro d hd
  rcases List.mem_append.mp hd with hfront | hfurther
  · rcases List.mem_append.mp hfront with hinject | hroot
    · exact wellFormed_rawDecls _ d hinject
    · exact wellFormed_rootDecls options hgood hr.operations d hroot
  · exact wellFormed_furtherDecls doc options hgood.aliases hr d hfurther

/-- Events with a time that may be unknown and with one or two guests. -/
def eventDocument : Document where
  openapi := "3.1.0"
  components := some {
    schemas := some (.ofList [
      ("Guest", some {
        anyOf := some [some { types := some ["string"] }, some { types := some ["integer"] }] }),
      ("Event", some { properties := some (.ofList [
        ("start", some { types := some ["string", "null"], format := "date-time" }),
        ("guests", some {
          types := some ["array"], minItems := some 1, maxItems := some 2
          items := some (.single { ref := "#/components/schemas/Guest" }) })]) })]) }

theorem generate_well_formed_event :
    ∃ output, generate eventDocument
        { options := { arrayLength := true, immutable := true },
          schemaHooks := [[("date-time", "Date")]].map formatHook } = .ok output ∧
      ⟨"Date", 0, []⟩ ∈ usesIn output.decls ∧ ∀ d ∈ output.decls, d.WellFormed := by
  obtain ⟨output, hrun, hdate⟩ := @exists_output eventDocument
    { options := { arrayLength := true, immutable := true },
      schemaHooks := [[("date-time", "Date")]].map formatHook }
    (fun output => ⟨"Date", 0, []⟩ ∈ usesIn output.decls) _ (by decide +kernel)
  exact ⟨output, hrun, hdate, generate_well_formed hrun⟩

end Typing

end ApiTypes
