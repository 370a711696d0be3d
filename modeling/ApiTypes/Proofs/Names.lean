import ApiTypes.Proofs.Typing.DocumentTyped

/-!
The names that generated declarations use. Without hooks, every name stands for something that is
declared with them: a component, path, webhook, definition or operation is a member of the root that
is accessed, an enum is declared, and the helper for required properties is there if it is applied.

Deprecated components can be left out. Then an access to a component is one to a declared member
exactly if the document has a component of that name that is not deprecated. A reference to a
deprecated component is left out only together with the property that holds it, so others lead to
nothing.
-/

namespace ApiTypes

/-- The uses in some declarations. -/
def usesIn (decls : List Decl) : List Use := decls.flatMap Decl.uses

/-- The names of declared enums. -/
def enumNames (decls : List Decl) : List String :=
  decls.filterMap fun
    | .enum name _ _ _ => some name
    | _ => none

/-- Whether the helper type that makes properties required is declared. -/
def hasRequiredHelper (decls : List Decl) : Bool :=
  decls.any fun
    | .raw text => text = Typing.withRequiredHelper
    | _ => false

namespace Typing

/-- The roots whose entries are accessed by name. -/
def accessedRoots : List String := ["components", "paths", "webhooks", "$defs"]

/-- The document has a component of this name, marked as deprecated or not. -/
def Marks (doc : Document) (category name : String) (deprecated : Bool) : Prop :=
  ∃ c kind, doc.components = some c ∧ Category.name kind = category ∧
    (name, deprecated) ∈ listedNames c kind

variable {w : Source} {options : Options} {p : Progress} {decls : List Decl} {u : Use}

/-- What a use can stand for, given the declarations. -/
inductive Resolves (w : Source) (options : Options) (decls : List Decl) : Use → Prop where
  | builtin {name : String} : name = "Record" ∨ name = "Omit" →
    Resolves w options decls ⟨name, 2, []⟩
  | helper : hasRequiredHelper decls = true → Resolves w options decls ⟨"WithRequired", 2, []⟩
  | enum {name : String} : name ∈ enumNames decls → Resolves w options decls ⟨name, 0, []⟩
  | operation {id : String} : id ∈ memberNames (declaredMembers decls "operations") →
    Resolves w options decls ⟨"operations", 0, [id]⟩
  | component {c : Components} {category : Category} {name : String} {keys : List String} :
    w.doc.components = some c → (∃ flag, (name, flag) ∈ listedNames c category) →
      Writes c options category name ∨ w.Refers ["components", category.name, name] →
      Resolves w options decls ⟨"components", 0, category.name :: name :: keys⟩
  | root {root name : String} {keys : List String} : root ∈ ["paths", "webhooks", "$defs"] →
    ((root = "paths" → options.pathParamsAsTypes = false) →
      name ∈ memberNames (declaredMembers decls root)) →
    Resolves w options decls ⟨root, 0, name :: keys⟩

theorem mem_present {α : Type} {m : Option (OrderedMap (Option α))} {name : String}
    (h : isEntry m name) (deprecated : α → Bool) :
    ∃ flag, (name, flag) ∈ listedNames.present m deprecated := by
  obtain ⟨x, hx⟩ := h
  exact ⟨deprecated x, List.mem_filterMap.mpr ⟨(name, some x), hx, rfl⟩⟩

/-- Every component that a pointer can name is listed. -/
theorem listed_of_hasEntry {c : Components} {category name : String}
    (h : c.HasEntry category name) :
    ∃ kind flag, Category.name kind = category ∧ (name, flag) ∈ listedNames c kind := by
  rcases h with ⟨rfl, x, hx⟩ | ⟨rfl, h⟩ | ⟨rfl, h⟩ | ⟨rfl, h⟩ | ⟨rfl, h⟩ | ⟨rfl, h⟩
  · exact ⟨.schemas, x.deprecated, rfl, List.mem_map.mpr ⟨(name, some x), hx, rfl⟩⟩
  · obtain ⟨flag, hflag⟩ := mem_present h fun _ => false
    exact ⟨.responses, flag, rfl, hflag⟩
  · obtain ⟨flag, hflag⟩ := mem_present h (·.deprecated)
    exact ⟨.parameters, flag, rfl, hflag⟩
  · obtain ⟨flag, hflag⟩ := mem_present h fun _ => false
    exact ⟨.requestBodies, flag, rfl, hflag⟩
  · obtain ⟨flag, hflag⟩ := mem_present h (·.deprecated)
    exact ⟨.headers, flag, rfl, hflag⟩
  · obtain ⟨flag, hflag⟩ := mem_present h fun _ => false
    exact ⟨.pathItems, flag, rfl, hflag⟩

theorem mem_enumNames {name : String} (hcomplete : Complete w options p decls)
    (h : p.enums.Declares name) : name ∈ enumNames decls := by
  obtain ⟨members, doc, hmem⟩ := h
  exact List.mem_filterMap.mpr ⟨_, hcomplete.enums _ hmem, rfl⟩

theorem hasRequiredHelper_of_mem (h : .raw withRequiredHelper ∈ decls) :
    hasRequiredHelper decls = true :=
  List.any_eq_true.mpr ⟨_, h, by simp⟩

/-- In complete declarations every use stands for something. -/
theorem Complete.resolves (h : Complete w options p decls) (hu : u ∈ usesIn decls) :
    Resolves w options decls u := by
  obtain ⟨d, hd, hud⟩ := List.mem_flatMap.mp hu
  rcases h.uses d hd u hud with hnamed | ⟨c, category, name, hc, hwrites, rfl⟩
  · cases hnamed with
    | builtin hname => exact .builtin hname
    | helper huses => exact .helper (hasRequiredHelper_of_mem (h.helper huses))
    | enum hdeclared => exact .enum (mem_enumNames h hdeclared)
    | operation hid => exact .operation (h.operations _ hid)
    | entry hnames hrefers =>
      rcases hnames with ⟨c, category, name, rest, hc, hentry, hkeys⟩ |
        ⟨name, rest, hentry, hkeys⟩ | ⟨name, rest, hentry, hkeys⟩ | ⟨name, rest, hentry, hkeys⟩
      · cases hkeys
        obtain ⟨kind, flag, rfl, hflag⟩ := listed_of_hasEntry hentry
        exact .component hc ⟨flag, hflag⟩ (.inr hrefers)
      · cases hkeys
        exact .root (by decide) fun hoff => h.paths (hoff rfl) name hentry
      · cases hkeys
        exact .root (by decide) fun _ => h.webhooks name hentry
      · cases hkeys
        exact .root (by decide) fun _ => h.definitions name hentry
  · obtain ⟨flag, hflag, hkept⟩ := hwrites
    exact .component hc ⟨flag, hflag⟩ (.inl ⟨flag, hflag, hkept⟩)

/-- What an access to the components stands for in complete declarations: a component of the
document that has a member there if it is written, and otherwise one that is named by a
reference. -/
theorem Complete.component_access (h : Complete w options p decls) (hu : u ∈ usesIn decls)
    (hname : u.name = "components") (hkeys : u.keys ≠ []) :
    ∃ c category name keys, w.doc.components = some c ∧
      u.keys = Category.name category :: name :: keys ∧
      (∃ flag, (name, flag) ∈ listedNames c category) ∧
      (name ∈ namesUnder (Category.name category) (declaredMembers decls "components") ↔
        Writes c options category name) ∧
      (Writes c options category name ∨ w.Refers ["components", category.name, name]) := by
  cases h.resolves hu with
  | builtin => exact absurd rfl hkeys
  | helper => exact absurd rfl hkeys
  | enum => exact absurd rfl hkeys
  | operation => exact absurd hname (by simp)
  | component hc hlisted hcase =>
    exact ⟨_, _, _, _, hc, rfl, hlisted, h.components _ hc _ _, hcase⟩
  | root hroot =>
    dsimp only at hname
    rw [hname] at hroot
    exact absurd hroot (by decide)

/-- Every access to the components starts with the name of a category and a name for which `P`. -/
def AccessesOnly (P : String → String → Prop) (decls : List Decl) : Prop :=
  ∀ u ∈ usesIn decls, u.name = "components" → u.keys ≠ [] →
    ∃ category name keys, u.keys = category :: name :: keys ∧ P category name

/-- A category of components declares a member of this name. -/
def DeclaresComponent (decls : List Decl) (category name : String) : Prop :=
  name ∈ namesUnder category (declaredMembers decls "components")

/-- All names in the declarations stand for something. -/
structure NamesDeclared (options : Options) (decls : List Decl) : Prop where
  components : AccessesOnly (DeclaresComponent decls) decls
  /-- An access to another root goes to a declared member. -/
  roots : ∀ u ∈ usesIn decls, u.name = "$defs" ∨ u.name = "webhooks" ∨
      u.name = "paths" ∧ options.pathParamsAsTypes = false → u.keys ≠ [] →
    ∃ name keys, u.keys = name :: keys ∧ name ∈ memberNames (declaredMembers decls u.name)
  /-- Anything else is a helper, a declared enum, or an access to a declared operation. -/
  others : ∀ u ∈ usesIn decls, u.name ∉ accessedRoots ∨ u.keys = [] →
    u.name ∈ ["Record", "Omit", "WithRequired"] ∨ u.name ∈ enumNames decls ∨
      u.name = "operations" ∧ ∃ id, u.keys = [id] ∧
        id ∈ memberNames (declaredMembers decls "operations")
  /-- The helper for required properties is declared if it is applied. -/
  helper : ∀ u ∈ usesIn decls, u.name = "WithRequired" → u.arity ≠ 0 →
    hasRequiredHelper decls = true

/-- If no component is left out, all names in what is made of a document stand for something. -/
theorem generate_names_declared {doc : Document} {external : Option ExternalResolver}
    {output : Output} (hall : options.excludeDeprecated = false)
    (hrun : generate doc { options, external } = .ok output) :
    NamesDeclared options output.decls := by
  obtain ⟨q, hcomplete⟩ := complete_of_generate hrun
  constructor
  case components =>
    intro u hu hname hkeys
    obtain ⟨c, category, name, keys, -, hkeys, ⟨flag, hflag⟩, hiff, -⟩ :=
      hcomplete.component_access hu hname hkeys
    exact ⟨category.name, name, keys, hkeys, hiff.mpr ⟨flag, hflag, by rw [hall]; rfl⟩⟩
  case roots =>
    intro u hu hname hkeys
    cases hcomplete.resolves hu with
    | builtin => exact absurd rfl hkeys
    | helper => exact absurd rfl hkeys
    | enum => exact absurd rfl hkeys
    | operation => exact absurd hname (by simp)
    | component => exact absurd hname (by simp)
    | root _ hmember =>
      refine ⟨_, _, rfl, hmember ?_⟩
      rintro rfl
      simpa using hname
  case others =>
    intro u hu hother
    cases hcomplete.resolves hu with
    | builtin hname =>
      rcases hname with rfl | rfl
      · exact .inl (by decide)
      · exact .inl (by decide)
    | helper => exact .inl (by decide)
    | enum hmem => exact .inr (.inl hmem)
    | operation hmem => exact .inr (.inr ⟨rfl, _, rfl, hmem⟩)
    | component =>
      rcases hother with hname | hkeys
      · exact absurd List.mem_cons_self hname
      · cases hkeys
    | root hroot =>
      rcases hother with hname | hkeys
      · exact absurd (List.mem_cons_of_mem _ hroot) hname
      · cases hkeys
  case helper =>
    intro u hu hname harity
    cases hcomplete.resolves hu with
    | builtin hcase =>
      rcases hcase with rfl | rfl
      · exact absurd hname (by decide)
      · exact absurd hname (by decide)
    | helper hdeclared => exact hdeclared
    | enum => exact absurd rfl harity
    | operation => exact absurd rfl harity
    | component => exact absurd rfl harity
    | root => exact absurd rfl harity

theorem exists_output {doc : Document} {request : Request} {P : Output → Prop} [DecidablePred P]
    (h : (generate doc request).toOption.any (fun output => decide (P output)) = true) :
    ∃ output, generate doc request = .ok output ∧ P output :=
  (exists_of_any h).imp fun _ => And.imp_right of_decide_eq_true

/-- Pets with a status, and an operation that lists those that have one. -/
def petDocument : Document where
  openapi := "3.1.0"
  paths := some (.ofList [("/pets", some {
    operation? := (List.lookup · [(.get, {
      operationId := "listPets"
      responses := some (.ofList [("200", some {
        content := some (.ofList [("application/json", some {
          schema := some { ref := "#/components/schemas/SoldPet" } })]) })]) })]) })])
  components := some {
    schemas := some (.ofList [
      ("Status", some { types := some ["string"], enum := some [.text "sold"] }),
      ("Pet", some {
        types := some ["object"]
        properties := some (.ofList [("status", some { ref := "#/components/schemas/Status" })]) }),
      ("SoldPet", some {
        allOf := some [some { ref := "#/components/schemas/Pet" }]
        required := some ["status"] })]) }

theorem generate_names_declared_pets :
    ∃ output, generate petDocument { options := { enum := true } } = .ok output ∧
      usesIn output.decls ≠ [] ∧ NamesDeclared { enum := true } output.decls := by
  obtain ⟨output, hrun, hsome⟩ := @exists_output petDocument { options := { enum := true } }
    (fun output => usesIn output.decls ≠ []) _ (by decide +kernel)
  exact ⟨output, hrun, hsome, generate_names_declared rfl hrun⟩

/-- A component that is an enum and has the name of the helper for required properties. -/
def helperNameDocument : Document where
  openapi := "3.1.0"
  components := some {
    schemas := some (.ofList [
      ("WithRequired", some { types := some ["string"], enum := some [.text "sold"] })]) }

/-- Operations are accessed by name too, and an enum can have the name of the helper. -/
theorem operation_and_enum_names_used :
    (∃ output, generate petDocument { options := { enum := true } } = .ok output ∧
      ∃ u ∈ usesIn output.decls, u.name ∉ accessedRoots ∧
        u.name ∉ ["Record", "Omit", "WithRequired"] ∧ u.name ∉ enumNames output.decls) ∧
    ∃ output, generate helperNameDocument { options := { enum := true } } = .ok output ∧
      "WithRequired" ∈ (usesIn output.decls).map Use.name ∧
        hasRequiredHelper output.decls = false :=
  ⟨exists_output (by decide +kernel), exists_output (by decide +kernel)⟩

theorem Category.name_injective {kind kind' : Category}
    (h : Category.name kind = Category.name kind') : kind = kind' := by
  cases kind <;> cases kind' <;> first | rfl | exact absurd h (by decide)

/-- If deprecated components are left out, those that are not deprecated are written. -/
theorem writes_iff_marks {doc : Document} {c : Components} {category : Category} {name : String}
    (hdrop : options.excludeDeprecated = true) (hc : doc.components = some c) :
    Writes c options category name ↔ Marks doc category.name name false := by
  constructor
  · rintro ⟨flag, hflag, hkept⟩
    rw [hdrop, Bool.true_and] at hkept
    rw [hkept] at hflag
    exact ⟨c, category, hc, rfl, hflag⟩
  · rintro ⟨c', kind, hc', hname, hlisted⟩
    rw [hc] at hc'
    cases hc'
    cases Category.name_injective hname
    exact ⟨false, hlisted, Bool.and_false _⟩

/-- If deprecated components are left out, an access to a component goes to a declared member
exactly if the component is not deprecated. So all of them do if no reference names a deprecated
one. -/
theorem generate_accesses_declared {doc : Document} {external : Option ExternalResolver}
    {output : Output} (hdrop : options.excludeDeprecated = true)
    (hrun : generate doc { options, external } = .ok output) :
    AccessesOnly (fun category name => DeclaresComponent output.decls category name ↔
      Marks doc category name false) output.decls ∧
    ((∀ category name, Source.Refers ⟨doc, external⟩ ["components", category, name] →
      ¬ Marks doc category name true) →
      AccessesOnly (DeclaresComponent output.decls) output.decls) := by
  obtain ⟨q, hcomplete⟩ := complete_of_generate hrun
  constructor
  · intro u hu hname hkeys
    obtain ⟨c, category, name, keys, hc, hkeys, -, hiff, -⟩ :=
      hcomplete.component_access hu hname hkeys
    exact ⟨category.name, name, keys, hkeys, hiff.trans (writes_iff_marks hdrop hc)⟩
  · intro hreferred u hu hname hkeys
    obtain ⟨c, category, name, keys, hc, hkeys, ⟨flag, hflag⟩, hiff, hcase⟩ :=
      hcomplete.component_access hu hname hkeys
    refine ⟨category.name, name, keys, hkeys, hiff.mpr ?_⟩
    rcases hcase with hwrites | hrefers
    · exact hwrites
    · cases flag with
      | false => exact ⟨false, hflag, Bool.and_false _⟩
      | true => exact absurd ⟨c, category, hc, rfl, hflag⟩ (hreferred _ _ hrefers)

/-- A deprecated component, and a list of items given by a reference to a component. -/
def itemsDocument (items : String) (maxItems : Option Int := none) : Document where
  openapi := "3.1.0"
  components := some {
    schemas := some (.ofList [
      ("Old", some { types := some ["string"], deprecated := true }),
      ("Kept", some { types := some ["string"] }),
      ("List", some {
        types := some ["array"]
        items := some (.single { ref := items })
        maxItems })]) }

/-- The schemas of the document hold nothing but the reference to the items. -/
theorem reaches_itemsDocument {items : String} {maxItems : Option Int} {o : Object}
    (h : Source.Reaches ⟨itemsDocument items maxItems, none⟩ o) :
    ∃ s, o = .schema s ∧ s.ref ∈ ["", items] ∧ s.discriminator = none ∧ s.oneOf = none := by
  let plain (o : Object) : Prop := o.parts ⊆ [.schema { ref := items }] ∧
    ∃ s, o = .schema s ∧ s.ref ∈ ["", items] ∧ s.discriminator = none ∧ s.oneOf = none
  have hplain : plain o := by
    refine Source.reaches_of_local ?_ ?_ h
    · intro o ho
      change o ∈ [_, _, _] at ho
      simp only [List.mem_cons, List.not_mem_nil, or_false] at ho
      rcases ho with rfl | rfl | rfl
      · exact ⟨List.nil_subset _, _, rfl, List.mem_cons_self, rfl, rfl⟩
      · exact ⟨List.nil_subset _, _, rfl, List.mem_cons_self, rfl, rfl⟩
      · exact ⟨List.Subset.refl _, _, rfl, List.mem_cons_self, rfl, rfl⟩
    · intro o ho inner hinner
      rw [List.mem_singleton.mp (ho.1 hinner)]
      exact ⟨List.nil_subset _, _, rfl, List.mem_cons_of_mem _ List.mem_cons_self, rfl, rfl⟩
  exact hplain.2

theorem asks_itemsDocument {items ref : String} (hitems : Reference.canonical items = items)
    (h : Source.Asks ⟨itemsDocument items, none⟩ ref) : ref ∈ ["", "#", items] := by
  refine @Source.asks_of_reaches _ (· ∈ ["", "#", items]) ?_ ?_ ?_ ref h
  · intro o ho
    obtain ⟨s, rfl, href, -⟩ := reaches_itemsDocument ho
    simp only [List.mem_cons, List.not_mem_nil, or_false] at href ⊢
    exact href.imp id .inr
  · intro s d name ref hs hd
    obtain ⟨_, ⟨⟩, -, hnone, -⟩ := reaches_itemsDocument hs
    rw [hnone] at hd
    cases hd
  · intro ref href
    simp only [List.mem_cons, List.not_mem_nil, or_false] at href ⊢
    rcases href with rfl | rfl | rfl
    · exact .inr (.inl (by decide))
    · exact .inr (.inl (by decide))
    · exact .inr (.inr hitems)

theorem generate_accesses_declared_items :
    ∃ output, generate (itemsDocument "#/components/schemas/Kept")
      { options := { excludeDeprecated := true } } = .ok output ∧
      ⟨"components", 0, ["schemas", "Kept"]⟩ ∈ usesIn output.decls ∧
      AccessesOnly (DeclaresComponent output.decls) output.decls := by
  obtain ⟨output, hrun, huse⟩ := @exists_output (itemsDocument "#/components/schemas/Kept")
    { options := { excludeDeprecated := true } }
    (fun output => ⟨"components", 0, ["schemas", "Kept"]⟩ ∈ usesIn output.decls) _
    (by decide +kernel)
  refine ⟨output, hrun, huse, (generate_accesses_declared rfl hrun).2 ?_⟩
  rintro category name ⟨ref, rest, hasks, -, htokens⟩ ⟨c, kind, hc, hname, hlisted⟩
  have href := asks_itemsDocument (by decide +kernel) hasks
  simp only [List.mem_cons, List.not_mem_nil, or_false] at href
  rcases href with rfl | rfl | rfl
  · rw [show Reference.tokens? "" = some [] by decide] at htokens
    cases htokens
  · rw [show Reference.tokens? "#" = some [] by decide] at htokens
    cases htokens
  · rw [show Reference.tokens? "#/components/schemas/Kept" = some ["components", "schemas", "Kept"]
      by decide] at htokens
    cases htokens
    cases hc
    cases Category.name_injective (hname.trans (show _ = Category.name .schemas from rfl))
    exact absurd hlisted (by decide)

/-- Items keep their reference to a component that is left out. -/
theorem deprecated_items_undeclared :
    ∃ output, generate (itemsDocument "#/components/schemas/Old")
      { options := { excludeDeprecated := true } } = .ok output ∧
      ⟨"components", 0, ["schemas", "Old"]⟩ ∈ usesIn output.decls ∧
      "Old" ∉ namesUnder "schemas" (declaredMembers output.decls "components") :=
  exists_output (by decide +kernel)

end Typing

end ApiTypes
