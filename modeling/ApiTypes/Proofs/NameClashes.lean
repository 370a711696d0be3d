import ApiTypes.Proofs.FreshNames
import ApiTypes.Proofs.WellFormedDecls

/-!
Declarations of the same name. The aliases of components are named apart from each other and so are
the enums, and none has the name of a root. But an alias, an enum, the helper for required
properties and the enum of paths are each named without a look at the others. So two of them have
the same name exactly if they are to be called the same.
-/

namespace ApiTypes

/-- The name that a declaration is accessed by. -/
def Decl.name? : Decl → Option String
  | .alias name _ _ _ | .interface name _ _ _ | .enum name _ _ _ => some name
  | .raw text => if text = Typing.withRequiredHelper then some "WithRequired" else none
  | .expression _ => none

def declaredNames (decls : List Decl) : List String := decls.filterMap Decl.name?

/-- Declarations with fresh names. The last name and what it is chosen for stand first. -/
structure NamedAfter (decls : List Decl) (taken bases : List String) : Prop where
  declared : declaredNames decls = taken.reverse
  chosen : taken = chosenNames bases

theorem NamedAfter.nil : NamedAfter [] [] [] := ⟨rfl, rfl⟩

theorem NamedAfter.push {decls : List Decl} {taken bases : List String}
    (h : NamedAfter decls taken bases) (base : String) {d : Decl}
    (hd : d.name? = some (freshName taken base)) :
    NamedAfter (decls ++ [d]) (freshName taken base :: taken) (base :: bases) := by
  constructor
  · rw [List.reverse_cons, ← h.declared, declaredNames, List.filterMap_append]
    exact congrArg _ (List.filterMap_cons_some hd)
  · rw [chosenNames, ← h.chosen]

/-- What the enums of a registry are to be called, the last one first. -/
def EnumRegistry.bases (r : EnumRegistry) : List String := r.byPlace.map fun e => enumName e.1

/-- A further enum is named after its place. -/
theorem EnumRegistry.namedAfter_hoist (r : EnumRegistry) (place : String) (s : Schema)
    (h : NamedAfter r.decls r.taken r.bases) :
    NamedAfter (r.hoist place s).2.decls (r.hoist place s).2.taken (r.hoist place s).2.bases := by
  unfold hoist
  cases r.byPlace.lookup place with
  | some name => exact h
  | none => exact h.push (enumName place) rfl

namespace Typing

variable {σ : Setting} {options : Options}

theorem isTypeName_aliasStart (category : Category) : IsTypeName category.aliasStart := by
  cases category <;> exact ⟨List.all_eq_true.mp (by decide), _, rfl, rfl⟩

theorem isTypeName_aliasBase (options : Options) (category : Category) (name : String) :
    IsTypeName (aliasBase options category name) := by
  have hstart := isTypeName_aliasStart category
  unfold aliasBase
  extract_lets start base
  refine hstart.of_capitalized ?_
  unfold base start
  rw [String.toList_append]
  refine Text.Capitalized.append ?_ (Text.capitalized_typeName name)
  split
  · exact .nil
  · exact hstart.capitalized

/-- An alias is to be called this: that of a component that is written. -/
def AliasBase (doc : Document) (options : Options) (base : String) : Prop :=
  options.rootTypes = true ∧ ∃ c category name, doc.components = some c ∧
    Writes c options category name ∧ base = aliasBase options category name

/-- What the enums that are declared for a document are to be called, the last one first. -/
def enumBases (doc : Document) (request : Request) : List String :=
  (runOn (documentDecls doc) doc request).2.enums.bases

/-! The aliases. -/

/-- The aliases were named after `bases` before, and then after what satisfies `New` too. -/
def NamedOn (bases : List String) (New : String → Prop) (aliases : Aliases) : Prop :=
  ∃ more, NamedAfter aliases.decls aliases.taken (more ++ bases) ∧ ∀ base, base ∈ more ↔ New base

theorem NamedOn.refl {bases : List String} {New : String → Prop} {aliases : Aliases}
    (h : NamedAfter aliases.decls aliases.taken bases) (hnone : ∀ base, ¬ New base) :
    NamedOn bases New aliases := ⟨[], h, fun base => iff_of_false List.not_mem_nil (hnone base)⟩

theorem NamedOn.append {bases bases' : List String} {New New' New'' : String → Prop}
    {aliases : Aliases} (h : NamedOn (bases' ++ bases) New' aliases)
    (hbases : ∀ base, base ∈ bases' ↔ New base)
    (hiff : ∀ base, New'' base ↔ New' base ∨ New base) : NamedOn bases New'' aliases := by
  obtain ⟨more, hnamed, hmore⟩ := h
  refine ⟨more ++ bases', by rw [List.append_assoc]; exact hnamed, fun base => ?_⟩
  rw [List.mem_append, hmore, hbases, hiff]

theorem addAlias_named (category : Category) (name place : String) {aliases : Aliases}
    {bases : List String} (h : NamedAfter aliases.decls aliases.taken bases) :
    Gives σ (addAlias category name place aliases)
      (NamedOn bases fun base =>
        σ.options.rootTypes = true ∧ base = aliasBase σ.options category name) := by
  have hpush (type : TypeExpr) := h.push (aliasBase σ.options category name)
    (d := .alias (freshName aliases.taken (aliasBase σ.options category name)) type true []) rfl
  refine .options_bind ?_
  dsimp only
  split
  · rename_i hoff
    have hoff : σ.options.rootTypes = false := by simpa using hoff
    exact .pure (.refl h fun base hbase => by rw [hoff] at hbase; cases hbase.1)
  · rename_i hon
    have hon : σ.options.rootTypes = true := by simpa using hon
    have hnamed (type : TypeExpr) : NamedOn bases
        (fun base => σ.options.rootTypes = true ∧ base = aliasBase σ.options category name)
        ⟨aliases.decls ++ [.alias (freshName aliases.taken
          (aliasBase σ.options category name)) type true []],
          freshName aliases.taken (aliasBase σ.options category name) :: aliases.taken⟩ :=
      ⟨[aliasBase σ.options category name], hpush type, fun base => by simp [hon]⟩
    split
    · exact (Gives.any _).bind fun _ _ => .pure (hnamed _)
    · exact .pure (hnamed _)

theorem componentMembers_named (category : Category) (components : List Component)
    {aliases : Aliases} {bases : List String}
    (h : NamedAfter aliases.decls aliases.taken bases) :
    Gives σ (componentMembers category aliases components) fun found =>
      NamedOn bases (fun base => σ.options.rootTypes = true ∧ ∃ k ∈ components,
        (σ.options.excludeDeprecated && k.deprecated) = false ∧
          base = aliasBase σ.options category k.name) found.2 := by
  induction components generalizing aliases bases with
  | nil => exact .pure (.refl h nofun)
  | cons k rest ih =>
    rw [componentMembers]
    refine .options_bind ?_
    dsimp only
    split
    · rename_i hdropped
      refine (ih h).weaken fun found hfound => ?_
      obtain ⟨more, hnamed, hmore⟩ := hfound
      refine ⟨more, hnamed, fun base => ?_⟩
      simp only [hmore, List.exists_mem_cons_iff, hdropped, Bool.true_eq_false, false_and, false_or]
    · rename_i hkept
      refine (Gives.any _).bind fun t _ => (Gives.any _).bind fun result _ => ?_
      refine (addAlias_named category k.name _ h).bind fun aliases haliases => ?_
      obtain ⟨first, hnamed, hfirst⟩ := haliases
      refine (ih hnamed).bind fun found hfound => .pure (hfound.append hfirst fun base => ?_)
      have hkept : (σ.options.excludeDeprecated && k.deprecated) = false := by simpa using hkept
      simp only [List.exists_mem_cons_iff, hkept, true_and]
      rw [or_comm, and_or_left]

theorem categoryMembers_named (c : Components) (categories : List Category) {aliases : Aliases}
    {bases : List String} (h : NamedAfter aliases.decls aliases.taken bases) :
    Gives σ (categoryMembers c aliases categories) fun found =>
      NamedOn bases (fun base => σ.options.rootTypes = true ∧ ∃ category ∈ categories,
        ∃ name, Writes c σ.options category name ∧ base = aliasBase σ.options category name)
        found.2 := by
  induction categories generalizing aliases bases with
  | nil => exact .pure (.refl h nofun)
  | cons category rest ih =>
    rw [categoryMembers]
    refine (listComponents_lists c category).bind fun components hlists => ?_
    refine (componentMembers_named category components h).bind fun first hfirst => ?_
    obtain ⟨items, aliases'⟩ := first
    obtain ⟨more, hnamed, hmore⟩ := hfirst
    refine (ih hnamed).bind fun found hfound => .pure (hfound.append hmore fun base => ?_)
    have hwrites (name : String) : Writes c σ.options category name ↔ ∃ k ∈ components,
        (σ.options.excludeDeprecated && k.deprecated) = false ∧ k.name = name := by
      constructor
      · rintro ⟨flag, hflag, hkept⟩
        obtain ⟨k, hk, heq⟩ := (hlists _).mp hflag
        cases heq
        exact ⟨k, hk, hkept, rfl⟩
      · rintro ⟨k, hk, hkept, rfl⟩
        exact ⟨k.deprecated, (hlists _).mpr ⟨k, hk, rfl⟩, hkept⟩
    rw [List.exists_mem_cons_iff, or_comm (a := ∃ name, _), and_or_left]
    simp only [hwrites]
    constructor
    · rintro (hrest | ⟨hon, name, ⟨k, hk, hkept, rfl⟩, hbase⟩)
      · exact .inl hrest
      · exact .inr ⟨hon, k, hk, hkept, hbase⟩
    · rintro (hrest | ⟨hon, k, hk, hkept, hbase⟩)
      · exact .inl hrest
      · exact .inr ⟨hon, k.name, ⟨k, hk, hkept, rfl⟩, hbase⟩

/-- Every component that is written has an alias, named after it. -/
theorem documentRoots_named (doc : Document) :
    Gives σ (documentRoots doc) fun roots => ∃ bases,
      declaredNames roots.aliases = (chosenNames bases).reverse ∧
        ∀ base, base ∈ bases ↔ AliasBase doc σ.options base := by
  have hcomponents : Gives σ (optionalComponentsType doc.components) fun found => ∃ bases,
      declaredNames found.2 = (chosenNames bases).reverse ∧
        ∀ base, base ∈ bases ↔ AliasBase doc σ.options base := by
    unfold AliasBase
    cases hc : doc.components with
    | none => exact .pure ⟨[], rfl, by simp⟩
    | some c =>
      refine (categoryMembers_named c Category.all .nil).bind fun found hfound => .pure ?_
      obtain ⟨more, hnamed, hmore⟩ := hfound
      rw [List.append_nil] at hnamed
      refine ⟨more, hnamed.chosen ▸ hnamed.declared, fun base => ?_⟩
      have hall (category : Category) : category ∈ Category.all := by cases category <;> decide
      simp only [hmore, hall, true_and]
      constructor
      · rintro ⟨hon, category, name, hwrites, hbase⟩
        exact ⟨hon, c, category, name, rfl, hwrites, hbase⟩
      · rintro ⟨hon, _, category, name, ⟨⟩, hwrites, hbase⟩
        exact ⟨hon, category, name, hwrites, hbase⟩
  refine (Gives.any _).bind fun _ _ => (Gives.any _).bind fun _ _ => ?_
  exact hcomponents.bind fun _ hfound => (Gives.any _).bind fun _ _ => .pure hfound

/-! The enums. -/

/-- The enums that have been declared are named after their places. -/
def enumsNamed : DeclaredProperty where
  operations _ := True
  enums r := NamedAfter r.decls r.taken r.bases

theorem documentRoots_enums (doc : Document) :
    Maintains enumsNamed σ (documentRoots doc) fun _ => True := by
  have hany {α : Type} {act : Typing α} {post : α → Prop} (h : ∀ x, post x) : Gives σ act post :=
    (Gives.any act).weaken fun x _ => h x
  have hroots := documentRoots_holds (J := maintaining enumsNamed σ EnumRegistry.namedAfter_hoist
    TypeExpr.closed_true (fun _ _ => hany fun _ _ _ => trivial)
    fun _ _ _ => hany fun _ _ _ _ _ => trivial)
    (fun _ _ => registerOperation_maintains fun _ _ => trivial) doc
  exact ⟨fun p x q hrun hp => ((hroots.kept p x q hrun hp)).imp_right fun _ => trivial⟩

/-! All declarations. -/

/-- The names of the roots. -/
def rootNames : List String := ["paths", "webhooks", "components", "$defs", "operations"]

theorem name?_rootDecl (options : Options) (name : String) (t : TypeExpr) :
    (rootDecl options name t).name? = some name := by
  unfold rootDecl
  split <;> rfl

theorem declaredNames_rootDecls (options : Options) (roots : Roots)
    (operations : OperationRegistry) :
    declaredNames (rootDecls options roots operations) = rootNames := by
  simp only [declaredNames, rootDecls, List.filterMap_cons, name?_rootDecl]
  rfl

/-- Names that are always the same: of the helper for required properties, if it is in use, and of
the enum of paths, if there is one. -/
def fixedNames (doc : Document) (request : Request) : List String :=
  (if (runOn (documentDecls doc) doc request).2.usesWithRequired then ["WithRequired"] else []) ++
    if request.options.makePathsEnum && !(entriesOf doc.paths).isEmpty then ["ApiPaths"] else []

/-- The names of all declarations, by where they come from. -/
structure NamedByOrigin (doc : Document) (request : Request) (decls : List Decl)
    (aliases : List String) : Prop where
  bases : ∀ base, base ∈ aliases ↔ AliasBase doc request.options base
  names : declaredNames decls = rootNames ++ (chosenNames aliases).reverse ++
    (chosenNames (enumBases doc request)).reverse ++ fixedNames doc request

/-- Nothing is to be called what something from elsewhere is to be called. -/
structure BasesApart (doc : Document) (request : Request) : Prop where
  enums : ∀ base, AliasBase doc request.options base → base ∉ enumBases doc request
  fixed : ∀ name ∈ fixedNames doc request,
    ¬ AliasBase doc request.options name ∧ name ∉ enumBases doc request

theorem root_not_isTypeName {name : String} (h : name ∈ rootNames) : ¬ IsTypeName name := by
  rintro ⟨-, c, hc, hupper⟩
  simp only [rootNames, List.mem_cons, List.not_mem_nil, or_false] at h
  rcases h with rfl | rfl | rfl | rfl | rfl
  all_goals
    cases Option.mem_def.mp hc
    revert hupper
    decide

theorem underscore_not_mem_root {name : String} (h : name ∈ rootNames) : '_' ∉ name.toList := by
  revert name
  decide

theorem mem_fixedNames {doc : Document} {request : Request} {name : String}
    (h : name ∈ fixedNames doc request) : name = "WithRequired" ∨ name = "ApiPaths" := by
  unfold fixedNames at h
  rcases List.mem_append.mp h with hmem | hmem
  · split at hmem
    · exact .inl (List.mem_singleton.mp hmem)
    · cases hmem
  · split at hmem
    · exact .inr (List.mem_singleton.mp hmem)
    · cases hmem

theorem nodup_fixedNames (doc : Document) (request : Request) :
    (fixedNames doc request).Nodup := by
  unfold fixedNames
  split <;> split <;> decide

theorem isTypeName_of_mem_enumBases {doc : Document} {request : Request} {base : String}
    (h : base ∈ enumBases doc request) : IsTypeName base := by
  obtain ⟨entry, -, rfl⟩ := List.mem_map.mp h
  exact isTypeName_enumName entry.1

theorem NamedByOrigin.isTypeName {doc : Document} {request : Request} {decls : List Decl}
    {aliases : List String} (h : NamedByOrigin doc request decls aliases) :
    ∀ base ∈ aliases, IsTypeName base := by
  intro base hbase
  obtain ⟨-, c, category, name, -, -, rfl⟩ := (h.bases base).mp hbase
  exact isTypeName_aliasBase _ category name

/-- No root is among names that are chosen. -/
theorem root_not_mem_chosenNames {bases : List String} (h : ∀ base ∈ bases, IsTypeName base)
    {name : String} (hname : name ∈ rootNames) : name ∉ chosenNames bases := by
  intro hmem
  have hbase := (mem_chosenNames_iff h (underscore_not_mem_root hname)).mp hmem
  exact root_not_isTypeName hname (h name hbase)

/-- The names of the declarations of a document. -/
theorem generate_namedByOrigin {doc : Document} {request : Request} {output : Output}
    (hinject : request.options.inject = "") (hfooter : request.options.injectFooter = "")
    (hrun : generate doc request = .ok output) :
    ∃ aliases, NamedByOrigin doc request output.decls aliases := by
  obtain ⟨decls, q, hdecls, rfl⟩ := runs_of_generate hrun
  have hfinal : (runOn (documentDecls doc) doc request).2 = q := congrArg Prod.snd hdecls
  obtain ⟨roots, r, hroots, hrest⟩ := Runs.bind_iff.mp hdecls.options_bind
  obtain ⟨rfl, rfl⟩ := Runs.pure_iff.mp hrest.get_bind
  obtain ⟨bases, haliases, hbases⟩ := (documentRoots_named doc).result _ roots r hroots
  have henums := ((documentRoots_enums doc).kept _ roots r hroots ⟨trivial, .nil⟩).1.enums
  refine ⟨bases, hbases, ?_⟩
  have hraw : rawDecls "" = [] := rfl
  have hhelper : declaredNames (if r.usesWithRequired then [.raw withRequiredHelper] else []) =
      if r.usesWithRequired then ["WithRequired"] else [] := by
    cases r.usesWithRequired <;> rfl
  have hpaths (b : Bool) : declaredNames (if b then [pathsEnum doc.paths] else []) =
      if b then ["ApiPaths"] else [] := by cases b <;> rfl
  have happend (left right : List Decl) :
      declaredNames (left ++ right) = declaredNames left ++ declaredNames right :=
    List.filterMap_append
  change declaredNames (rawDecls request.options.inject ++ rootDecls request.options roots _ ++
    furtherDecls doc request.options roots.aliases r) = _
  unfold furtherDecls fixedNames enumBases EnumRegistry.bases
  rw [hinject, hfooter, hraw, List.nil_append, List.append_nil]
  simp only [happend, declaredNames_rootDecls, haliases, henums.declared, henums.chosen, hhelper,
    hpaths, hfinal, List.append_assoc]
  rfl

/-- Lists without repetition, none with an element of another. -/
theorem nodup_origins_iff {roots aliases enums fixed : List String} (hroots : roots.Nodup)
    (haliases : aliases.Nodup) (henums : enums.Nodup) (hfixed : fixed.Nodup)
    (hapart : ∀ name ∈ roots, name ∉ aliases ∧ name ∉ enums ∧ name ∉ fixed) :
    (roots ++ aliases.reverse ++ enums.reverse ++ fixed).Nodup ↔
      aliases.Disjoint enums ∧ aliases.Disjoint fixed ∧ enums.Disjoint fixed := by
  simp only [List.nodup_append', List.nodup_reverse, List.disjoint_append_left,
    List.disjoint_reverse_left, List.disjoint_reverse_right]
  constructor
  · rintro ⟨⟨-, -, -, hae⟩, -, ⟨-, haf⟩, hef⟩
    exact ⟨hae, haf, hef⟩
  · rintro ⟨hae, haf, hef⟩
    exact ⟨⟨⟨hroots, haliases, fun name h => (hapart name h).1⟩, henums,
      fun name h => (hapart name h).2.1, hae⟩, hfixed,
      ⟨fun name h => (hapart name h).2.2, haf⟩, hef⟩

/-- Without text of its own, a document is declared under names of which none stands twice exactly
if nothing is to be called what something from elsewhere is to be called. Roots have names that
nothing else gets. -/
theorem generate_names_distinct_iff {doc : Document} {options : Options}
    {external : Option ExternalResolver} {output : Output} (hinject : options.inject = "")
    (hfooter : options.injectFooter = "")
    (hrun : generate doc { options, external } = .ok output) :
    ∃ aliases, NamedByOrigin doc { options, external } output.decls aliases ∧
      (∀ name ∈ rootNames, name ∉ chosenNames aliases ∧
        name ∉ chosenNames (enumBases doc { options, external })) ∧
      ((declaredNames output.decls).Nodup ↔ BasesApart doc { options, external }) := by
  obtain ⟨aliases, horigin⟩ := generate_namedByOrigin hinject hfooter hrun
  have haliases := horigin.isTypeName
  have henums : ∀ base ∈ enumBases doc { options, external }, IsTypeName base :=
    fun _ => isTypeName_of_mem_enumBases
  have hroot (name : String) (hname : name ∈ rootNames) :=
    And.intro (root_not_mem_chosenNames haliases hname) (root_not_mem_chosenNames henums hname)
  refine ⟨aliases, horigin, hroot, ?_⟩
  have hplain {name : String} (h : name ∈ fixedNames doc { options, external }) :
      '_' ∉ name.toList := by
    rcases mem_fixedNames h with rfl | rfl <;> decide
  have hapart (name : String) (hname : name ∈ rootNames) :
      name ∉ fixedNames doc { options, external } := by
    intro h
    rcases mem_fixedNames h with rfl | rfl
    · revert hname; decide
    · revert hname; decide
  rw [horigin.names, nodup_origins_iff (by decide) (nodup_chosenNames _) (nodup_chosenNames _)
    (nodup_fixedNames doc _) fun name h => ⟨(hroot name h).1, (hroot name h).2, hapart name h⟩,
    disjoint_chosenNames_iff haliases henums]
  constructor
  · rintro ⟨hae, haf, hef⟩
    refine ⟨fun base hbase => hae ((horigin.bases base).mpr hbase), fun name hname => ⟨?_, ?_⟩⟩
    · intro hbase
      exact haf ((mem_chosenNames_iff haliases (hplain hname)).mpr
        ((horigin.bases name).mpr hbase)) hname
    · intro hbase
      exact hef ((mem_chosenNames_iff henums (hplain hname)).mpr hbase) hname
  · rintro ⟨hae, hfixed⟩
    refine ⟨fun base hbase => hae base ((horigin.bases base).mp hbase), ?_, ?_⟩
    · intro name hchosen hname
      exact (hfixed name hname).1
        ((horigin.bases name).mp ((mem_chosenNames_iff haliases (hplain hname)).mp hchosen))
    · intro name hchosen hname
      exact (hfixed name hname).2 ((mem_chosenNames_iff henums (hplain hname)).mp hchosen)

/-- Aliases with a start of their own, and an enum: all names are different. -/
theorem generate_names_distinct_iff_pets :
    ∃ output, generate petDocument { options := { enum := true, rootTypes := true } } = .ok output ∧
      (declaredNames output.decls = rootNames ++ ["SchemaStatus", "SchemaPet", "SchemaSoldPet"] ++
        ["Status"] ++ ["WithRequired"]) ∧
      BasesApart petDocument { options := { enum := true, rootTypes := true } } := by
  obtain ⟨output, hrun, hnames⟩ := @exists_output petDocument
    { options := { enum := true, rootTypes := true } }
    (fun output => declaredNames output.decls = rootNames ++
      ["SchemaStatus", "SchemaPet", "SchemaSoldPet"] ++ ["Status"] ++ ["WithRequired"]) _
    (by decide +kernel)
  obtain ⟨aliases, -, -, hiff⟩ := generate_names_distinct_iff rfl rfl hrun
  exact ⟨output, hrun, hnames, hiff.mp (by rw [hnames]; decide)⟩

/-- Aliases without a start: the alias of a component and the enum of its values have one name. -/
theorem alias_clashes_with_enum :
    ∃ output, generate petDocument { options :=
        { enum := true, rootTypes := true, rootTypesNoSchemaPrefix := true } } = .ok output ∧
      declaredNames output.decls = rootNames ++ ["Status", "Pet", "SoldPet"] ++ ["Status"] ++
        ["WithRequired"] ∧ ¬ (declaredNames output.decls).Nodup := by
  obtain ⟨output, hrun, hnames⟩ := @exists_output petDocument { options :=
      { enum := true, rootTypes := true, rootTypesNoSchemaPrefix := true } }
    (fun output => declaredNames output.decls = rootNames ++ ["Status", "Pet", "SoldPet"] ++
      ["Status"] ++ ["WithRequired"]) _ (by decide +kernel)
  exact ⟨output, hrun, hnames, by rw [hnames]; decide⟩

end Typing

end ApiTypes
