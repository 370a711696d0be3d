import ApiTypes.Proofs.NameClashes
import ApiTypes.Proofs.Typing.Keeping

/-!
The names of aliases and of enums. Every component that is written gets an alias, and the aliases
get different names; the ones that had to be numbered for it are reported, and nothing else is
reported as a collision of names. The enums that are declared one after another get different names
for different places, and one place keeps its name.
-/

namespace ApiTypes

/-! The enums. -/

namespace EnumRegistry

/-- Places and names go with each other one to one, and each name is made from its place. -/
structure Matched (r : EnumRegistry) : Prop where
  taken : r.taken = r.byPlace.map (·.2)
  names : (r.byPlace.map (·.2)).Nodup
  places : (r.byPlace.map (·.1)).Nodup
  numbers : ∀ entry ∈ r.byPlace, Numbers (enumName entry.1) entry.2

theorem matched_empty : Matched {} := ⟨rfl, List.nodup_nil, List.nodup_nil, nofun⟩

/-- A further enum leaves the names that were given before, and gives its place the name that it is
called by. -/
theorem Matched.hoist {r : EnumRegistry} (h : r.Matched) (place : String) (s : Schema) :
    (r.hoist place s).2.Matched ∧ r.byPlace <:+ (r.hoist place s).2.byPlace ∧
      (place, (r.hoist place s).1) ∈ (r.hoist place s).2.byPlace := by
  unfold EnumRegistry.hoist
  cases hlookup : r.byPlace.lookup place with
  | some name => exact ⟨h, List.suffix_refl _, lookup_mem hlookup⟩
  | none =>
    have hnew : place ∉ r.byPlace.map (·.1) := by
      intro hmem
      obtain ⟨entry, hentry, rfl⟩ := List.mem_map.mp hmem
      exact absurd rfl (bne_iff_ne.mp (List.lookup_eq_none_iff.mp hlookup entry hentry))
    have hfresh := freshName_not_mem r.taken (enumName place)
    refine ⟨⟨?_, ?_, ?_, ?_⟩, List.suffix_cons _ _, List.mem_cons_self⟩
    · rw [h.taken, List.map_cons]
    · rw [List.map_cons, List.nodup_cons]
      exact ⟨h.taken ▸ hfresh, h.names⟩
    · exact List.nodup_cons.mpr ⟨hnew, h.places⟩
    · exact List.forall_mem_cons.mpr ⟨freshName_numbers _ _, h.numbers⟩

theorem Matched.hoistAll {r : EnumRegistry} (h : r.Matched) (requests : List (String × Schema)) :
    (r.hoistAll requests).2.Matched ∧ r.byPlace <:+ (r.hoistAll requests).2.byPlace ∧
      List.Forall₂ (fun request name => (request.1, name) ∈ (r.hoistAll requests).2.byPlace)
        requests (r.hoistAll requests).1 := by
  induction requests generalizing r with
  | nil => exact ⟨h, List.suffix_refl _, .nil⟩
  | cons request rest ih =>
    obtain ⟨hfirst, hkept, hnamed⟩ := h.hoist request.1 request.2
    obtain ⟨hlast, hmore, hrest⟩ := ih hfirst
    exact ⟨hlast, hkept.trans hmore, .cons (hmore.subset hnamed) hrest⟩

/-- One name belongs to one place, and one place to one name. -/
theorem Matched.name_eq_iff {r : EnumRegistry} (h : r.Matched) {place place' name name' : String}
    (hfirst : (place, name) ∈ r.byPlace) (hsecond : (place', name') ∈ r.byPlace) :
    name = name' ↔ place = place' := by
  constructor
  · intro hname
    exact congrArg Prod.fst (List.inj_on_of_nodup_map h.names hfirst hsecond hname)
  · intro hplace
    exact congrArg Prod.snd (List.inj_on_of_nodup_map h.places hfirst hsecond hplace)

theorem Matched.isIdentifier {r : EnumRegistry} (h : r.Matched) {place name : String}
    (hmem : (place, name) ∈ r.byPlace) : Text.isIdentifier name = true := by
  have hnumbers : Numbers (enumName place) name := h.numbers (place, name) hmem
  exact isIdentifier_of_numbers (isTypeName_enumName place).isIdentifier hnumbers

end EnumRegistry

namespace Typing

variable {σ : Setting} {options : Options} {p q : Progress} {aliases aliases' : Aliases}

/-! The aliases. -/

/-- The reports of names that were taken. -/
def collisions (p : Progress) : List Warning := p.warnings.filter (·.kind = .nameCollision)

theorem collisions_warn (p : Progress) (w : Warning) :
    collisions { p with warnings := p.warnings ++ [w] } =
      collisions p ++ [w].filter (·.kind = .nameCollision) := List.filter_append ..

/-- On the way to a type no such report is made. -/
theorem aside_collisions : Aside collisions :=
  .of_inlining
    (fun p w hkind => by
      rw [collisions_warn, List.filter_cons_of_neg (by simpa using hkind), List.filter_nil,
        List.append_nil])
    (fun _ _ => rfl) (fun _ _ => rfl) (fun _ _ _ => rfl) fun _ _ => rfl

/-- The components that the members of a type stand for, each after the name of its category. -/
def writtenComponents (members : List Member) : List (String × String) :=
  members.flatMap fun
    | .property category _ _ (.object items) _ => (memberNames items).map (category, ·)
    | _ => []

/-- A component and the name of its alias. -/
structure NamedComponent where
  category : Category
  name : String
  chosen : String

namespace NamedComponent

/-- What the alias is to be called. -/
def base (options : Options) (a : NamedComponent) : String :=
  aliasBase options a.category a.name

def decl (a : NamedComponent) : Decl :=
  .alias a.chosen ((TypeExpr.named "components").index [a.category.name, a.name]) true []

/-- The report that is due if the alias is not called what it is to be called. -/
def collision? (options : Options) (a : NamedComponent) : Option Warning :=
  if a.chosen = a.base options then none
  else some ⟨.nameCollision, Reference.join "#" ["components", a.category.name, a.name],
    "root type " ++ a.base options ++ " already declared, using " ++ a.chosen⟩

end NamedComponent

/-- Where the aliases of some components have been declared in turn, and `before` had been reported
before. -/
structure Aliased (options : Options) (before : List Warning) (named : List NamedComponent)
    (aliases : Aliases) (p : Progress) : Prop where
  decls : aliases.decls = named.map (·.decl)
  taken : aliases.taken = (named.map (·.chosen)).reverse
  distinct : (named.map (·.chosen)).Nodup
  numbers : ∀ a ∈ named, Numbers (a.base options) a.chosen
  reported : collisions p = before ++ named.filterMap (·.collision? options)

variable {before : List Warning} {named : List NamedComponent}

theorem Aliased.keeps {act : Typing α} {post : α → Prop} {x : α}
    (h : Aliased options before named aliases p) (hrun : Runs σ act p x q)
    (hact : Keeps collisions act post) : Aliased options before named aliases q :=
  { h with reported := (hrun.keeps hact).trans h.reported }

/-- A warning is added at the end. -/
theorem runs_warn {kind : WarningKind} {place message : String} {x : Unit}
    (h : Runs σ (warn kind place message) p x q) :
    q = { p with warnings := p.warnings ++ [⟨kind, place, message⟩] } := by
  rw [Runs, exec_warn] at h
  exact (Prod.mk.inj h).2.symm

/-- The declaration of one alias, with a report exactly if its name was taken. -/
theorem runs_addAlias {a : NamedComponent} (hon : σ.options.rootTypes = true)
    (hchosen : freshName aliases.taken (aliasBase σ.options a.category a.name) = a.chosen)
    (h : Runs σ (addAlias a.category a.name
      (Reference.join "#" ["components", a.category.name, a.name]) aliases) p aliases' q) :
    aliases' = ⟨aliases.decls ++ [a.decl], a.chosen :: aliases.taken⟩ ∧
      collisions q = collisions p ++ [a].filterMap (·.collision? σ.options) := by
  have hrun := h.options_bind
  rw [hon] at hrun
  simp only [Bool.not_true, Bool.false_eq_true, if_false, hchosen] at hrun
  split at hrun
  · rename_i htaken
    obtain ⟨_, r, hreport, hdone⟩ := Runs.bind_iff.mp hrun
    obtain ⟨rfl, rfl⟩ := Runs.pure_iff.mp hdone
    refine ⟨rfl, ?_⟩
    rw [runs_warn hreport, collisions_warn]
    simp [NamedComponent.collision?, NamedComponent.base, htaken]
  · rename_i hfree
    obtain ⟨rfl, rfl⟩ := Runs.pure_iff.mp hrun
    refine ⟨rfl, ?_⟩
    simp [NamedComponent.collision?, NamedComponent.base, not_ne_iff.mp hfree]

theorem Aliased.addAlias {category : Category} {name : String}
    (h : Aliased σ.options before named aliases p) (hon : σ.options.rootTypes = true)
    (hrun : Runs σ (addAlias category name
      (Reference.join "#" ["components", category.name, name]) aliases) p aliases' q) :
    ∃ chosen, Aliased σ.options before (named ++ [⟨category, name, chosen⟩]) aliases' q := by
  have hfresh := freshName_not_mem aliases.taken (aliasBase σ.options category name)
  have hnumbers := freshName_numbers aliases.taken (aliasBase σ.options category name)
  generalize hchosen : freshName aliases.taken (aliasBase σ.options category name) = chosen
    at hfresh hnumbers
  rw [h.taken, List.mem_reverse] at hfresh
  obtain ⟨rfl, hreported⟩ := runs_addAlias (a := ⟨category, name, chosen⟩) hon hchosen hrun
  refine ⟨chosen, ?_, ?_, ?_, ?_, ?_⟩
  · rw [h.decls, List.map_append, List.map_singleton]
  · rw [h.taken, List.map_append, List.map_singleton, List.reverse_append]
    rfl
  · rw [List.map_append, List.map_singleton]
    exact List.nodup_append'.mpr ⟨h.distinct, List.nodup_singleton _,
      List.disjoint_singleton.mpr hfresh⟩
  · exact List.forall_mem_append.mpr ⟨h.numbers, List.forall_mem_singleton.mpr hnumbers⟩
  · rw [hreported, h.reported, List.filterMap_append, List.append_assoc]

/-- The aliases of a category are declared in the order of its members. -/
theorem Aliased.componentMembers {category : Category} {components : List Component}
    {members : List Member}
    (hcomponents : ∀ k ∈ components, ∀ place, Keeps collisions (k.typeAt place) fun _ => True)
    (h : Aliased σ.options before named aliases p) (hon : σ.options.rootTypes = true)
    (hrun : Runs σ (componentMembers category aliases components) p (members, aliases') q) :
    ∃ more, more.map (fun a => (a.category.name, a.name)) =
        (memberNames members).map (category.name, ·) ∧
      Aliased σ.options before (named ++ more) aliases' q := by
  induction components generalizing named aliases p members with
  | nil =>
    obtain ⟨heq, rfl⟩ := Runs.pure_iff.mp hrun
    cases heq
    exact ⟨[], rfl, by rwa [List.append_nil]⟩
  | cons k rest ih =>
    obtain ⟨hfirst, hrest⟩ := List.forall_mem_cons.mp hcomponents
    rw [Typing.componentMembers] at hrun
    have hrun := hrun.options_bind
    dsimp only at hrun
    split at hrun
    · exact ih hrest h hrun
    · obtain ⟨t, r, htype, hrun⟩ := Runs.bind_iff.mp hrun
      obtain ⟨result, r₁, hhook, hrun⟩ := Runs.bind_iff.mp hrun
      obtain ⟨next, r₂, halias, hrun⟩ := Runs.bind_iff.mp hrun
      obtain ⟨⟨others, last⟩, r₃, hothers, hdone⟩ := Runs.bind_iff.mp hrun
      obtain ⟨heq, rfl⟩ := Runs.pure_iff.mp hdone
      cases heq
      have hkept := (h.keeps htype (hfirst _)).keeps hhook
        ((keeping aside_collisions).typeHook t k.schema _)
      obtain ⟨chosen, hnext⟩ := hkept.addAlias hon halias
      obtain ⟨more, hmore, hlast⟩ := ih hrest hnext hothers
      refine ⟨⟨category, k.name, chosen⟩ :: more, ?_, ?_⟩
      · rw [List.map_cons, hmore]
        rfl
      · rwa [List.append_assoc] at hlast

/-- The aliases of all categories are declared in the order of the members below them. -/
theorem Aliased.categoryMembers {c : Components} {categories : List Category}
    {members : List Member} (h : Aliased σ.options before named aliases p)
    (hon : σ.options.rootTypes = true)
    (hrun : Runs σ (categoryMembers c aliases categories) p (members, aliases') q) :
    ∃ more, more.map (fun a => (a.category.name, a.name)) = writtenComponents members ∧
      Aliased σ.options before (named ++ more) aliases' q := by
  have hregister (e : OperationEntry) (_ : (keeping aside_collisions).Good e.type) :=
    registerOperation_keeps aside_collisions (fun _ _ => rfl) e
  induction categories generalizing named aliases p members with
  | nil =>
    obtain ⟨heq, rfl⟩ := Runs.pure_iff.mp hrun
    cases heq
    exact ⟨[], rfl, by rwa [List.append_nil]⟩
  | cons category rest ih =>
    rw [Typing.categoryMembers] at hrun
    obtain ⟨components, r, hlist, hrun⟩ := Runs.bind_iff.mp hrun
    obtain ⟨⟨items, next⟩, r₁, hitems, hrun⟩ := Runs.bind_iff.mp hrun
    obtain ⟨⟨others, last⟩, r₂, hothers, hdone⟩ := Runs.bind_iff.mp hrun
    obtain ⟨heq, rfl⟩ := Runs.pure_iff.mp hdone
    cases heq
    have hlisted : Keeps collisions (listComponents c category) fun list =>
        ∀ k ∈ list, ∀ place, Keeps collisions (k.typeAt place) fun _ => True :=
      listComponents_holds (J := keeping aside_collisions) c
        fun _ item place => pathItemType_holds hregister item place
    have hcomponents := (hlisted.gives σ).result _ _ _ hlist
    obtain ⟨first, hfirst, hnext⟩ :=
      (h.keeps hlist hlisted).componentMembers hcomponents hon hitems
    obtain ⟨more, hmore, hlast⟩ := ih hnext hothers
    refine ⟨first ++ more, ?_, ?_⟩
    · rw [List.map_append, hfirst, hmore]
      cases items <;> rfl
    · rwa [List.append_assoc] at hlast

/-- The aliases that are declared beside a type of components. -/
structure NamesComponents (options : Options) (t : TypeExpr) (aliases : List Decl)
    (named : List NamedComponent) : Prop where
  /-- There is one for each component that the type has a member for, in the order of the
  members. -/
  entries : ∃ members, t = .object members ∧
    named.map (fun a => (a.category.name, a.name)) = writtenComponents members
  decls : aliases = named.map (·.decl)
  identifiers : ∀ a ∈ named, Text.isIdentifier a.chosen = true
  distinct : (named.map (·.chosen)).Nodup
  numbers : ∀ a ∈ named, Numbers (a.base options) a.chosen

theorem runs_componentsType {c : Components} {t : TypeExpr} {decls : List Decl}
    (hon : σ.options.rootTypes = true) (h : Runs σ (componentsType c) p (t, decls) q) :
    ∃ named, NamesComponents σ.options t decls named ∧
      collisions q = collisions p ++ named.filterMap (·.collision? σ.options) := by
  obtain ⟨⟨members, last⟩, r, hmembers, hdone⟩ := Runs.bind_iff.mp h
  obtain ⟨heq, rfl⟩ := Runs.pure_iff.mp hdone
  cases heq
  have hempty : Aliased σ.options (collisions p) [] {} p :=
    ⟨rfl, rfl, List.nodup_nil, nofun, (List.append_nil _).symm⟩
  obtain ⟨named, hnamed, hlast⟩ := hempty.categoryMembers hon hmembers
  rw [List.nil_append] at hlast
  refine ⟨named, ⟨⟨members, rfl, hnamed⟩, hlast.decls, fun a ha => ?_, hlast.distinct,
    hlast.numbers⟩, hlast.reported⟩
  exact isIdentifier_of_numbers (isTypeName_aliasBase _ _ _).isIdentifier (hlast.numbers a ha)

/-- Aliases have different names that are identifiers, one for each component that is written, and
the report of a collision for each that had to be numbered. Enums that are declared one after
another have identifiers as names, the same name exactly for the same place. -/
theorem chosen_names_valid :
    (∀ (σ : Setting) (c : Components) (p q : Progress) (t : TypeExpr) (decls : List Decl),
      σ.options.rootTypes = true → Runs σ (componentsType c) p (t, decls) q →
      ∃ named, NamesComponents σ.options t decls named ∧
        collisions q = collisions p ++ named.filterMap (·.collision? σ.options)) ∧
    ∀ requests : List (String × Schema),
      let names := (EnumRegistry.hoistAll {} requests).1
      names.length = requests.length ∧ (∀ name ∈ names, Text.isIdentifier name = true) ∧
        ∀ first ∈ requests.zip names, ∀ second ∈ requests.zip names,
          first.2 = second.2 ↔ first.1.1 = second.1.1 := by
  refine ⟨fun σ c p q t decls hon h => runs_componentsType hon h, fun requests => ?_⟩
  obtain ⟨hmatched, -, hnamed⟩ := EnumRegistry.matched_empty.hoistAll requests
  refine ⟨hnamed.length_eq.symm, fun name hname => ?_, fun first hfirst second hsecond => ?_⟩
  · obtain ⟨i, hi, rfl⟩ := List.getElem_of_mem hname
    exact hmatched.isIdentifier (hnamed.get (by rw [hnamed.length_eq]; exact hi) hi)
  · have hall := List.forall₂_iff_zip.mp hnamed
    exact hmatched.name_eq_iff (hall.2 hfirst) (hall.2 hsecond)

/-- Two components whose names differ only in how they are spelled. -/
def twinComponents : Components where
  schemas := some (.ofList [("pet_status", some {}), ("petStatus", some {})])

theorem chosen_names_valid_twins :
    (∃ t decls q, Runs { options := { rootTypes := true } } (componentsType twinComponents) {}
      (t, decls) q ∧ declaredNames decls = ["SchemaPetStatus", "SchemaPetStatus_2"] ∧
      ∃ named, NamesComponents { rootTypes := true } t decls named ∧
        collisions q = named.filterMap (·.collision? { rootTypes := true })) ∧
    (EnumRegistry.hoistAll {} [("#/$defs/a", {}), ("#/$defs/A", {}), ("#/$defs/a", {})]).1 =
      ["DefsA", "DefsA_2", "DefsA"] := by
  refine ⟨?_, by decide +kernel⟩
  have hnames : (exec (componentsType twinComponents) { options := { rootTypes := true } }
      {}).1.toOption.map (fun found => declaredNames found.2) =
        some ["SchemaPetStatus", "SchemaPetStatus_2"] := by decide +kernel
  cases hrun : exec (componentsType twinComponents) { options := { rootTypes := true } } {} with
  | mk result q =>
    rw [hrun] at hnames
    cases result with
    | error e => cases hnames
    | ok found =>
      refine ⟨found.1, found.2, q, hrun, Option.some.inj hnames, ?_⟩
      obtain ⟨named, hnamed, hreported⟩ :=
        chosen_names_valid.1 _ twinComponents {} q found.1 found.2 rfl hrun
      exact ⟨named, hnamed, hreported⟩

end Typing

end ApiTypes
