import ApiTypes.Proofs.Typing.PathTyped
import Mathlib.Data.List.Forall2

/-!
The declarations for a document. The roots have a member for each entry of the document that is not
left out, every declared operation and enum is among the declarations, and the types in them use
only names that stand for something.
-/

namespace ApiTypes

/-- The name of a member that has one. -/
def Member.name? : Member → Option String
  | .property name _ _ _ _ => some name
  | .indexSignature .. => none

/-- The names of the members of an object type. -/
def memberNames (members : List Member) : List String := members.filterMap Member.name?

/-- The names of the members below one of the members of an object type. -/
def namesUnder (key : String) (members : List Member) : List String :=
  members.flatMap fun
    | .property name _ _ (.object inner) _ => if name = key then memberNames inner else []
    | _ => []

/-- The members of an object type. -/
def TypeExpr.members? : TypeExpr → Option (List Member)
  | .object members => some members
  | _ => none

/-- The members of a declaration, if it declares an object type of the given name. -/
def Decl.membersOf? (root : String) : Decl → Option (List Member)
  | .interface name members _ _ => if name = root then some members else none
  | .alias name t _ _ => if name = root then t.members? else none
  | _ => none

/-- The members of a declared object type. -/
def declaredMembers (decls : List Decl) (root : String) : List Member :=
  (decls.findSome? (Decl.membersOf? root)).getD []

namespace Typing

/-- The names in a category of components, each with whether it is deprecated. -/
def listedNames (c : Components) : Category → List (String × Bool)
  | .schemas => (entriesOf c.schemas).map fun (name, s) => (name, s.any (·.deprecated))
  | .responses => present c.responses fun _ => false
  | .parameters => present c.parameters (·.deprecated)
  | .requestBodies => present c.requestBodies fun _ => false
  | .headers => present c.headers (·.deprecated)
  | .pathItems => present c.pathItems fun _ => false
where
  present {α : Type} (m : Option (OrderedMap (Option α))) (deprecated : α → Bool) :
      List (String × Bool) :=
    (entriesOf m).filterMap fun (name, x) => x.map fun x => (name, deprecated x)

/-- A component of this name is written: one that is not left out for being deprecated. -/
def Writes (c : Components) (options : Options) (category : Category) (name : String) : Prop :=
  ∃ deprecated, (name, deprecated) ∈ listedNames c category ∧
    (options.excludeDeprecated && deprecated) = false

variable {α : Type} {w : Source} {σ : Setting} {p : Progress}

theorem pathMembers_ensures (hσ : HookFree σ) (listed : List (String × Option PathItem))
    (hlisted : ∀ name x, (name, some x) ∈ listed → w.Reaches (.pathItem x)) :
    Ensures w σ p (pathMembers listed) fun q members =>
      (∀ m ∈ members, MemberTyped w q m) ∧
        (σ.options.pathParamsAsTypes = false →
          ∀ name x, (name, some x) ∈ listed → name ∈ memberNames members) := by
  induction listed generalizing p with
  | nil => exact .pure ⟨nofun, nofun⟩
  | cons entry rest ih =>
    have hrest (q : Progress) := ih (p := q) fun name x hmem =>
      hlisted name x (List.mem_cons_of_mem _ hmem)
    obtain ⟨path, item⟩ := entry
    cases item with
    | none =>
      refine (hrest p).weaken fun q members _ hmembers => ⟨hmembers.1, fun hoff name x hmem => ?_⟩
      rcases List.mem_cons.mp hmem with heq | htail
      · cases heq
      · exact hmembers.2 hoff name x htail
    | some item =>
      have hitem : w.Reaches (.pathItem item) := hlisted path item List.mem_cons_self
      rw [pathMembers]
      apply (pathItemRefType_ensures hσ hitem _).bind
      intro q t _ ht
      apply Ensures.options_bind
      dsimp only
      split
      · rename_i htemplate
        apply (resolvedItem_ensures hitem).bind
        intro r declared hqr hdeclared
        apply (pathParamTypes_ensures hdeclared).bind
        intro r₁ types hrr₁ htypes
        apply (hrest r₁).bind
        intro r₂ members hext hmembers
        apply Ensures.pure
        constructor
        · exact memberTyped_cons hext
            (.indexSignature (typed_toType_template _ htypes) (ht.mono (hqr.trans hrr₁).toGrows))
            hmembers.1
        · intro hoff
          simp [hoff] at htemplate
      · apply (hrest q).bind
        intro r members hqr hmembers
        apply Ensures.pure
        refine ⟨memberTyped_cons hqr (.property ht) hmembers.1, fun hoff name x hmem => ?_⟩
        rcases List.mem_cons.mp hmem with heq | htail
        · cases heq
          exact List.mem_cons_self
        · exact List.mem_cons_of_mem _ (hmembers.2 hoff name x htail)

theorem webhookMembers_ensures (hσ : HookFree σ) (listed : List (String × Option PathItem))
    (hlisted : ∀ name x, (name, some x) ∈ listed → w.Reaches (.pathItem x)) :
    Ensures w σ p (webhookMembers listed) fun q members =>
      (∀ m ∈ members, MemberTyped w q m) ∧
        ∀ name x, (name, some x) ∈ listed → name ∈ memberNames members := by
  induction listed generalizing p with
  | nil => exact .pure ⟨nofun, nofun⟩
  | cons entry rest ih =>
    have hrest (q : Progress) := ih (p := q) fun name x hmem =>
      hlisted name x (List.mem_cons_of_mem _ hmem)
    obtain ⟨first, item⟩ := entry
    cases item with
    | none =>
      refine (hrest p).weaken fun q members _ hmembers => ⟨hmembers.1, fun name x hmem => ?_⟩
      rcases List.mem_cons.mp hmem with heq | htail
      · cases heq
      · exact hmembers.2 name x htail
    | some item =>
      have hitem : w.Reaches (.pathItem item) := hlisted first item List.mem_cons_self
      rw [webhookMembers]
      apply (pathItemRefType_ensures hσ hitem _).bind
      intro q t _ ht
      apply (hrest q).bind
      intro r members hqr hmembers
      apply Ensures.pure
      refine ⟨memberTyped_cons hqr (.property ht) hmembers.1, fun name x hmem => ?_⟩
      rcases List.mem_cons.mp hmem with heq | htail
      · cases heq
        exact List.mem_cons_self
      · exact List.mem_cons_of_mem _ (hmembers.2 name x htail)

theorem definitionsMembers_ensures (hσ : HookFree σ) (listed : List (String × Option Schema))
    (hlisted : ∀ name s, (name, s) ∈ listed → Met w s) :
    Ensures w σ p (definitionsMembers listed) fun q members =>
      (∀ m ∈ members, MemberTyped w q m) ∧
        ∀ name s, (name, s) ∈ listed → name ∈ memberNames members := by
  induction listed generalizing p with
  | nil => exact .pure ⟨nofun, nofun⟩
  | cons entry rest ih =>
    obtain ⟨first, s⟩ := entry
    rw [definitionsMembers]
    apply (schemaType_ensures hσ (hlisted first s List.mem_cons_self) _).bind
    intro q t _ ht
    apply Ensures.options_bind
    apply (ih fun name s hmem => hlisted name s (List.mem_cons_of_mem _ hmem)).bind
    intro r members hqr hmembers
    apply Ensures.pure
    refine ⟨memberTyped_cons hqr (.property ht) hmembers.1, fun name s' hmem => ?_⟩
    rcases List.mem_cons.mp hmem with heq | htail
    · cases heq
      exact List.mem_cons_self
    · exact List.mem_cons_of_mem _ (hmembers.2 name s' htail)

/-- A component whose type is fine at every place. -/
def Fine (w : Source) (σ : Setting) (c : Component) : Prop :=
  ∀ place p, Ensures w σ p (c.typeAt place) (Typed w)

theorem namedType_ensures [Referable α] [LawfulReferable α] {type : α → String → Typing TypeExpr}
    (htype : ∀ x place p, w.Reaches (LawfulReferable.toObject x) →
      Ensures w σ p (type x place) (Typed w))
    {x : α} (hx : w.Reaches (LawfulReferable.toObject x)) (place : String) :
    Ensures w σ p (namedType type x place) (Typed w) := by
  have hasks : w.Asks (Referable.refOf x) := by
    rw [← LawfulReferable.ref_toObject]
    exact .held hx
  unfold namedType
  split
  · exact htype x place p hx
  · exact refType_of_reaches htype hasks place

/-- The components have these names and flags. -/
def Lists (found : List Component) (names : List (String × Bool)) : Prop :=
  ∀ entry, entry ∈ names ↔ ∃ k ∈ found, (k.name, k.deprecated) = entry

/-- The components of a map are listed with their names. -/
theorem componentsOf_lists (m : Option (OrderedMap (Option α))) (component : String → α → Component)
    (deprecated : α → Bool)
    (hnames : ∀ name x,
      ((component name x).name, (component name x).deprecated) = (name, deprecated x)) :
    Gives σ (componentsOf m component) (Lists · (listedNames.present m deprecated)) := by
  refine (Gives.entries m).bind fun listed hlisted => .pure fun entry => ?_
  constructor
  · intro hentry
    obtain ⟨⟨name, x⟩, hmem, hsome⟩ := List.mem_filterMap.mp hentry
    obtain ⟨y, rfl, rfl⟩ := Option.map_eq_some_iff.mp hsome
    refine ⟨component name y, List.mem_filterMap.mpr ?_, hnames name y⟩
    exact ⟨(name, some y), hlisted.symm.subset hmem, rfl⟩
  · rintro ⟨k, hk, rfl⟩
    obtain ⟨⟨name, x⟩, hmem, hsome⟩ := List.mem_filterMap.mp hk
    obtain ⟨y, rfl, rfl⟩ := Option.map_eq_some_iff.mp hsome
    rw [hnames]
    exact List.mem_filterMap.mpr ⟨(name, some y), hlisted.subset hmem, rfl⟩

/-- The components of a category are listed with their names. -/
theorem listComponents_lists (c : Components) (category : Category) :
    Gives σ (listComponents c category) (Lists · (listedNames c category)) := by
  cases category with
  | schemas =>
    refine (Gives.entries c.schemas).bind fun listed hlisted => .pure fun entry => ?_
    constructor
    · intro hentry
      obtain ⟨⟨name, s⟩, hmem, rfl⟩ := List.mem_map.mp hentry
      exact ⟨_, List.mem_map.mpr ⟨(name, s), hlisted.symm.subset hmem, rfl⟩, rfl⟩
    · rintro ⟨k, hk, rfl⟩
      obtain ⟨⟨name, s⟩, hmem, rfl⟩ := List.mem_map.mp hk
      exact List.mem_map.mpr ⟨(name, s), hlisted.subset hmem, rfl⟩
  | responses =>
    rw [listComponents]
    exact componentsOf_lists c.responses _ (fun _ => false) fun _ _ => rfl
  | parameters =>
    rw [listComponents]
    exact componentsOf_lists c.parameters _ (·.deprecated) fun _ _ => rfl
  | requestBodies =>
    rw [listComponents]
    exact componentsOf_lists c.requestBodies _ (fun _ => false) fun _ _ => rfl
  | headers =>
    rw [listComponents]
    exact componentsOf_lists c.headers _ (·.deprecated) fun _ _ => rfl
  | pathItems =>
    rw [listComponents]
    exact componentsOf_lists c.pathItems _ (fun _ => false) fun _ _ => rfl

/-- The components of a map have fine types if those for the single components are. -/
theorem componentsOf_ensures {wrap : α → Object} {m : Option (OrderedMap (Option α))}
    (hm : Held w wrap m) (component : String → α → Component)
    (hfine : ∀ name x, w.Reaches (wrap x) → Fine w σ (component name x)) :
    Ensures w σ p (componentsOf m component) fun _ found => ∀ k ∈ found, Fine w σ k := by
  unfold componentsOf
  apply Ensures.entries_bind
  intro listed hlisted
  apply Ensures.pure
  intro k hk
  obtain ⟨⟨name, x⟩, hmem, hsome⟩ := List.mem_filterMap.mp hk
  obtain ⟨y, rfl, rfl⟩ := Option.map_eq_some_iff.mp hsome
  exact hfine name y (hm name y (hlisted.subset hmem))

/-- The types of the components of a category are fine. -/
theorem listComponents_ensures (hσ : HookFree σ) {c : Components}
    (hc : ∀ o ∈ c.objects, w.Reaches o) (category : Category) :
    Ensures w σ p (listComponents c category) fun _ found => ∀ k ∈ found, Fine w σ k := by
  simp only [Components.objects, List.mem_append] at hc
  cases category with
  | schemas =>
    unfold listComponents
    apply Ensures.entries_bind
    intro listed hlisted
    have hheld : Held w .schema c.schemas := .of_objects fun o ho => hc o (by simp [ho])
    apply Ensures.pure
    intro k hk
    obtain ⟨⟨name, s⟩, hmem, rfl⟩ := List.mem_map.mp hk
    intro place q
    apply unfinishedType_ensures hσ
    rintro x rfl
    exact hheld name x (hlisted.subset hmem)
  | responses =>
    have hheld : Held w .response c.responses := .of_objects fun o ho => hc o (by simp [ho])
    rw [listComponents]
    refine componentsOf_ensures hheld _ ?_
    intro name x hx place q
    exact namedType_ensures (fun y place r hy => responseType_ensures hσ hy place) hx place
  | parameters =>
    have hheld : Held w .parameter c.parameters := .of_objects fun o ho => hc o (by simp [ho])
    rw [listComponents]
    refine componentsOf_ensures hheld _ ?_
    intro name x hx place q
    exact namedType_ensures (fun y place r hy => parameterType_ensures hσ hy place) hx place
  | requestBodies =>
    have hheld : Held w .requestBody c.requestBodies := .of_objects fun o ho => hc o (by simp [ho])
    rw [listComponents]
    refine componentsOf_ensures hheld _ ?_
    intro name x hx place q
    exact namedType_ensures (fun y place r hy => requestBodyType_ensures hσ hy place) hx place
  | headers =>
    have hheld : Held w .header c.headers := .of_objects fun o ho => hc o (by simp [ho])
    rw [listComponents]
    refine componentsOf_ensures hheld _ ?_
    intro name x hx place q
    exact namedType_ensures (fun y place r hy => headerType_ensures hσ hy place) hx place
  | pathItems =>
    have hheld : Held w .pathItem c.pathItems := .of_objects fun o ho => hc o (by simp [ho])
    rw [listComponents]
    refine componentsOf_ensures hheld _ ?_
    intro name x hx place q
    exact namedType_ensures (fun y place r hy => pathItemType_ensures hσ hy place) hx place

/-- The declaration is an alias of a component for which `written` holds. -/
def IsAlias (written : Category → String → Prop) (d : Decl) : Prop :=
  ∃ chosen category name, written category name ∧
    d = .alias chosen ((TypeExpr.named "components").index [category.name, name]) true []

theorem addAlias_ensures {written : Category → String → Prop} {category : Category} {name : String}
    (hname : written category name) (place : String) {aliases : Aliases}
    (haliases : ∀ d ∈ aliases.decls, IsAlias written d) :
    Ensures w σ p (addAlias category name place aliases) fun _ found =>
      ∀ d ∈ found.decls, IsAlias written d := by
  have hnew (chosen : String) (taken : List String) : ∀ d ∈ (Aliases.mk (aliases.decls ++
      [.alias chosen ((TypeExpr.named "components").index [category.name, name]) true []])
      taken).decls, IsAlias written d := by
    intro d hd
    rcases List.mem_append.mp hd with hold | hlast
    · exact haliases d hold
    · rw [List.mem_singleton.mp hlast]
      exact ⟨chosen, category, name, hname, rfl⟩
  unfold addAlias
  apply Ensures.options_bind
  split
  · exact .pure haliases
  · dsimp only
    split
    · apply Ensures.bind (.warn _ _ _)
      intro q _ _ _
      exact .pure (hnew _ _)
    · exact .pure (hnew _ _)

/-- The members for components of a category: one for each that is not left out. -/
theorem componentMembers_ensures (hσ : HookFree σ) {written : Category → String → Prop}
    {category : Category} (components : List Component) (aliases : Aliases)
    (hcomponents : ∀ k ∈ components, Fine w σ k)
    (hwritten : ∀ k ∈ components, (σ.options.excludeDeprecated && k.deprecated) = false →
      written category k.name)
    (haliases : ∀ d ∈ aliases.decls, IsAlias written d) :
    Ensures w σ p (componentMembers category aliases components) fun q found =>
      (∀ m ∈ found.1, MemberTyped w q m) ∧
      (∀ name, name ∈ memberNames found.1 ↔ ∃ k ∈ components, k.name = name ∧
        (σ.options.excludeDeprecated && k.deprecated) = false) ∧
      ∀ d ∈ found.2.decls, IsAlias written d := by
  induction components generalizing p aliases with
  | nil => exact .pure ⟨nofun, by simp [memberNames], haliases⟩
  | cons k rest ih =>
    have hrest (q : Progress) (aliases : Aliases) (h : ∀ d ∈ aliases.decls, IsAlias written d) :=
      ih (p := q) aliases (fun k hk => hcomponents k (List.mem_cons_of_mem _ hk))
        (fun k hk => hwritten k (List.mem_cons_of_mem _ hk)) h
    rw [componentMembers]
    apply Ensures.options_bind
    dsimp only
    split
    · rename_i hdropped
      refine (hrest p aliases haliases).weaken fun q found _ hfound =>
        ⟨hfound.1, fun name => ?_, hfound.2.2⟩
      rw [hfound.2.1 name]
      constructor
      · rintro ⟨k', hk', h⟩
        exact ⟨k', List.mem_cons_of_mem _ hk', h⟩
      · rintro ⟨k', hk', hname, hflag⟩
        rcases List.mem_cons.mp hk' with rfl | hmem
        · rw [hdropped] at hflag
          cases hflag
        · exact ⟨k', hmem, hname, hflag⟩
    · rename_i hkept
      have hkept' : (σ.options.excludeDeprecated && k.deprecated) = false := by simpa using hkept
      apply (hcomponents k List.mem_cons_self _ p).bind
      intro q t _ ht
      apply Ensures.congr (exec_typeHook_bind hσ _ _ q t _)
      apply (addAlias_ensures (hwritten k List.mem_cons_self hkept') _ haliases).bind
      intro r aliases' hqr haliases'
      apply (hrest r aliases' haliases').bind
      intro r' found hrr' hfound
      apply Ensures.pure
      refine ⟨memberTyped_cons (hqr.trans hrr') (.property ht) hfound.1, fun name => ?_,
        hfound.2.2⟩
      have hcons : memberNames (Member.property k.name false σ.options.immutable t k.doc ::
          found.1) = k.name :: memberNames found.1 := rfl
      change name ∈ memberNames (Member.property k.name false σ.options.immutable t k.doc ::
        found.1) ↔ _
      rw [hcons, List.mem_cons, hfound.2.1 name]
      constructor
      · rintro (rfl | ⟨k', hk', h⟩)
        · exact ⟨k, List.mem_cons_self, rfl, hkept'⟩
        · exact ⟨k', List.mem_cons_of_mem _ hk', h⟩
      · rintro ⟨k', hk', hname, hflag⟩
        rcases List.mem_cons.mp hk' with rfl | hmem
        · exact .inl hname.symm
        · exact .inr ⟨k', hmem, hname, hflag⟩

/-- The member for a category, with a member for each component that is written. -/
def IsCategory (c : Components) (options : Options) (category : Category) (m : Member) : Prop :=
  ∃ items, m = .plain category.name (if items.isEmpty then .never else .object items) ∧
    ∀ name, name ∈ memberNames items ↔ Writes c options category name

theorem categoryMembers_ensures (hσ : HookFree σ) {c : Components}
    (hc : ∀ o ∈ c.objects, w.Reaches o) (categories : List Category) (aliases : Aliases)
    (haliases : ∀ d ∈ aliases.decls, IsAlias (Writes c σ.options) d) :
    Ensures w σ p (categoryMembers c aliases categories) fun q found =>
      (∀ m ∈ found.1, MemberTyped w q m) ∧
      List.Forall₂ (IsCategory c σ.options) categories found.1 ∧
      ∀ d ∈ found.2.decls, IsAlias (Writes c σ.options) d := by
  induction categories generalizing p aliases with
  | nil => exact .pure ⟨nofun, .nil, haliases⟩
  | cons category rest ih =>
    rw [categoryMembers]
    apply ((listComponents_ensures hσ hc category).gives (listComponents_lists c category)).bind
    intro q components _ hcomponents
    obtain ⟨hfine, hlists⟩ := hcomponents
    have hwritten : ∀ k ∈ components, (σ.options.excludeDeprecated && k.deprecated) = false →
        Writes c σ.options category k.name :=
      fun k hk hkept => ⟨k.deprecated, (hlists _).mpr ⟨k, hk, rfl⟩, hkept⟩
    apply (componentMembers_ensures hσ components aliases hfine hwritten haliases).bind
    intro r found _ hfound
    obtain ⟨items, aliases'⟩ := found
    obtain ⟨hitems, hnames, haliases'⟩ := hfound
    apply (ih aliases' haliases').bind
    intro r' others hrr' hothers
    obtain ⟨hmembers, hcategories, hdecls⟩ := hothers
    apply Ensures.pure
    have hmember : MemberTyped w r
        (.plain category.name (if items.isEmpty then .never else .object items)) := by
      apply Member.UsesOnly.property
      split
      · exact .keyword _
      · exact .object hitems
    refine ⟨memberTyped_cons hrr' hmember hmembers, .cons ⟨items, rfl, ?_⟩ hcategories, hdecls⟩
    intro name
    rw [hnames name]
    constructor
    · rintro ⟨k, hk, rfl, hkept⟩
      exact hwritten k hk hkept
    · rintro ⟨flag, hflag, hkept⟩
      obtain ⟨k, hk, heq⟩ := (hlists _).mp hflag
      cases heq
      exact ⟨k, hk, rfl, hkept⟩

theorem namesUnder_plain (key name : String) (items : List Member) :
    namesUnder key [.plain name (if items.isEmpty then .never else .object items)] =
      if name = key then memberNames items else [] := by
  cases items with
  | nil =>
    have hnone : memberNames [] = [] := rfl
    rw [hnone, ite_self]
    rfl
  | cons m rest => simp [namesUnder, Member.plain]

/-- Below each category stand the names of the components that are written. -/
theorem mem_namesUnder_category {c : Components} {options : Options} {members : List Member}
    (h : List.Forall₂ (IsCategory c options) Category.all members) (category : Category)
    (name : String) :
    name ∈ namesUnder category.name members ↔ Writes c options category name := by
  have hall (categories : List Category) (members : List Member)
      (h : List.Forall₂ (IsCategory c options) categories members) :
      name ∈ namesUnder category.name members ↔
        category ∈ categories ∧ Writes c options category name := by
    induction h with
    | nil => simp [namesUnder]
    | @cons first m rest others hfirst _ ih =>
      obtain ⟨items, rfl, hitems⟩ := hfirst
      have hsplit : namesUnder category.name
          (.plain first.name (if items.isEmpty then .never else .object items) :: others) =
          namesUnder category.name
            [.plain first.name (if items.isEmpty then .never else .object items)] ++
          namesUnder category.name others := by
        simp only [namesUnder, List.flatMap_cons, List.flatMap_nil, List.append_nil]
      have hsame : first.name = category.name ↔ category = first := by
        cases first <;> cases category <;> decide
      rw [hsplit, List.mem_append, namesUnder_plain, ih, List.mem_cons]
      by_cases heq : category = first
      · subst heq
        simp only [if_true, hitems name, true_or, true_and]
        constructor
        · rintro (h | ⟨-, h⟩) <;> exact h
        · exact .inl
      · rw [if_neg (fun h => heq (hsame.mp h))]
        simp [heq]
  rw [hall _ _ h]
  constructor
  · exact And.right
  · exact fun hwrites => ⟨by cases category <;> decide, hwrites⟩

/-- The type of a root, which has the members of an object type if it has any. -/
theorem typed_objectOrEmpty {members : List Member} (h : ∀ m ∈ members, MemberTyped w p m) :
    Typed w p (objectOrEmpty members) := by
  unfold objectOrEmpty
  split
  · exact .record_never
  · exact .object h

theorem members?_objectOrEmpty (members : List Member) :
    ((objectOrEmpty members).members?).getD [] = members := by
  cases members <;> rfl

theorem membersOf?_rootDecl (options : Options) (name root : String) (t : TypeExpr) :
    (rootDecl options name t).membersOf? root = if name = root then t.members? else none := by
  cases t <;> cases hexport : options.exportType <;>
    simp [rootDecl, hexport, Decl.membersOf?, TypeExpr.members?]

theorem uses_rootDecl (options : Options) (name : String) (t : TypeExpr) :
    (rootDecl options name t).uses = t.uses := by
  unfold rootDecl
  split
  · exact (TypeExpr.usesOfMembers_eq _).symm
  · rfl

theorem pathsType_ensures (hσ : HookFree σ) {paths : Option PathItems}
    (hpaths : Held w .pathItem paths) :
    Ensures w σ p (pathsType paths) fun q t => Typed w q t ∧
      (σ.options.pathParamsAsTypes = false → ∀ name, isEntry paths name →
        name ∈ memberNames (t.members?.getD [])) := by
  unfold pathsType
  apply Ensures.entries_bind
  intro listed hlisted
  apply (pathMembers_ensures hσ listed fun name x hmem => hpaths name x (hlisted.subset hmem)).bind
  intro q members _ hmembers
  apply Ensures.pure
  refine ⟨typed_objectOrEmpty hmembers.1, fun hoff name ⟨x, hx⟩ => ?_⟩
  rw [members?_objectOrEmpty]
  exact hmembers.2 hoff name x (hlisted.symm.subset hx)

theorem webhooksType_ensures (hσ : HookFree σ) {webhooks : Option PathItems}
    (hwebhooks : Held w .pathItem webhooks) :
    Ensures w σ p (webhooksType webhooks) fun q t => Typed w q t ∧
      ∀ name, isEntry webhooks name → name ∈ memberNames (t.members?.getD []) := by
  unfold webhooksType
  apply Ensures.entries_bind
  intro listed hlisted
  apply (webhookMembers_ensures hσ listed fun name x hmem =>
    hwebhooks name x (hlisted.subset hmem)).bind
  intro q members _ hmembers
  apply Ensures.pure
  refine ⟨typed_objectOrEmpty hmembers.1, fun name ⟨x, hx⟩ => ?_⟩
  rw [members?_objectOrEmpty]
  exact hmembers.2 name x (hlisted.symm.subset hx)

theorem definitionsType_ensures (hσ : HookFree σ) {defs : Option (OrderedMap (Option Schema))}
    (hdefs : Held w .schema defs) :
    Ensures w σ p (definitionsType defs) fun q t => Typed w q t ∧
      ∀ name, isEntry defs name → name ∈ memberNames (t.members?.getD []) := by
  unfold definitionsType
  apply Ensures.entries_bind
  intro listed hlisted
  have hmet : ∀ name s, (name, s) ∈ listed → Met w s := by
    rintro name s hmem x rfl
    exact hdefs name x (hlisted.subset hmem)
  apply (definitionsMembers_ensures hσ listed hmet).bind
  intro q members _ hmembers
  apply Ensures.pure
  refine ⟨typed_objectOrEmpty hmembers.1, fun name ⟨x, hx⟩ => ?_⟩
  rw [members?_objectOrEmpty]
  exact hmembers.2 name (some x) (hlisted.symm.subset hx)

/-- The type of the components, and an alias only for a component that is written. -/
theorem optionalComponentsType_ensures (hσ : HookFree σ) {components : Option Components}
    (hcomponents : ∀ o ∈ components.elim [] Components.objects, w.Reaches o) :
    Ensures w σ p (optionalComponentsType components) fun q found => Typed w q found.1 ∧
      (∀ d ∈ found.2, ∃ c, components = some c ∧ IsAlias (Writes c σ.options) d) ∧
      ∀ c, components = some c → ∀ category name,
        name ∈ namesUnder (Category.name category) (found.1.members?.getD []) ↔
          Writes c σ.options category name := by
  cases components with
  | none => exact .pure ⟨.record_never, nofun, nofun⟩
  | some c =>
    unfold optionalComponentsType componentsType
    apply (categoryMembers_ensures hσ hcomponents Category.all {} nofun).bind
    intro q found _ hfound
    obtain ⟨members, aliases⟩ := found
    obtain ⟨hmembers, hcategories, haliases⟩ := hfound
    apply Ensures.pure
    refine ⟨.object hmembers, fun d hd => ⟨c, rfl, haliases d hd⟩, ?_⟩
    rintro _ ⟨⟩ category name
    exact mem_namesUnder_category hcategories category name

/-- The declarations are complete for what their types use. -/
structure Complete (w : Source) (options : Options) (q : Progress) (decls : List Decl) : Prop where
  uses : ∀ d ∈ decls, ∀ u ∈ d.uses, Named w q u ∨ ∃ c category name,
    w.doc.components = some c ∧ Writes c options category name ∧
      u = ⟨"components", 0, [Category.name category, name]⟩
  paths : options.pathParamsAsTypes = false → ∀ name, isEntry w.doc.paths name →
    name ∈ memberNames (declaredMembers decls "paths")
  webhooks : ∀ name, isEntry w.doc.webhooks name →
    name ∈ memberNames (declaredMembers decls "webhooks")
  components : ∀ c, w.doc.components = some c → ∀ category name,
    name ∈ namesUnder (Category.name category) (declaredMembers decls "components") ↔
      Writes c options category name
  definitions : ∀ name, isEntry w.doc.defs name →
    name ∈ memberNames (declaredMembers decls "$defs")
  operations : ∀ id ∈ q.operations.keys, id ∈ memberNames (declaredMembers decls "operations")
  enums : ∀ d ∈ q.enums.decls, d ∈ decls
  helper : q.usesWithRequired = true → .raw withRequiredHelper ∈ decls

/-- What holds of the types of the roots. -/
structure RootsTyped (w : Source) (options : Options) (q : Progress) (roots : Roots) : Prop where
  pathsTyped : Typed w q roots.paths
  webhooksTyped : Typed w q roots.webhooks
  componentsTyped : Typed w q roots.components
  definitionsTyped : Typed w q roots.definitions
  aliases : ∀ d ∈ roots.aliases, ∃ c, w.doc.components = some c ∧ IsAlias (Writes c options) d
  paths : options.pathParamsAsTypes = false → ∀ name, isEntry w.doc.paths name →
    name ∈ memberNames (roots.paths.members?.getD [])
  webhooks : ∀ name, isEntry w.doc.webhooks name →
    name ∈ memberNames (roots.webhooks.members?.getD [])
  components : ∀ c, w.doc.components = some c → ∀ category name,
    name ∈ namesUnder (Category.name category) (roots.components.members?.getD []) ↔
      Writes c options category name
  definitions : ∀ name, isEntry w.doc.defs name →
    name ∈ memberNames (roots.definitions.members?.getD [])

theorem documentRoots_ensures (hσ : HookFree σ) :
    Ensures w σ p (documentRoots w.doc) (RootsTyped w σ.options) := by
  have hobjects (o : Object) (h : o ∈ w.doc.objects) : w.Reaches o := .root h
  simp only [Document.objects, List.mem_append] at hobjects
  unfold documentRoots
  apply (pathsType_ensures hσ (.of_objects fun o ho => hobjects o (by simp [ho]))).bind
  intro q paths _ hpaths
  apply (webhooksType_ensures hσ (.of_objects fun o ho => hobjects o (by simp [ho]))).bind
  intro r webhooks hqr hwebhooks
  apply (optionalComponentsType_ensures hσ fun o ho => hobjects o (by simp [ho])).bind
  intro r₁ found hrr₁ hfound
  obtain ⟨components, aliases⟩ := found
  apply (definitionsType_ensures hσ (.of_objects fun o ho => hobjects o (by simp [ho]))).bind
  intro r₂ definitions hlast hdefinitions
  have hlater := hrr₁.trans hlast
  exact .pure
    { pathsTyped := hpaths.1.mono (hqr.trans hlater).toGrows
      webhooksTyped := hwebhooks.1.mono hlater.toGrows
      componentsTyped := hfound.1.mono hlast.toGrows
      definitionsTyped := hdefinitions.1
      aliases := hfound.2.1
      paths := hpaths.2
      webhooks := hwebhooks.2
      components := hfound.2.2
      definitions := hdefinitions.2 }

theorem typed_operationsType (options : Options) (hp : Valid w p) :
    Typed w p (operationsType options p.operations) := by
  apply typed_objectOrEmpty
  intro m hm
  obtain ⟨e, he, rfl⟩ := List.mem_map.mp hm
  obtain ⟨⟨key, e'⟩, hentry, rfl⟩ := List.mem_map.mp he
  exact Member.UsesOnly.property (hp.operations key e' hentry).2

theorem mem_names_operationsType (options : Options) (hp : Valid w p) {id : String}
    (hid : id ∈ p.operations.keys) :
    id ∈ memberNames ((operationsType options p.operations).members?.getD []) := by
  unfold operationsType
  rw [members?_objectOrEmpty]
  rw [OrderedMap.keys_eq] at hid
  obtain ⟨⟨key, e⟩, hentry, rfl⟩ := List.mem_map.mp hid
  refine List.mem_filterMap.mpr
    ⟨.property e.id false options.immutable e.type e.doc, List.mem_map.mpr ⟨e, ?_, rfl⟩, ?_⟩
  · exact List.mem_map.mpr ⟨(key, e), hentry, rfl⟩
  · exact congrArg some (hp.operations key e hentry).1

/-- Text that is taken over declares no members and uses no names. -/
theorem mem_rawDecls {text : String} {d : Decl} (h : d ∈ rawDecls text) : ∃ t, d = .raw t := by
  unfold rawDecls at h
  split at h
  · cases h
  · exact ⟨text, List.mem_singleton.mp h⟩

/-- What follows the roots is an alias, an enum or text. -/
theorem mem_furtherDecls {options : Options} {aliases : List Decl} (hp : Valid w p) {d : Decl}
    (h : d ∈ furtherDecls w.doc options aliases p) :
    d ∈ aliases ∨ (∃ name members doc, d = .enum name members true doc) ∨ ∃ t, d = .raw t := by
  simp only [furtherDecls, List.mem_append] at h
  rcases h with (((h | h) | h) | h) | h
  · exact .inl h
  · exact .inr (.inl (hp.enums d h))
  · split at h
    · exact .inr (.inr ⟨_, List.mem_singleton.mp h⟩)
    · cases h
  · exact .inr (.inr (mem_rawDecls h))
  · split at h
    · exact .inr (.inl ⟨_, _, _, List.mem_singleton.mp h⟩)
    · cases h

/-- Only the roots declare members: the members of one are those of its type. -/
theorem declaredMembers_eq {options : Options} {roots : Roots} (hp : Valid w p)
    (hroots : RootsTyped w options p roots) (root : String) :
    declaredMembers (rawDecls options.inject ++ rootDecls options roots p.operations ++
      furtherDecls w.doc options roots.aliases p) root =
      ((rootDecls options roots p.operations).findSome? (Decl.membersOf? root)).getD [] := by
  have hraw : (rawDecls options.inject).findSome? (Decl.membersOf? root) = none := by
    apply List.findSome?_eq_none_iff.mpr
    intro d hd
    obtain ⟨t, rfl⟩ := mem_rawDecls hd
    rfl
  have hfurther :
      (furtherDecls w.doc options roots.aliases p).findSome? (Decl.membersOf? root) = none := by
    apply List.findSome?_eq_none_iff.mpr
    intro d hd
    rcases mem_furtherDecls hp hd with halias | ⟨name, members, doc, rfl⟩ | ⟨t, rfl⟩
    · obtain ⟨c, -, chosen, category, name, -, rfl⟩ := hroots.aliases d halias
      exact ite_self none
    · rfl
    · rfl
  unfold declaredMembers
  rw [List.findSome?_append, List.findSome?_append, hraw, hfurther]
  simp

theorem findSome?_absent (options : Options) (root : String) (types : List (String × TypeExpr))
    (h : root ∉ types.map (·.1)) :
    (types.map fun (name, t) => rootDecl options name t).findSome? (Decl.membersOf? root) =
      none := by
  apply List.findSome?_eq_none_iff.mpr
  intro d hd
  obtain ⟨⟨name, t⟩, hmem, rfl⟩ := List.mem_map.mp hd
  rw [membersOf?_rootDecl, if_neg]
  rintro rfl
  exact h (List.mem_map.mpr ⟨(name, t), hmem, rfl⟩)

/-- Among roots with different names, each has the members of its own type. -/
theorem findSome?_rootDecl (options : Options) {root : String} {t : TypeExpr}
    (types : List (String × TypeExpr)) (hnodup : (types.map (·.1)).Nodup)
    (h : (root, t) ∈ types) :
    (types.map fun (name, t) => rootDecl options name t).findSome? (Decl.membersOf? root) =
      t.members? := by
  induction types with
  | nil => cases h
  | cons first rest ih =>
    obtain ⟨name, t'⟩ := first
    obtain ⟨hfresh, hrest⟩ := List.nodup_cons.mp hnodup
    rw [List.map_cons, List.findSome?_cons, membersOf?_rootDecl]
    rcases List.mem_cons.mp h with heq | hmem
    · cases heq
      rw [if_pos rfl]
      cases t.members? with
      | some members => rfl
      | none => exact findSome?_absent options root rest hfresh
    · have hne : name ≠ root := by
        rintro rfl
        exact hfresh (List.mem_map.mpr ⟨(name, t), hmem, rfl⟩)
      rw [if_neg hne]
      exact ih hrest hmem

/-- The names and types of the roots. -/
def rootTypes (options : Options) (roots : Roots) (operations : OperationRegistry) :
    List (String × TypeExpr) :=
  [("paths", roots.paths), ("webhooks", roots.webhooks), ("components", roots.components),
    ("$defs", roots.definitions), ("operations", operationsType options operations)]

/-- A root is declared with the members of its type. -/
theorem declaredMembers_root {options : Options} {roots : Roots} (hp : Valid w p)
    (hroots : RootsTyped w options p roots) {root : String} {t : TypeExpr}
    (h : (root, t) ∈ rootTypes options roots p.operations) :
    declaredMembers (rawDecls options.inject ++ rootDecls options roots p.operations ++
      furtherDecls w.doc options roots.aliases p) root = t.members?.getD [] := by
  have hnodup : ((rootTypes options roots p.operations).map (·.1)).Nodup := by
    change ["paths", "webhooks", "components", "$defs", "operations"].Nodup
    decide
  rw [declaredMembers_eq hp hroots]
  exact congrArg (·.getD []) (findSome?_rootDecl options _ hnodup h)

/-- The declarations for a document are complete for what their types use. -/
theorem documentDecls_ensures (hσ : HookFree σ) :
    Ensures w σ p (documentDecls w.doc) (Complete w σ.options) := by
  unfold documentDecls
  apply Ensures.options_bind
  apply (documentRoots_ensures hσ).bind
  intro q roots _ hroots
  apply Ensures.get_bind
  apply Ensures.of_valid
  intro hq
  apply Ensures.pure
  have htyped : ∀ entry ∈ rootTypes σ.options roots q.operations, Typed w q entry.2 := by
    intro entry hentry
    simp only [rootTypes, List.mem_cons, List.not_mem_nil, or_false] at hentry
    rcases hentry with rfl | rfl | rfl | rfl | rfl
    · exact hroots.pathsTyped
    · exact hroots.webhooksTyped
    · exact hroots.componentsTyped
    · exact hroots.definitionsTyped
    · exact typed_operationsType σ.options hq
  constructor
  case uses =>
    intro d hd u hu
    rcases List.mem_append.mp hd with hfirst | hfurther
    · rcases List.mem_append.mp hfirst with hraw | hroot
      · obtain ⟨t, rfl⟩ := mem_rawDecls hraw
        cases hu
      · change d ∈ (rootTypes σ.options roots q.operations).map fun (name, t) =>
          rootDecl σ.options name t at hroot
        obtain ⟨entry, hentry, rfl⟩ := List.mem_map.mp hroot
        rw [uses_rootDecl] at hu
        exact .inl (htyped entry hentry u hu)
    · rcases mem_furtherDecls hq hfurther with halias | ⟨name, members, doc, rfl⟩ | ⟨t, rfl⟩
      · obtain ⟨c, hc, chosen, category, name, hwrites, rfl⟩ := hroots.aliases d halias
        rw [List.mem_singleton.mp hu]
        exact .inr ⟨c, category, name, hc, hwrites, rfl⟩
      · cases hu
      · cases hu
  case paths =>
    rw [declaredMembers_root hq hroots (t := roots.paths) (by simp [rootTypes])]
    exact hroots.paths
  case webhooks =>
    rw [declaredMembers_root hq hroots (t := roots.webhooks) (by simp [rootTypes])]
    exact hroots.webhooks
  case components =>
    rw [declaredMembers_root hq hroots (t := roots.components) (by simp [rootTypes])]
    exact hroots.components
  case definitions =>
    rw [declaredMembers_root hq hroots (t := roots.definitions) (by simp [rootTypes])]
    exact hroots.definitions
  case operations =>
    rw [declaredMembers_root hq hroots (t := operationsType σ.options q.operations)
      (by simp [rootTypes])]
    exact fun id hid => mem_names_operationsType σ.options hq hid
  case enums =>
    intro d hd
    apply List.mem_append_right
    simp only [furtherDecls, List.mem_append]
    exact .inl (.inl (.inl (.inr hd)))
  case helper =>
    intro huses
    apply List.mem_append_right
    simp [furtherDecls, huses]

/-- Before any type is made the state is valid. -/
theorem valid_startOf (doc : Document) (request : Request) :
    Valid ⟨doc, request.external⟩ (startOf doc request) where
  knows := (Discriminators.scan_kept ⟨doc, request.external⟩ _
    (Source.knows_ofDocument ⟨doc, request.external⟩)).1
  places := nofun
  enums := nofun
  operations := nofun

/-- A document without hooks gives complete declarations, or fails for a cause. -/
theorem generate_outcome (doc : Document) (options : Options)
    (external : Option ExternalResolver) :
    match generate doc { options, external } with
    | .ok output => ∃ q, Complete ⟨doc, external⟩ options q output.decls
    | .error (.typing e) => Cause ⟨doc, external⟩ options e
    | .error (.version e) => doc.checkVersion = .error e := by
  have hrun := (@documentDecls_ensures ⟨doc, external⟩ (settingOf doc { options, external })
    (startOf doc { options, external }) ⟨rfl, rfl⟩).outcome
    (valid_startOf doc { options, external })
  rw [generate_eq]
  cases hversion : doc.checkVersion with
  | error e => rfl
  | ok _ =>
    dsimp only
    cases hexec : exec (documentDecls doc) (settingOf doc { options, external })
        (startOf doc { options, external }) with
    | mk result q =>
      rw [hexec] at hrun
      cases result with
      | error e => exact hrun
      | ok decls => exact ⟨q, hrun.2.2⟩

theorem complete_of_generate {doc : Document} {options : Options}
    {external : Option ExternalResolver} {output : Output}
    (hrun : generate doc { options, external } = .ok output) :
    ∃ q, Complete ⟨doc, external⟩ options q output.decls := by
  have houtcome := generate_outcome doc options external
  rw [hrun] at houtcome
  exact houtcome

theorem cause_of_generate {doc : Document} {options : Options}
    {external : Option ExternalResolver} {e : TypingError}
    (hrun : generate doc { options, external } = .error (.typing e)) :
    Cause ⟨doc, external⟩ options e := by
  have houtcome := generate_outcome doc options external
  rw [hrun] at houtcome
  exact houtcome

theorem version_of_generate {doc : Document} {options : Options}
    {external : Option ExternalResolver} {e : DocumentError}
    (hrun : generate doc { options, external } = .error (.version e)) :
    doc.checkVersion = .error e := by
  have houtcome := generate_outcome doc options external
  rw [hrun] at houtcome
  exact houtcome

end Typing

end ApiTypes
