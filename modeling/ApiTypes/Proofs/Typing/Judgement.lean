import ApiTypes.Proofs.Typing.Run
import ApiTypes.Proofs.WellFormed

/-!
One walk over the rules that make types, for whatever is to be shown of them. A judgement says
something on an action and on the results that it gives. It is given by what it says on the basic
actions and by how it goes from actions to those that are put together from them. The walk then
gives what it says on the types of schemas and of all that holds schemas, and, if it is kept by the
declaration of operations too, on the types of a whole document.

The types that are made are put together from types that a judgement takes to be good. Nothing but
the reports of dangling references and of ids in use looks at the modes of a run, and nothing looks
at whether the helper that makes keys required is used until everything has been typed.
-/

namespace ApiTypes

/-- The options that say whether a problem is reported or ends the run. -/
structure Modes where
  silent : Bool
  strictOperationIds : Bool

def Options.inModes (o : Options) (m : Modes) : Options :=
  { o with silent := m.silent, strictOperationIds := m.strictOperationIds }

def Setting.inModes (σ : Setting) (m : Modes) : Setting :=
  { σ with options := σ.options.inModes m }

namespace Typing

/-- What is said on actions and their results. -/
structure Judgement where
  /-- The types that actions are to give. -/
  Good : TypeExpr → Prop
  closed : TypeExpr.Closed Good
  Holds : {α : Type} → Typing α → (α → Prop) → Prop
  pure : ∀ {α : Type} {x : α} {post : α → Prop}, post x → Holds (Pure.pure x) post
  throw : ∀ {α : Type} (e : TypingError) (post : α → Prop), Holds (MonadExcept.throw e) post
  bind : ∀ {α β : Type} {act : Typing α} {next : α → Typing β} {mid : α → Prop}
    {post : β → Prop}, Holds act mid → (∀ x, mid x → Holds (next x) post) →
      Holds (act >>= next) post
  options_bind : ∀ {β : Type} {next : Options → Typing β} {post : β → Prop},
    (∀ (o : Options) m m', next (o.inModes m) = next (o.inModes m')) → (∀ o, Holds (next o) post) →
      Holds (options >>= next) post
  read_bind : ∀ {β : Type} {next : Setting → Typing β} {post : β → Prop},
    (∀ (σ : Setting) m m', next (σ.inModes m) = next (σ.inModes m')) → (∀ σ, Holds (next σ) post) →
      Holds (read >>= next) post
  /-- What is known of all states. -/
  Known : Progress → Prop
  get_bind : ∀ {β : Type} {next : Progress → Typing β} {post : β → Prop},
    (∀ p uses, next { p with usesWithRequired := uses } = next p) →
      (∀ p, Known p → Holds (next p) post) → Holds (get >>= next) post
  hoisting : ∀ {p : Progress}, Known p → ∀ place s,
    Holds (modify fun q => { q with enums := (p.enums.hoist place s).2 }) fun _ => True
  requiring : Holds (modify fun q => { q with usesWithRequired := true }) fun _ => True
  resolving : ∀ {α : Type} {act : Resolver.Resolving α}, Resolver.IndexKept act →
    Holds (resolving act) fun _ => True
  inliningRef : ∀ {α : Type} {key : String} {act : Typing α} {post : α → Prop}, Holds act post →
    Holds (inliningRef key act) post
  warn : ∀ {kind : WarningKind}, kind ∈ [.refCycle, .schemaShape] →
    ∀ place message, Holds (warn kind place message) fun _ => True
  /-- Whether something is said on actions that give aliases their names. -/
  Naming : Prop
  nameCollision : Naming → ∀ place message,
    Holds (Typing.warn .nameCollision place message) fun _ => True
  unresolved : ∀ ref place, Holds (unresolved ref place) Good
  schemaHook : ∀ s place, Holds (schemaHook? s place) fun taken => ∀ t ∈ taken, Good t.1
  typeHook : ∀ t s place,
    Holds (typeHook? t s place) fun result => ∀ r ∈ result, ∀ t ∈ r.type, Good t

variable {α β : Type} {J : Judgement}

namespace Judgement

theorem weaken {act : Typing α} {mid post : α → Prop} (hact : J.Holds act mid)
    (h : ∀ x, mid x → post x) : J.Holds act post := by
  rw [← bind_pure act]
  exact J.bind hact fun x hx => J.pure (h x hx)

theorem map {act : Typing α} {f : α → β} {mid : α → Prop} {post : β → Prop}
    (hact : J.Holds act mid) (h : ∀ x, mid x → post (f x)) : J.Holds (f <$> act) post := by
  rw [← bind_pure_comp]
  exact J.bind hact fun x hx => J.pure (h x hx)

theorem entries (m : Option (OrderedMap α)) : J.Holds (entries m) fun _ => True := by
  refine J.options_bind (fun _ _ _ => rfl) fun o => ?_
  split
  · exact J.pure trivial
  · exact J.pure trivial

theorem ofExcept {x : Except TypingError α} {post : α → Prop} (h : ∀ y, x = .ok y → post y) :
    J.Holds (ofExcept x) post := by
  cases x with
  | ok y => exact J.pure (h y rfl)
  | error e => exact J.throw e post

theorem find? [Referable α] (ref : String) : J.Holds (find? α ref) fun _ => True :=
  J.resolving (.find? ref)

theorem mapM {f : α → Typing β} {post : β → Prop} {list : List α}
    (hf : ∀ x ∈ list, J.Holds (f x) post) :
    J.Holds (list.mapM f) fun ys => ∀ y ∈ ys, post y := by
  induction list with
  | nil =>
    rw [List.mapM_nil]
    exact J.pure nofun
  | cons x rest ih =>
    rw [List.mapM_cons]
    refine J.bind (hf x List.mem_cons_self) fun y hy => ?_
    refine J.bind (ih fun z hz => hf z (List.mem_cons_of_mem x hz)) fun ys hys => ?_
    exact J.pure (List.forall_mem_cons.mpr ⟨hy, hys⟩)

theorem filterMapM {f : α → Typing (Option β)} {post : β → Prop}
    (hf : ∀ x, J.Holds (f x) fun y => ∀ z ∈ y, post z) (list : List α) :
    J.Holds (list.filterMapM f) fun ys => ∀ y ∈ ys, post y := by
  induction list with
  | nil =>
    rw [List.filterMapM_nil]
    exact J.pure nofun
  | cons x rest ih =>
    rw [List.filterMapM_cons]
    refine J.bind (hf x) fun y hy => ?_
    cases y with
    | none => exact ih
    | some y =>
      exact J.bind ih fun ys hys => J.pure (List.forall_mem_cons.mpr ⟨hy y rfl, hys⟩)

end Judgement

theorem refType_holds [Referable α] {inline : α → String → Typing TypeExpr}
    (hinline : ∀ target place, J.Holds (inline target place) J.Good) (ref place : String) :
    J.Holds (refType inline ref place) J.Good := by
  unfold refType
  split
  · refine J.get_bind (fun _ _ => rfl) fun p hp => ?_
    split
    · exact J.pure (J.closed.toType ref)
    · exact J.unresolved ref place
  · refine J.get_bind (fun _ _ => rfl) fun p hp => ?_
    split
    · exact J.bind (J.warn (by decide) _ _) fun _ _ => J.pure (J.closed.keyword _)
    · refine J.bind (Judgement.find? ref) fun found _ => ?_
      cases found with
      | none => exact J.unresolved ref place
      | some target => exact J.inliningRef (hinline target _)

/-! The rules for schemas, given the schemas below. -/

theorem enumType_holds (s : Schema) (place : String) :
    J.Holds (enumType s place) J.Good := by
  refine J.options_bind (fun _ _ _ => rfl) fun o => ?_
  dsimp only
  split
  · refine J.get_bind (fun _ _ => rfl) fun p hp => ?_
    have hhoisting := J.hoisting hp place s
    rcases hhoist : p.enums.hoist place s with ⟨name, enums⟩
    rw [hhoist] at hhoisting
    refine J.bind hhoisting fun _ _ => J.pure ?_
    have hname : J.Good (.named name) := J.closed.ref _ [] nofun
    split
    · exact J.closed.joinable.withNull hname
    · exact hname
  · refine J.pure (J.closed.joinable.values ?_ _)
    intro t ht
    obtain ⟨v, -, rfl⟩ := List.mem_map.mp ht
    exact J.closed.ofValue v

theorem isAlternative_holds (name : String) (alternatives : List (Option Schema)) :
    J.Holds (isAlternative name alternatives) fun _ => True := by
  induction alternatives with
  | nil => exact J.pure trivial
  | cons first rest ih =>
    cases first with
    | none => exact J.throw _ _
    | some member =>
      rw [isAlternative]
      split
      · exact J.pure trivial
      · exact ih

theorem isDeprecated_holds (s : Schema) : J.Holds (isDeprecated s) fun _ => True := by
  unfold isDeprecated
  split
  · exact J.bind (Judgement.find? _) fun _ _ => J.pure trivial
  · exact J.pure trivial

theorem isDropped_holds (tag name : String) (property : Schema) :
    J.Holds (isDropped tag name property) fun _ => True := by
  unfold isDropped
  refine J.options_bind (fun _ _ _ => rfl) fun o => ?_
  split
  · exact isDeprecated_holds property
  · exact J.pure trivial

theorem partTag_holds (part : Schema) : J.Holds (partTag part) fun _ => True := by
  unfold partTag
  split
  · refine J.bind (J.resolving (.target _)) fun target _ => ?_
    exact J.read_bind (fun _ _ _ => rfl) fun _ => J.pure trivial
  · exact J.pure trivial

theorem withRequired_holds {t : TypeExpr} (ht : J.Good t) (keys : List String) :
    J.Holds (withRequired t keys) J.Good := by
  refine J.bind J.requiring fun _ _ => J.pure ?_
  exact J.closed.ref _ _ (by simp [ht, J.closed.ofTexts])

theorem good_orUndefined {t : TypeExpr × Bool} (ht : J.Good t.1) : J.Good (orUndefined t) := by
  unfold orUndefined
  split
  · exact J.closed.unionOf _ (by simp [ht, TypeExpr.undefined, J.closed.keyword])
  · exact ht

theorem good_objectWith? {members : List Member} {index t : Option TypeExpr}
    (hmembers : ∀ m ∈ members, m.All J.Good) (hindex : ∀ t ∈ index, J.Good t)
    (h : objectWith? members index = t) : ∀ u ∈ t, J.Good u := by
  subst h
  have hobject := J.closed.object members hmembers
  unfold objectWith?
  split
  · exact hindex
  · rintro _ ⟨⟩
    exact hobject
  · rintro _ ⟨⟩
    exact J.closed.intersectionOf _ (by simpa [hobject] using hindex)

section Schemas

variable {body : SchemaBody} (hbody : ∀ s place, J.Holds (body s place) J.Good)

include hbody

theorem hookedType_holds (s : Option Schema) (place : String) :
    J.Holds (hookedType body s place) fun t => J.Good t.1 := by
  refine J.bind (J.schemaHook s place) fun taken htaken => ?_
  extract_lets finish
  have hfinish (t : TypeExpr × Bool) (ht : J.Good t.1) :
      J.Holds (finish t) fun t => J.Good t.1 := by
    refine J.bind (J.typeHook t.1 s place) fun result hresult => ?_
    split
    · exact J.pure (hresult _ rfl _ rfl)
    · exact J.pure ht
  cases taken with
  | some taken => exact hfinish taken (htaken taken rfl)
  | none => exact J.bind (hbody s place) fun t ht => hfinish (t, false) ht

theorem typeWith_holds (s : Option Schema) (place : String) :
    J.Holds (typeWith body s place) J.Good :=
  Judgement.map (hookedType_holds hbody s place) fun _ ht => good_orUndefined ht

theorem unfinishedWith_holds (s : Option Schema) (place : String) :
    J.Holds (unfinishedWith body s place) J.Good := by
  refine J.bind (J.schemaHook s place) fun taken htaken => ?_
  cases taken with
  | some taken => exact J.pure (good_orUndefined (htaken taken rfl))
  | none => exact hbody s place

theorem typeListMembers_holds (s : Schema) (place : String) (names : List String) :
    J.Holds (typeListMembers body s place names) fun types => ∀ t ∈ types, J.Good t := by
  induction names with
  | nil => exact J.pure nofun
  | cons name rest ih =>
    have hleft : J.Holds (isLeftToAlternatives s name) fun _ => True := by
      unfold isLeftToAlternatives
      split
      · exact isAlternative_holds name _
      · exact J.pure trivial
    have hsingled : J.Holds (singledType body s place name) J.Good := by
      unfold singledType
      split
      · exact J.pure (J.closed.keyword _)
      · exact unfinishedWith_holds hbody _ _
    rw [typeListMembers]
    refine J.bind hleft fun left _ => ?_
    split
    · exact ih
    · refine J.bind hsingled fun t ht => J.bind ih fun types htypes => J.pure ?_
      exact List.forall_mem_cons.mpr ⟨ht, htypes⟩

theorem typesAt_holds (place : String) (list : List (Option Schema × Nat)) :
    J.Holds (typesAt body place list) fun types => ∀ t ∈ types, J.Good t := by
  induction list with
  | nil => exact J.pure nofun
  | cons entry rest ih =>
    refine J.bind (typeWith_holds hbody _ _) fun t ht => J.bind ih fun types htypes => J.pure ?_
    exact List.forall_mem_cons.mpr ⟨ht, htypes⟩

theorem itemType_holds (s : Schema) (place : String) :
    J.Holds (itemType body s place) J.Good := by
  unfold itemType
  dsimp only
  split
  · exact Judgement.map (typesAt_holds hbody _ _) J.closed.tuple
  · exact Judgement.map (typesAt_holds hbody _ _) J.closed.tuple
  · exact typeWith_holds hbody _ _
  · exact J.bind (J.warn (by decide) _ _) fun _ _ => J.pure (J.closed.keyword _)

theorem propertyMembers_holds (s : Schema) (place tag : String)
    (list : List (String × Option Schema)) :
    J.Holds (propertyMembers body s place tag list) fun ms => ∀ m ∈ ms, m.All J.Good := by
  induction list with
  | nil => exact J.pure nofun
  | cons entry rest ih =>
    obtain ⟨name, property⟩ := entry
    cases property with
    | none => exact ih
    | some property =>
      rw [propertyMembers]
      refine J.bind (isDropped_holds tag name property) fun dropped _ => ?_
      split
      · exact ih
      · refine J.options_bind (fun _ _ _ => rfl) fun o => ?_
        refine J.bind (hookedType_holds hbody _ _) fun t ht => ?_
        refine J.bind ih fun members hmembers => J.pure ?_
        exact List.forall_mem_cons.mpr ⟨.property ht, hmembers⟩

theorem definitionMembers_holds (place : String) (list : List (String × Option Schema)) :
    J.Holds (definitionMembers body place list) fun ms => ∀ m ∈ ms, m.All J.Good := by
  induction list with
  | nil => exact J.pure nofun
  | cons entry rest ih =>
    refine J.bind (typeWith_holds hbody _ _) fun t ht => ?_
    refine J.options_bind (fun _ _ _ => rfl) fun o => ?_
    refine J.bind ih fun members hmembers => J.pure ?_
    exact List.forall_mem_cons.mpr ⟨.property ht, hmembers⟩

theorem indexType?_holds (s : Schema) (place : String) :
    J.Holds (indexType? body s place) fun index => ∀ t ∈ index, J.Good t := by
  unfold indexType?
  split
  · split
    · exact J.pure nofun
    · refine Judgement.map (typeWith_holds hbody _ _) fun t ht => ?_
      rintro _ ⟨⟩
      exact ht
  · refine J.options_bind (fun _ _ _ => rfl) fun o => J.pure ?_
    split
    · rintro _ ⟨⟩
      exact J.closed.keyword _
    · nofun

theorem objectType?_holds (s : Schema) (place : String) :
    J.Holds (objectType? body s place) fun found => ∀ t ∈ found, J.Good t := by
  refine J.options_bind (fun _ _ _ => rfl) fun o => ?_
  refine J.read_bind (fun _ _ _ => rfl) fun σ => ?_
  refine J.bind (Judgement.entries _) fun listed _ => ?_
  refine J.bind (propertyMembers_holds hbody s place _ listed) fun properties hproperties => ?_
  refine J.bind (Judgement.entries _) fun defined _ => ?_
  refine J.bind (definitionMembers_holds hbody place defined) fun definitions hdefinitions => ?_
  refine J.bind (indexType?_holds hbody s place) fun index hindex => J.pure ?_
  refine good_objectWith? (fun m hm => ?_) (fun t ht => ?_) rfl
  · rcases List.mem_append.mp hm with hlisted | hdefs
    · rcases List.mem_append.mp hlisted with htag | hproperty
      · obtain ⟨v, -, rfl⟩ := List.mem_map.mp htag
        exact .property (J.closed.ofTexts _)
      · exact hproperties m hproperty
    · split at hdefs
      · cases hdefs
      · rw [List.mem_singleton.mp hdefs]
        exact .property (J.closed.object _ hdefinitions)
  · obtain ⟨value, hvalue, rfl⟩ := Option.map_eq_some_iff.mp ht
    refine J.closed.object _ fun m hm => ?_
    rw [List.mem_singleton.mp hm]
    exact .indexSignature (J.closed.keyword _) (hindex value hvalue)

theorem coreType?_holds (s : Schema) (place : String) :
    J.Holds (coreType? body s place) fun found => ∀ t ∈ found, J.Good t := by
  have hkeyword (name : String) : ∀ t ∈ some (TypeExpr.keyword name), J.Good t := by
    rintro _ ⟨⟩
    exact J.closed.keyword name
  unfold coreType?
  split
  · exact objectType?_holds hbody s place
  · exact objectType?_holds hbody s place
  · exact J.pure (hkeyword _)
  · exact J.pure (hkeyword _)
  · exact J.pure (hkeyword _)
  · exact J.pure (hkeyword _)
  · exact J.pure (hkeyword _)
  · refine J.bind (itemType_holds hbody s place) fun item hitem => ?_
    refine J.options_bind (fun _ _ _ => rfl) fun o => ?_
    refine Judgement.map (Judgement.ofExcept fun _ h => J.closed.arrayType hitem h) fun t ht => ?_
    rintro _ ⟨⟩
    exact ht
  · exact J.bind (J.warn (by decide) _ _) fun _ _ => J.pure (hkeyword _)
  · refine J.bind (typeListMembers_holds hbody s place _) fun types htypes => J.pure ?_
    rintro _ ⟨⟩
    exact J.closed.unionOf _ htypes

theorem partType_holds (s part : Schema) (place : String) :
    J.Holds (partType body s part place) J.Good := by
  unfold partType
  split
  · refine J.bind (typeWith_holds hbody _ _) fun t ht => ?_
    refine J.bind (Judgement.find? _) fun target _ => ?_
    extract_lets missing
    split
    · exact J.pure ht
    · exact withRequired_holds ht _
  · exact typeWith_holds hbody _ _

theorem partTypes_holds (s : Schema) (place : String) (list : List (Option Schema × Nat)) :
    J.Holds (partTypes body s place list) fun parts => ∀ part ∈ parts, J.Good part.type := by
  induction list with
  | nil => exact J.pure nofun
  | cons entry rest ih =>
    obtain ⟨part, i⟩ := entry
    cases part with
    | none => exact ih
    | some part =>
      rw [partTypes]
      refine J.bind (partType_holds hbody s part _) fun t ht => ?_
      refine J.bind (partTag_holds part) fun tag _ => ?_
      refine J.bind ih fun parts hparts => J.pure ?_
      exact List.forall_mem_cons.mpr ⟨ht, hparts⟩

theorem composedType_holds (s : Schema) (place : String) :
    J.Holds (composedType body s place) J.Good := by
  have hjoin := J.closed.joinable
  have hcomposition : J.Holds (composition body s place) fun c => ∀ t ∈ c.types, J.Good t := by
    refine J.bind (coreType?_holds hbody s place) fun core hcore => ?_
    refine J.bind (partTypes_holds hbody s place _) fun parts hparts => ?_
    exact J.pure (hjoin.types hcore hparts)
  refine J.bind hcomposition fun c hc => ?_
  refine J.bind (typesAt_holds hbody _ _) fun anyOf hanyOf => ?_
  refine J.bind (typesAt_holds hbody _ _) fun oneOf honeOf => ?_
  refine J.options_bind (fun _ _ _ => rfl) fun o => J.pure ?_
  have hall := hjoin.composed (hjoin.whole hc) hanyOf honeOf o s
  split
  · exact hjoin.withNull hall
  · exact hall

theorem bodyStep_holds (s : Option Schema) (place : String) :
    J.Holds (bodyStep body s place) J.Good := by
  cases s with
  | none => exact J.pure (J.closed.keyword _)
  | some s =>
    dsimp only [bodyStep]
    split
    · rename_i b _
      cases b <;> exact J.pure (J.closed.keyword _)
    · split
      · exact refType_holds (fun target => typeWith_holds hbody (some target)) _ _
      · split
        · exact enumType_holds s place
        · split
          · exact J.pure (J.closed.ofValue _)
          · exact composedType_holds hbody s place

end Schemas

theorem schemaBody_holds (steps : Nat) (s : Option Schema) (place : String) :
    J.Holds (schemaBody steps s place) J.Good := by
  induction steps generalizing s place with
  | zero => exact J.throw _ _
  | succ steps ih => exact bodyStep_holds ih s place

theorem schemaType_holds (s : Option Schema) (place : String) :
    J.Holds (schemaType s place) J.Good :=
  J.get_bind (fun _ _ => rfl) fun _ _ => typeWith_holds (schemaBody_holds _) s place

theorem unfinishedType_holds (s : Option Schema) (place : String) :
    J.Holds (unfinishedType s place) J.Good :=
  J.get_bind (fun _ _ => rfl) fun _ _ => unfinishedWith_holds (schemaBody_holds _) s place

end Typing

end ApiTypes
