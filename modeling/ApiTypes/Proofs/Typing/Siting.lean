import ApiTypes.Proofs.Standing

/-!
Two runs of one action, at two places or beside two sets of hooks. What is collected on the way may
differ in the warnings, which name places, and failures may name different ones as well; apart from
these both runs do the same as long as nothing reads the places or the hooks.

What does read them is said of the schemas that are met: where they stand in both runs. The walk
over the rules for schemas then goes from each of them to those below it.
-/

namespace ApiTypes

namespace Typing

variable {α β : Type} {σ σ' : Setting}

/-- States that agree but for the warnings. -/
def Level (p p' : Progress) : Prop := ∃ warnings, p' = { p with warnings }

/-- Both runs fail, or both give the same and leave states that agree. -/
inductive Tied : Except TypingError α × Progress → Except TypingError α × Progress → Prop where
  | ok {x : α} {q q' : Progress} : Level q q' → Tied (.ok x, q) (.ok x, q')
  | error (e e' : TypingError) (q q' : Progress) : Tied (.error e, q) (.error e', q')

theorem Tied.toOption_eq {run run' : Except TypingError α × Progress} (h : Tied run run') :
    run.1.toOption = run'.1.toOption := by
  cases h with
  | ok _ => rfl
  | error e e' q q' => rfl

/-- From states that agree, the actions end alike, each in its setting. -/
structure Matches (σ σ' : Setting) (act act' : Typing α) : Prop where
  tied : ∀ p p', Level p p' → Tied (exec act σ p) (exec act' σ' p')

namespace Matches

variable {act act' : Typing α} {next next' : α → Typing β}

theorem pure (x : α) : Matches σ σ' (Pure.pure x) (Pure.pure x) := ⟨fun _ _ hp => .ok hp⟩

theorem throw (e e' : TypingError) :
    Matches σ σ' (MonadExcept.throw e : Typing α) (MonadExcept.throw e') :=
  ⟨fun p p' _ => .error e e' p p'⟩

/-- Steps in turn, with what is known of the results of the first. -/
theorem bind_gives {mid : α → Prop} (hact : Matches σ σ' act act') (hgives : Gives σ act mid)
    (hnext : ∀ x, mid x → Matches σ σ' (next x) (next' x)) :
    Matches σ σ' (act >>= next) (act' >>= next') := by
  constructor
  intro p p' hp
  have hends := hact.tied p p' hp
  have hmid := hgives.result p
  rw [exec_bind, exec_bind]
  generalize exec act σ p = run, exec act' σ' p' = run' at hends hmid
  cases hends with
  | ok hq => exact (hnext _ (hmid _ _ rfl)).tied _ _ hq
  | error e e' q q' => exact .error e e' q q'

theorem bind (hact : Matches σ σ' act act') (hnext : ∀ x, Matches σ σ' (next x) (next' x)) :
    Matches σ σ' (act >>= next) (act' >>= next') :=
  hact.bind_gives (.any act) fun x _ => hnext x

theorem map (f : α → β) (hact : Matches σ σ' act act') : Matches σ σ' (f <$> act) (f <$> act') := by
  rw [← bind_pure_comp, ← bind_pure_comp]
  exact hact.bind fun x => .pure (f x)

theorem options_bind {next next' : Options → Typing β}
    (h : Matches σ σ' (next σ.options) (next' σ'.options)) :
    Matches σ σ' (options >>= next) (options >>= next') := ⟨h.tied⟩

theorem read_bind {next next' : Setting → Typing β} (h : Matches σ σ' (next σ) (next' σ')) :
    Matches σ σ' (read >>= next) (read >>= next') := ⟨h.tied⟩

theorem get_bind {next next' : Progress → Typing β}
    (h : ∀ p p', Level p p' → Matches σ σ' (next p) (next' p')) :
    Matches σ σ' (get >>= next) (get >>= next') :=
  ⟨fun p p' hp => (h p p' hp).tied p p' hp⟩

theorem modify {change change' : Progress → Progress}
    (h : ∀ p p', Level p p' → Level (change p) (change' p')) :
    Matches σ σ' (modify change : Typing Unit) (modify change') :=
  ⟨fun p p' hp => .ok (h p p' hp)⟩

theorem resolving (act : Resolver.Resolving α) : Matches σ σ' (resolving act) (resolving act) := by
  constructor
  rintro p _ ⟨warnings, rfl⟩
  exact .ok ⟨warnings, rfl⟩

theorem ofExcept (x : Except TypingError α) : Matches σ σ' (ofExcept x) (ofExcept x) := by
  cases x with
  | ok x => exact .pure x
  | error e => exact .throw e e

theorem warn (kind : WarningKind) (place place' message : String) :
    Matches σ σ' (warn kind place message) (warn kind place' message) := by
  apply modify
  rintro p _ ⟨warnings, rfl⟩
  exact ⟨_, rfl⟩

theorem unresolved (hoptions : σ'.options = σ.options) (ref place place' : String) :
    Matches σ σ' (unresolved ref place) (unresolved ref place') := by
  apply options_bind
  rw [hoptions]
  split
  · exact (throw _ _).bind fun _ => (warn _ _ _ _).bind fun _ => pure _
  · exact (warn _ _ _ _).bind fun _ => pure _

theorem find? [Referable α] (ref : String) : Matches σ σ' (find? α ref) (find? α ref) :=
  resolving _

theorem inliningRef {key : String} (hact : Matches σ σ' act act') :
    Matches σ σ' (inliningRef key act) (inliningRef key act') := by
  constructor
  rintro p _ ⟨warnings, rfl⟩
  have hends := hact.tied { p with inlining := key :: p.inlining }
    { p with inlining := key :: p.inlining, warnings } ⟨warnings, rfl⟩
  rw [exec_inliningRef, exec_inliningRef]
  generalize exec act σ { p with inlining := key :: p.inlining } = run,
    exec act' σ' { p with inlining := key :: p.inlining, warnings } = run' at hends
  cases hends with
  | ok hq =>
    obtain ⟨warnings', rfl⟩ := hq
    exact .ok ⟨warnings', rfl⟩
  | error e e' q q' => exact .error e e' _ _

theorem entries (hoptions : σ'.options = σ.options) (m : Option (OrderedMap α)) :
    Matches σ σ' (entries m) (entries m) := by
  apply options_bind
  rw [hoptions]
  split
  · exact pure _
  · exact pure _

theorem mapM {f g : α → Typing β} {list : List α} (h : ∀ x ∈ list, Matches σ σ' (f x) (g x)) :
    Matches σ σ' (list.mapM f) (list.mapM g) := by
  induction list with
  | nil =>
    rw [List.mapM_nil, List.mapM_nil]
    exact pure []
  | cons x rest ih =>
    rw [List.mapM_cons, List.mapM_cons]
    have hrest := ih fun y hy => h y (List.mem_cons_of_mem x hy)
    exact (h x List.mem_cons_self).bind fun _ => hrest.bind fun _ => pure _

theorem filterMapM {f : α → Typing (Option β)} {list : List α}
    (h : ∀ x ∈ list, Matches σ σ' (f x) (f x)) :
    Matches σ σ' (list.filterMapM f) (list.filterMapM f) := by
  induction list with
  | nil =>
    rw [List.filterMapM_nil]
    exact pure []
  | cons x rest ih =>
    have hrest := ih fun y hy => h y (List.mem_cons_of_mem x hy)
    rw [List.filterMapM_cons]
    refine (h x List.mem_cons_self).bind fun y => ?_
    cases y with
    | none => exact hrest
    | some y => exact hrest.bind fun _ => pure _

end Matches

/-- References that read the same are typed the same wherever they stand, if what is written out in
their place is. -/
theorem refType_matches [Referable α] (hoptions : σ'.options = σ.options)
    {inline : α → String → Typing TypeExpr} {ref : String}
    (hinline : Reference.isExternal ref = true → ∀ x,
      Matches σ σ' (inline x (Reference.canonical ref)) (inline x (Reference.canonical ref)))
    (place place' : String) :
    Matches σ σ' (refType inline ref place) (refType inline ref place') := by
  unfold refType
  cases hexternal : Reference.isExternal ref with
  | false =>
    simp only [Bool.not_false, if_true]
    apply Matches.get_bind
    rintro p _ ⟨warnings, rfl⟩
    split
    · exact .pure _
    · exact .unresolved hoptions ref place place'
  | true =>
    simp only [Bool.not_true, Bool.false_eq_true, if_false]
    apply Matches.get_bind
    rintro p _ ⟨warnings, rfl⟩
    split
    · exact (Matches.warn _ _ _ _).bind fun _ => .pure _
    · apply (Matches.find? ref).bind
      intro found
      cases found with
      | none => exact .unresolved hoptions ref place place'
      | some x => exact .inliningRef (hinline hexternal x)

/-- What the hooks make of a schema at a place before any rule applies, if one takes it over. -/
def takenOver? (σ : Setting) (s : Option Schema) (place : String) : Option (TypeExpr × Bool) :=
  s.bind fun s => σ.schemaHooks.findSome? fun hook =>
    (hook s place).bind fun result => result.type.map (·, result.isOptional)

/-- What the hooks say on a finished type. -/
def replaced? (σ : Setting) (t : TypeExpr) (s : Option Schema) (place : String) :
    Option HookResult :=
  σ.typeHooks.findSome? fun hook => hook t s place

namespace Matches

variable {s : Option Schema} {place place' : String}

theorem schemaHook_bind {next next' : Option (TypeExpr × Bool) → Typing β}
    (hhooks : takenOver? σ s place = takenOver? σ' s place')
    (h : ∀ found, Matches σ σ' (next found) (next' found)) :
    Matches σ σ' (schemaHook? s place >>= next) (schemaHook? s place' >>= next') := by
  constructor
  intro p p' hp
  change Tied (exec (next (takenOver? σ s place)) σ p) (exec (next' (takenOver? σ' s place')) σ' p')
  rw [hhooks]
  exact (h _).tied p p' hp

theorem typeHook_bind {t : TypeExpr} {next next' : Option HookResult → Typing β}
    (hhooks : replaced? σ t s place = replaced? σ' t s place')
    (h : ∀ found, Matches σ σ' (next found) (next' found)) :
    Matches σ σ' (typeHook? t s place >>= next) (typeHook? t s place' >>= next') := by
  constructor
  intro p p' hp
  change Tied (exec (next (replaced? σ t s place)) σ p)
    (exec (next' (replaced? σ' t s place')) σ' p')
  rw [hhooks]
  exact (h _).tied p p' hp

end Matches

/-- Where schemas stand in two runs. Nothing that reads a place tells the two places of a schema
apart, and a schema that is gone to from it stands at two such places again. -/
structure Siting (σ σ' : Setting) (At : Option Schema → String → String → Prop) : Prop where
  options : σ'.options = σ.options
  discriminators : σ'.discriminators = σ.discriminators
  taken {s : Option Schema} {place place' : String} : At s place place' →
    takenOver? σ s place = takenOver? σ' s place'
  replaced {s : Option Schema} {place place' : String} (t : TypeExpr) : At s place place' →
    replaced? σ t s place = replaced? σ' t s place'
  hoisting {s : Schema} {place place' : String} : At (some s) place place' →
    σ.options.enum = true → place = place'
  tag {s : Schema} {place place' : String} : At (some s) place place' →
    tagOf? σ.discriminators s place = tagOf? σ.discriminators s place'
  optional {s property : Schema} {place place' name : String} : At (some s) place place' →
    (name, some property) ∈ entriesOf s.properties →
      isOptionalProperty σ.options s place name property =
        isOptionalProperty σ.options s place' name property
  child {s : Schema} {child : Option Schema} {place place' : String} {path : List String} :
    At (some s) place place' → (path, child) ∈ s.children →
      At child (Reference.join place path) (Reference.join place' path)
  required {s : Schema} {place place' : String} {keys : Option (List String)} :
    At (some s) place place' → (∀ key, s.isRequired key = true → key ∈ keys.getD []) →
      At (some { s with required := keys }) place place'
  singled {s : Schema} {place place' : String} (name : String) : At (some s) place place' →
    At (some (singled s name)) place place'
  target {ref : String} (s : Schema) : Reference.isExternal ref = true →
    At (some s) (Reference.canonical ref) (Reference.canonical ref)

theorem mem_mergeRequired {key : String} {own : List String} (h : key ∈ own)
    (whole : List String) : key ∈ mergeRequired own whole := by
  unfold mergeRequired
  induction whole generalizing own with
  | nil => exact h
  | cons next rest ih =>
    rw [List.foldl_cons]
    apply ih
    split
    · exact h
    · exact List.mem_append_left _ h

/-- The types that `body` gives to schemas match wherever these stand. -/
def BodyMatches (σ σ' : Setting) (At : Option Schema → String → String → Prop) (body : SchemaBody) :
    Prop :=
  ∀ s place place', At s place place' → Matches σ σ' (body s place) (body s place')

section Rules

variable {At : Option Schema → String → String → Prop} {body : SchemaBody} {s : Schema}
  {place place' : String}

theorem isDeprecated_matches (s : Schema) : Matches σ σ' (isDeprecated s) (isDeprecated s) := by
  unfold isDeprecated
  split
  · exact (Matches.find? (α := Schema) s.ref).bind fun _ => .pure _
  · exact .pure _

theorem isAlternative_matches (name : String) (members : List (Option Schema)) :
    Matches σ σ' (isAlternative name members) (isAlternative name members) := by
  induction members with
  | nil => exact .pure false
  | cons member rest ih =>
    cases member with
    | none => exact .throw _ _
    | some member =>
      rw [isAlternative]
      split
      · exact .pure true
      · exact ih

theorem isLeftToAlternatives_matches (s : Schema) (name : String) :
    Matches σ σ' (isLeftToAlternatives s name) (isLeftToAlternatives s name) := by
  unfold isLeftToAlternatives
  split
  · exact isAlternative_matches name _
  · exact .pure false

variable (hsiting : Siting σ σ' At)

include hsiting

theorem isDropped_matches (tag name : String) (property : Schema) :
    Matches σ σ' (isDropped tag name property) (isDropped tag name property) := by
  apply Matches.options_bind
  rw [hsiting.options]
  split
  · exact isDeprecated_matches property
  · exact .pure _

theorem partTag_matches (part : Schema) : Matches σ σ' (partTag part) (partTag part) := by
  unfold partTag
  split
  · refine (Matches.resolving _).bind fun target => .read_bind ?_
    rw [hsiting.discriminators]
    exact .pure _
  · exact .pure _

theorem enumType_matches (hs : At (some s) place place') :
    Matches σ σ' (enumType s place) (enumType s place') := by
  apply Matches.options_bind
  rw [hsiting.options]
  dsimp only
  split
  · rename_i henum
    rw [Bool.and_eq_true] at henum
    rw [hsiting.hoisting hs henum.1]
    apply Matches.get_bind
    rintro p _ ⟨warnings, rfl⟩
    refine (Matches.modify ?_).bind fun _ => .pure _
    rintro q _ ⟨warnings', rfl⟩
    exact ⟨warnings', rfl⟩
  · exact .pure _

variable (hbody : BodyMatches σ σ' At body)

include hbody

theorem hookedType_matches {s : Option Schema} (hs : At s place place') :
    Matches σ σ' (hookedType body s place) (hookedType body s place') := by
  refine .schemaHook_bind (hsiting.taken hs) fun found => ?_
  extract_lets finish finish'
  have hfinish (made : TypeExpr × Bool) : Matches σ σ' (finish made) (finish' made) := by
    refine .typeHook_bind (hsiting.replaced made.1 hs) fun result => ?_
    split
    · exact .pure _
    · exact .pure _
  cases found with
  | some taken => exact (Matches.pure taken).bind hfinish
  | none => exact (hbody s place place' hs).bind fun t => (Matches.pure (t, false)).bind hfinish

theorem typeWith_matches {s : Option Schema} (hs : At s place place') :
    Matches σ σ' (typeWith body s place) (typeWith body s place') :=
  (hookedType_matches hsiting hbody hs).map orUndefined

theorem unfinishedWith_matches {s : Option Schema} (hs : At s place place') :
    Matches σ σ' (unfinishedWith body s place) (unfinishedWith body s place') := by
  refine .schemaHook_bind (hsiting.taken hs) fun found => ?_
  cases found with
  | some taken => exact .pure _
  | none => exact hbody s place place' hs

theorem typeListMembers_matches (hs : At (some s) place place') (names : List String) :
    Matches σ σ' (typeListMembers body s place names) (typeListMembers body s place' names) := by
  induction names with
  | nil => exact .pure []
  | cons name rest ih =>
    have hsingled : Matches σ σ' (singledType body s place name)
        (singledType body s place' name) := by
      unfold singledType
      split
      · exact .pure _
      · exact unfinishedWith_matches hsiting hbody (hsiting.singled name hs)
    rw [typeListMembers, typeListMembers]
    apply (isLeftToAlternatives_matches s name).bind
    intro left
    split
    · exact ih
    · exact hsingled.bind fun _ => ih.bind fun _ => .pure _

/-- The schemas of a list, each below its keyword. -/
theorem typesAt_matches {keyword : String} {list : List (Option Schema × Nat)}
    (h : ∀ child i, (child, i) ∈ list → At child (Reference.join place [keyword, toString i])
      (Reference.join place' [keyword, toString i])) :
    Matches σ σ' (typesAt body (Reference.join place [keyword]) list)
      (typesAt body (Reference.join place' [keyword]) list) := by
  induction list with
  | nil => exact .pure []
  | cons entry rest ih =>
    obtain ⟨child, i⟩ := entry
    have hrest := ih fun child j hmem => h child j (List.mem_cons_of_mem _ hmem)
    have hchild := h child i List.mem_cons_self
    rw [typesAt, typesAt, Reference.join_join, Reference.join_join]
    exact (typeWith_matches hsiting hbody hchild).bind fun _ => hrest.bind fun _ => .pure _

variable (hs : At (some s) place place') (hbool : s.bool = none)

include hs

/-- The schemas of a list that the schema holds. -/
theorem numbered_matches (keyword : String) (schemas : Option (List (Option Schema)))
    (hheld : ∀ entry ∈ Schema.numbered keyword schemas, entry ∈ s.children) :
    Matches σ σ' (typesAt body (Reference.join place [keyword]) (schemas.getD []).zipIdx)
      (typesAt body (Reference.join place' [keyword]) (schemas.getD []).zipIdx) := by
  apply typesAt_matches hsiting hbody
  intro child i hmem
  exact hsiting.child hs (hheld _ (List.mem_map.mpr ⟨(child, i), hmem, rfl⟩))

include hbool

theorem itemType_matches : Matches σ σ' (itemType body s place) (itemType body s place') := by
  have hchildren := s.children_eq hbool
  unfold itemType
  split
  · rename_i schemas hprefix
    have hlist := numbered_matches hsiting hbody hs "prefixItems" (some schemas)
      fun entry hentry => by simp [hchildren, hprefix, hentry]
    exact hlist.map _
  · rename_i schemas _ hitems
    have hlist := numbered_matches hsiting hbody hs "items" (some schemas)
      fun entry hentry => by
        simp [hchildren, hitems, Schema.itemChildren, hentry]
    exact hlist.map _
  · rename_i item _ hitems
    apply typeWith_matches hsiting hbody
    exact hsiting.child hs (by simp [hchildren, hitems, Schema.itemChildren])
  · exact (Matches.warn _ _ _ _).bind fun _ => .pure _

theorem propertyMembers_matches (tag : String) {list : List (String × Option Schema)}
    (hlist : ∀ entry ∈ list, entry ∈ entriesOf s.properties) :
    Matches σ σ' (propertyMembers body s place tag list)
      (propertyMembers body s place' tag list) := by
  have hchildren := s.children_eq hbool
  induction list with
  | nil => exact .pure []
  | cons entry rest ih =>
    have hrest := ih fun entry hentry => hlist entry (List.mem_cons_of_mem _ hentry)
    obtain ⟨name, property⟩ := entry
    cases property with
    | none => exact hrest
    | some property =>
      have hmem := hlist _ List.mem_cons_self
      rw [propertyMembers, propertyMembers]
      apply (isDropped_matches hsiting tag name property).bind
      intro dropped
      split
      · exact hrest
      · apply Matches.options_bind
        rw [hsiting.options, hsiting.optional hs hmem]
        have hheld : (["properties", name], some property) ∈ s.children := by
          simp [hchildren, Schema.keyed, hmem]
        have hchild := hsiting.child hs hheld
        exact (hookedType_matches hsiting hbody hchild).bind fun _ => hrest.bind fun _ => .pure _

theorem definitionMembers_matches {list : List (String × Option Schema)}
    (hlist : ∀ entry ∈ list, entry ∈ entriesOf s.defs) :
    Matches σ σ' (definitionMembers body place list) (definitionMembers body place' list) := by
  have hchildren := s.children_eq hbool
  induction list with
  | nil => exact .pure []
  | cons entry rest ih =>
    have hrest := ih fun entry hentry => hlist entry (List.mem_cons_of_mem _ hentry)
    obtain ⟨name, child⟩ := entry
    have hmem := hlist _ List.mem_cons_self
    have hheld : (["$defs", name], child) ∈ s.children := by
      simp [hchildren, Schema.keyed, hmem]
    have hchild := hsiting.child hs hheld
    rw [definitionMembers, definitionMembers]
    refine (typeWith_matches hsiting hbody hchild).bind fun _ => .options_bind ?_
    rw [hsiting.options]
    exact hrest.bind fun _ => .pure _

theorem indexType?_matches :
    Matches σ σ' (indexType? body s place) (indexType? body s place') := by
  have hchildren := s.children_eq hbool
  unfold indexType?
  split
  · rename_i further hfurther
    split
    · exact .pure none
    · apply Matches.map
      apply typeWith_matches hsiting hbody
      exact hsiting.child hs (by simp [hchildren, hfurther])
  · apply Matches.options_bind
    rw [hsiting.options]
    exact .pure _

theorem objectType?_matches :
    Matches σ σ' (objectType? body s place) (objectType? body s place') := by
  have hproperties {list : List (String × Option Schema)}
      (hperm : list.Perm (entriesOf s.properties)) :=
    propertyMembers_matches hsiting hbody hs hbool
      ((tagOf? σ.discriminators s place).elim "" (·.propertyName)) fun _ => hperm.mem_iff.mp
  apply Matches.options_bind
  apply Matches.read_bind
  rw [hsiting.options, hsiting.discriminators, ← hsiting.tag hs]
  refine (Matches.entries hsiting.options _).bind_gives (.entries _) fun listed hlisted => ?_
  refine (hproperties hlisted).bind fun properties => ?_
  refine (Matches.entries hsiting.options _).bind_gives (.entries _) fun defined hdefined => ?_
  refine (definitionMembers_matches hsiting hbody hs hbool fun _ => hdefined.mem_iff.mp).bind
    fun definitions => ?_
  exact (indexType?_matches hsiting hbody hs hbool).bind fun _ => .pure _

theorem coreType?_matches : Matches σ σ' (coreType? body s place) (coreType? body s place') := by
  unfold coreType?
  split
  · exact objectType?_matches hsiting hbody hs hbool
  · exact objectType?_matches hsiting hbody hs hbool
  · exact .pure _
  · exact .pure _
  · exact .pure _
  · exact .pure _
  · exact .pure _
  · refine (itemType_matches hsiting hbody hs hbool).bind fun item => .options_bind ?_
    rw [hsiting.options]
    exact (Matches.ofExcept _).map _
  · exact (Matches.warn _ _ _ _).bind fun _ => .pure _
  · exact (typeListMembers_matches hsiting hbody hs _).bind fun _ => .pure _

omit hs hbool in
theorem partType_matches (s : Schema) {part : Schema} (hpart : At (some part) place place') :
    Matches σ σ' (partType body s part place) (partType body s part place') := by
  unfold partType
  split
  · refine (typeWith_matches hsiting hbody hpart).bind fun t => (Matches.find? _).bind fun _ => ?_
    extract_lets missing
    split
    · exact .pure t
    · refine (Matches.modify ?_).bind fun _ => .pure _
      rintro p _ ⟨warnings, rfl⟩
      exact ⟨warnings, rfl⟩
  · apply typeWith_matches hsiting hbody
    apply hsiting.required hpart
    intro key hkey
    have hmerged := mem_mergeRequired (List.contains_iff_mem.mp hkey) (s.required.getD [])
    rw [if_neg (by simpa using List.ne_nil_of_mem hmerged)]
    exact hmerged

omit hs in
theorem partTypes_matches (hs : At (some s) place place') {list : List (Option Schema × Nat)}
    (hlist : ∀ entry ∈ list, entry ∈ (s.allOf.getD []).zipIdx) :
    Matches σ σ' (partTypes body s place list) (partTypes body s place' list) := by
  have hchildren := s.children_eq hbool
  induction list with
  | nil => exact .pure []
  | cons entry rest ih =>
    have hrest := ih fun entry hentry => hlist entry (List.mem_cons_of_mem _ hentry)
    obtain ⟨part, i⟩ := entry
    cases part with
    | none => exact hrest
    | some part =>
      have hmem := hlist _ List.mem_cons_self
      have hheld : (["allOf", toString i], some part) ∈ s.children := by
        rw [hchildren]
        have hnumbered : (["allOf", toString i], some part) ∈ Schema.numbered "allOf" s.allOf :=
          List.mem_map.mpr ⟨_, hmem, rfl⟩
        simp only [List.mem_append, hnumbered, true_or, or_true]
      have hpart := hsiting.child hs hheld
      rw [partTypes, partTypes]
      refine (partType_matches hsiting hbody s hpart).bind fun t => ?_
      exact (partTag_matches hsiting part).bind fun tag => hrest.bind fun _ => .pure _

theorem composedType_matches :
    Matches σ σ' (composedType body s place) (composedType body s place') := by
  have hchildren := s.children_eq hbool
  have hcomposition : Matches σ σ' (composition body s place) (composition body s place') := by
    refine (coreType?_matches hsiting hbody hs hbool).bind fun core => ?_
    exact (partTypes_matches hsiting hbody hbool hs fun _ h => h).bind fun parts => .pure _
  refine hcomposition.bind fun c => ?_
  unfold withAlternatives
  refine (numbered_matches hsiting hbody hs "anyOf" s.anyOf
    fun entry hentry => by simp [hchildren, hentry]).bind fun anyOf => ?_
  refine (numbered_matches hsiting hbody hs "oneOf" s.oneOf
    fun entry hentry => by simp [hchildren, hentry]).bind fun oneOf => .options_bind ?_
  rw [hsiting.options]
  exact .pure _

end Rules

section Types

variable {At : Option Schema → String → String → Prop} (hsiting : Siting σ σ' At)
  {s : Option Schema} {place place' : String}

/-- Of a schema as many unfoldings are made, from states that agree. -/
theorem unfoldings_matches (s : Option Schema) {next next' : Nat → Typing TypeExpr}
    (h : ∀ steps, Matches σ σ' (next steps) (next' steps)) :
    Matches σ σ' (unfoldings s >>= next) (unfoldings s >>= next') := by
  refine Matches.bind ?_ h
  apply Matches.get_bind
  rintro p _ ⟨warnings, rfl⟩
  exact .pure _

include hsiting

/-- The types of schemas match wherever these stand. -/
theorem schemaBody_matches (steps : Nat) : BodyMatches σ σ' At (schemaBody steps) := by
  induction steps with
  | zero => exact fun _ _ _ _ => .throw _ _
  | succ steps ih =>
    intro s place place' hs
    rw [schemaBody]
    cases s with
    | none => exact .pure _
    | some s =>
      unfold bodyStep
      dsimp only
      cases hbool : s.bool with
      | some b => exact .pure _
      | none =>
        dsimp only
        split
        · apply refType_matches hsiting.options
          intro hexternal target
          exact typeWith_matches hsiting ih (hsiting.target target hexternal)
        · split
          · exact enumType_matches hsiting hs
          · split
            · exact .pure _
            · exact composedType_matches hsiting ih hs hbool

theorem schemaType_matches (hs : At s place place') :
    Matches σ σ' (schemaType s place) (schemaType s place') :=
  unfoldings_matches s fun steps => typeWith_matches hsiting (schemaBody_matches hsiting steps) hs

theorem unfinishedType_matches (hs : At s place place') :
    Matches σ σ' (unfinishedType s place) (unfinishedType s place') :=
  unfoldings_matches s fun steps =>
    unfinishedWith_matches hsiting (schemaBody_matches hsiting steps) hs

theorem schemaRefType_matches (ref place place' : String) :
    Matches σ σ' (schemaRefType ref place) (schemaRefType ref place') :=
  refType_matches hsiting.options (fun hexternal target =>
    schemaType_matches hsiting (hsiting.target target hexternal)) place place'

end Types

end Typing

end ApiTypes
