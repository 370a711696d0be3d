import ApiTypes.Proofs.Targets

/-!
Which schemas the scan for discriminators tags. The roots are read off the schemas one by one. The
variants are the least set that holds the alternatives of roots and is closed under extension
through `allOf`: the rounds of the scan only add what the rules give, every round but the last adds
something, and the last one shows that the rules give nothing more.
-/

namespace ApiTypes

open Discriminators (declared? mappingRef)
open Resolver (Resolving Under)

/-- The discriminator that a schema declares; a reference declares none. -/
def Schema.named? (s : Schema) : Option Discriminator := if s.isRef then none else declared? s

namespace Source

variable {w : Source}

/-- The names that the mapping of a discriminator gives to the schema at a place. -/
def namesOf (w : Source) (d : Discriminator) (place : String) : List String :=
  ((entriesOf d.mapping).filter fun entry => w.targetOf (mappingRef entry.2) = place).map (·.1)

/-- The tags of the schema at a place. -/
def tagOf (w : Source) (root : String) (d : Discriminator) (place : String) : Variant :=
  if (w.namesOf d place).isEmpty then ⟨d.propertyName, [Reference.lastToken place], root, false⟩
  else ⟨d.propertyName, w.namesOf d place, root, true⟩

@[simp] theorem tagOf_root (root : String) (d : Discriminator) (place : String) :
    (w.tagOf root d place).root = root := by
  unfold tagOf
  split <;> rfl

/-- The entry of a schema among the roots, if it is one. -/
def rootPair? (entry : String × Schema) : Option (String × Discriminator) :=
  entry.2.named?.map (entry.1, ·)

/-- The roots as the scan leaves them: the last one found comes first. -/
def roots (w : Source) : List (String × Discriminator) :=
  (w.schemas.filterMap rootPair?).reverse

/-- A reference among the alternatives of a root makes the schema it leads to a candidate for the
tags of that root. -/
def candidate? (w : Source) (root : String) (d : Discriminator) (member : Option Schema) :
    Option (String × String × Discriminator) :=
  (member.filter Schema.isRef).map fun t => (w.targetOf t.ref, root, d)

/-- The candidates among the alternatives of a schema. -/
def alternativesAt (w : Source) (place : String) (s : Schema) :
    List (String × String × Discriminator) :=
  s.named?.elim [] fun d =>
    (s.oneOf.getD [] ++ s.anyOf.getD []).filterMap (w.candidate? place d)

def alternatives (w : Source) : List (String × String × Discriminator) :=
  w.schemas.flatMap fun (place, s) => w.alternativesAt place s

/-- Tags a place, unless it has been tagged before. -/
def claim (w : Source) (variants : List (String × Variant))
    (candidate : String × String × Discriminator) : List (String × Variant) :=
  if (variants.lookup candidate.1).isSome then variants
  else (candidate.1, w.tagOf candidate.2.1 candidate.2.2 candidate.1) :: variants

/-- The root that a member of `allOf` leads to, given what has been tagged. -/
def lead? (w : Source) (variants : List (String × Variant)) (member : Option Schema) :
    Option (String × Discriminator) :=
  member.bind fun m =>
    if m.isRef then
      match w.roots.lookup (w.targetOf m.ref) with
      | some d => some (w.targetOf m.ref, d)
      | none => (variants.lookup (w.targetOf m.ref)).bind fun v =>
          (w.roots.lookup v.root).map (v.root, ·)
    else (declared? m).map ("", ·)

/-- The root that a schema extends: the first member that leads to one counts. -/
def extended? (w : Source) (variants : List (String × Variant)) (s : Schema) :
    Option (String × Discriminator) :=
  if s.isRef then none else (s.allOf.getD []).findSome? (w.lead? variants)

/-- Tags a schema that extends a root or a variant, unless it has been tagged before. -/
def extendBy (w : Source) (variants : List (String × Variant)) (entry : String × Schema) :
    List (String × Variant) :=
  (w.extended? variants entry.2).elim variants fun (root, d) =>
    w.claim variants (entry.1, root, d)

/-- One round over all schemas. -/
def round (w : Source) (variants : List (String × Variant)) : List (String × Variant) :=
  w.schemas.foldl w.extendBy variants

def saturate (w : Source) : Nat → List (String × Variant) → List (String × Variant)
  | 0, variants => variants
  | rounds + 1, variants =>
    if (w.round variants).length = variants.length then w.round variants
    else w.saturate rounds (w.round variants)

/-- The variants as the scan leaves them. -/
def variants (w : Source) : List (String × Variant) :=
  w.saturate (w.schemas.length + 1) (w.alternatives.foldl w.claim [])

/-! The scan gives these roots and variants. -/

theorem mappedNames_answers (hu : w.Uniform) (place : String) (entries : List (String × String))
    (hasks : ∀ name ref, (name, ref) ∈ entries → w.Asks (mappingRef ref)) :
    w.Answers (Discriminators.mappedNames place entries)
      ((entries.filter fun entry => w.targetOf (mappingRef entry.2) = place).map (·.1)) := by
  induction entries with
  | nil => exact Answers.pure []
  | cons entry rest ih =>
    obtain ⟨name, ref⟩ := entry
    rw [Discriminators.mappedNames]
    apply Answers.bind (target_answers hu (hasks name ref List.mem_cons_self))
    apply Answers.bind (ih fun name ref h => hasks name ref (List.mem_cons_of_mem _ h))
    by_cases hplace : w.targetOf (mappingRef ref) = place
    · simp only [hplace, List.filter_cons, decide_true, if_true, List.map_cons]
      exact Answers.pure _
    · simp only [hplace, List.filter_cons, decide_false, Bool.false_eq_true, if_false]
      exact Answers.pure _

theorem tag_answers (hu : w.Uniform) {root place : String} {d : Discriminator}
    (hd : Discriminators.Declared w d) :
    w.Answers (Discriminators.tag root d place) (w.tagOf root d place) := by
  obtain ⟨s, hs, hsd⟩ := hd
  apply Answers.bind (mappedNames_answers hu place _ fun name ref h => .mapped hs hsd h)
  unfold tagOf namesOf
  split <;> exact Answers.pure _

theorem reaches_of_member {s child : Schema} (hs : w.Reaches (.schema s))
    (h : some child ∈ s.oneOf.getD [] ++ s.anyOf.getD []) : w.Reaches (.schema child) := by
  rcases List.mem_append.mp h with h | h
  · exact hs.held (.oneOf h)
  · exact hs.held (.anyOf h)

theorem declared_of_named? {s : Schema} (hs : w.Reaches (.schema s)) {d : Discriminator}
    (h : s.named? = some d) : Discriminators.Declared w d := by
  unfold Schema.named? at h
  split at h
  · cases h
  · exact Discriminators.declared_of_declared? hs h

theorem addAlternative_answers (hu : w.Uniform) {root : String} {d : Discriminator}
    (hd : Discriminators.Declared w d) (found : Discriminators) {member : Option Schema}
    (hmember : Discriminators.Member w member) :
    w.Answers (Discriminators.addAlternative root d found member)
      { found with
        variants := (w.candidate? root d member).toList.foldl w.claim found.variants } := by
  cases member with
  | none => exact Answers.pure _
  | some s =>
    unfold Discriminators.addAlternative candidate?
    cases href : s.isRef with
    | false =>
      simp only [Option.filter_some, href, if_false, Bool.false_eq_true, Option.map_none,
        Option.toList_none, List.foldl_nil]
      exact Answers.pure _
    | true =>
      simp only [Option.filter_some, href, if_true, Option.map_some, Option.toList_some,
        List.foldl_cons, List.foldl_nil, claim]
      apply Answers.bind (target_answers hu (asks_ref (hmember s rfl)))
      split
      · exact Answers.pure _
      · exact Answers.bind (tag_answers hu hd) (Answers.pure _)

theorem addRoot_answers (hu : w.Uniform) (found : Discriminators) (place : String) {s : Schema}
    (hs : w.Reaches (.schema s)) :
    w.Answers (Discriminators.addRoot found (place, s))
      ⟨(rootPair? (place, s)).toList ++ found.roots,
        (w.alternativesAt place s).foldl w.claim found.variants⟩ := by
  unfold Discriminators.addRoot alternativesAt rootPair?
  cases href : s.isRef with
  | true =>
    simp only [Schema.named?, href, if_true]
    exact Answers.pure _
  | false =>
    simp only [Schema.named?, href, Bool.false_eq_true, if_false]
    cases hd : declared? s with
    | none => exact Answers.pure _
    | some d =>
      let after (done : List (Option Schema)) : Discriminators := ⟨(place, d) :: found.roots,
        (done.filterMap (w.candidate? place d)).foldl w.claim found.variants⟩
      refine Answers.foldlM after _ fun done member hmember => ?_
      simp only [after, List.filterMap_append, List.foldl_append]
      refine addAlternative_answers hu (Discriminators.declared_of_declared? hs hd) _ ?_
      rintro t rfl
      exact reaches_of_member hs hmember

/-- The first pass finds the roots and tags the alternatives of each. -/
theorem addRoots_answers (hu : w.Uniform) :
    w.Answers (w.schemas.foldlM Discriminators.addRoot {})
      ⟨w.roots, w.alternatives.foldl w.claim []⟩ := by
  let after (done : List (String × Schema)) : Discriminators :=
    ⟨(done.filterMap rootPair?).reverse,
      (done.flatMap fun (place, s) => w.alternativesAt place s).foldl w.claim []⟩
  refine Answers.foldlM after _ fun done (place, s) hmem => ?_
  have hroot : ([(place, s)].filterMap rootPair?).reverse = (rootPair? (place, s)).toList := by
    cases hentry : rootPair? (place, s) <;> simp [hentry]
  simp only [after, List.filterMap_append, List.reverse_append, hroot, List.flatMap_append,
    List.flatMap_singleton, List.foldl_append]
  exact addRoot_answers hu _ place (reaches_of_mem_schemas hmem)

theorem declared_of_roots {root : String} {d : Discriminator}
    (h : w.roots.lookup root = some d) : Discriminators.Declared w d := by
  have hmem := List.mem_reverse.mp (lookup_mem h)
  obtain ⟨⟨place, s⟩, hs, heq⟩ := List.mem_filterMap.mp hmem
  obtain ⟨d', hd, hpair⟩ := Option.map_eq_some_iff.mp heq
  cases hpair
  exact declared_of_named? (reaches_of_mem_schemas hs) hd

theorem extendedRoot?_answers (hu : w.Uniform) (variants : List (String × Variant))
    (members : List (Option Schema)) (hmembers : ∀ m ∈ members, Discriminators.Member w m) :
    w.Answers (Discriminators.extendedRoot? ⟨w.roots, variants⟩ members)
      (members.findSome? (w.lead? variants)) := by
  induction members with
  | nil => exact Answers.pure none
  | cons member rest ih =>
    have hrest := ih fun m hm => hmembers m (List.mem_cons_of_mem _ hm)
    cases member with
    | none => exact hrest
    | some m =>
      have hm := hmembers _ List.mem_cons_self m rfl
      rw [Discriminators.extendedRoot?, List.findSome?_cons]
      simp only [lead?, Option.bind_some]
      split
      · apply Answers.bind (target_answers hu (asks_ref hm))
        cases w.roots.lookup (w.targetOf m.ref) with
        | some d => exact Answers.pure _
        | none =>
          cases variants.lookup (w.targetOf m.ref) with
          | none => exact hrest
          | some v =>
            cases hroot : w.roots.lookup v.root with
            | none =>
              simp only [Option.bind_some, hroot, Option.map_none]
              exact hrest
            | some d =>
              simp only [Option.bind_some, hroot, Option.map_some]
              exact Answers.pure _
      · cases declared? m with
        | none => exact hrest
        | some d => exact Answers.pure _

theorem extendBy_of_tagged {variants : List (String × Variant)} {place : String} (s : Schema)
    (h : (variants.lookup place).isSome = true) : w.extendBy variants (place, s) = variants := by
  unfold extendBy
  cases w.extended? variants s with
  | none => rfl
  | some pair => simp only [Option.elim_some, claim, h, if_true]

/-- A member of `allOf` leads to a root in three ways: it declares a discriminator itself, it refers
to a root, or it refers to a variant of one. -/
theorem lead_cases {variants : List (String × Variant)} {member : Option Schema} {root : String}
    {d : Discriminator} (h : w.lead? variants member = some (root, d)) :
    ∃ m, member = some m ∧
      (m.isRef = false ∧ root = "" ∧ declared? m = some d ∨
        m.isRef = true ∧ root = w.targetOf m.ref ∧ w.roots.lookup root = some d ∨
        m.isRef = true ∧ w.roots.lookup (w.targetOf m.ref) = none ∧
          ∃ v, variants.lookup (w.targetOf m.ref) = some v ∧ root = v.root ∧
            w.roots.lookup root = some d) := by
  obtain ⟨m, rfl, hm⟩ := Option.bind_eq_some_iff.mp h
  refine ⟨m, rfl, ?_⟩
  split at hm
  · rename_i href
    split at hm
    · rename_i d' hroot
      obtain ⟨rfl, rfl⟩ := Prod.mk.inj (Option.some.inj hm)
      exact .inr (.inl ⟨href, rfl, hroot⟩)
    · rename_i hnone
      obtain ⟨v, hv, hroot⟩ := Option.bind_eq_some_iff.mp hm
      obtain ⟨d', hd, heq⟩ := Option.map_eq_some_iff.mp hroot
      obtain ⟨rfl, rfl⟩ := Prod.mk.inj heq
      exact .inr (.inr ⟨href, hnone, v, hv, rfl, hd⟩)
  · rename_i href
    obtain ⟨d', hd, heq⟩ := Option.map_eq_some_iff.mp hm
    obtain ⟨rfl, rfl⟩ := Prod.mk.inj heq
    exact .inl ⟨Bool.eq_false_iff.mpr href, rfl, hd⟩

theorem declared_of_lead {variants : List (String × Variant)} {members : List (Option Schema)}
    (hmembers : ∀ member ∈ members, Discriminators.Member w member) {root : String}
    {d : Discriminator} (h : members.findSome? (w.lead? variants) = some (root, d)) :
    Discriminators.Declared w d := by
  obtain ⟨member, hmember, hlead⟩ := List.exists_of_findSome?_eq_some h
  obtain ⟨m, rfl, ⟨-, -, hd⟩ | ⟨-, -, hd⟩ | ⟨-, -, -, -, -, hd⟩⟩ := lead_cases hlead
  · exact Discriminators.declared_of_declared? (hmembers _ hmember m rfl) hd
  · exact declared_of_roots hd
  · exact declared_of_roots hd

theorem addExtension_answers (hu : w.Uniform) (variants : List (String × Variant))
    {place : String} {s : Schema} (hs : w.Reaches (.schema s)) :
    w.Answers (Discriminators.addExtension ⟨w.roots, variants⟩ (place, s))
      ⟨w.roots, w.extendBy variants (place, s)⟩ := by
  have hmembers : ∀ member ∈ s.allOf.getD [], Discriminators.Member w member := by
    rintro member hmember t rfl
    exact hs.held (.allOf hmember)
  unfold Discriminators.addExtension
  cases htagged : (variants.lookup place).isSome with
  | true =>
    rw [extendBy_of_tagged s htagged]
    simp only [htagged, Bool.true_or, if_true]
    exact Answers.pure _
  | false =>
    cases href : s.isRef with
    | true =>
      simp only [extendBy, extended?, href, Bool.or_true, if_true]
      exact Answers.pure _
    | false =>
      simp only [extendBy, extended?, href, htagged, Bool.or_self, Bool.false_eq_true, if_false]
      apply Answers.bind (extendedRoot?_answers hu variants _ hmembers)
      cases hlead : (s.allOf.getD []).findSome? (w.lead? variants) with
      | none => exact Answers.pure _
      | some pair =>
        obtain ⟨root, d⟩ := pair
        have hd := declared_of_lead hmembers hlead
        simp only [Option.elim_some, claim, htagged, Bool.false_eq_true, if_false]
        exact Answers.bind (tag_answers hu hd) (Answers.pure _)

/-- A round finds what it is to find. -/
theorem round_answers (hu : w.Uniform) (variants : List (String × Variant)) :
    w.Answers (w.schemas.foldlM Discriminators.addExtension ⟨w.roots, variants⟩)
      ⟨w.roots, w.round variants⟩ := by
  let after (done : List (String × Schema)) : Discriminators :=
    ⟨w.roots, done.foldl w.extendBy variants⟩
  refine Answers.foldlM after _ fun done (place, s) hmem => ?_
  simp only [after, List.foldl_append]
  exact addExtension_answers hu _ (reaches_of_mem_schemas hmem)

theorem extend_answers (hu : w.Uniform) (rounds : Nat) (variants : List (String × Variant)) :
    w.Answers (Discriminators.extend w.schemas rounds ⟨w.roots, variants⟩)
      ⟨w.roots, w.saturate rounds variants⟩ := by
  induction rounds generalizing variants with
  | zero => exact Answers.pure _
  | succ rounds ih =>
    rw [Discriminators.extend, saturate]
    apply Answers.bind (round_answers hu variants)
    dsimp only
    split
    · exact Answers.pure _
    · exact ih _

theorem scan_answers (hu : w.Uniform) :
    w.Answers Discriminators.scan ⟨w.roots, w.variants⟩ := by
  apply Answers.get_bind
  intro r hr
  simp only [hr.schemas]
  exact Answers.bind (addRoots_answers hu) (extend_answers hu _ _)

end Source

end ApiTypes
