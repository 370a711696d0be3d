import ApiTypes.Proofs.Tagging

/-!
The scan for discriminators computes the least closed tagging. Every place is tagged at most once,
and a tag stays. A round that tags nothing shows that no rule applies, and there are no more rounds
with a new tag than untagged schemas.
-/

namespace ApiTypes

open Discriminators (declared? mappingRef)

/-- In a list without repeated keys, an entry is what its key leads to. -/
theorem lookup_of_mem {β γ : Type} [BEq β] [LawfulBEq β] {key : β} {value : γ}
    {entries : List (β × γ)} (hdistinct : (entries.map (·.1)).Nodup)
    (h : (key, value) ∈ entries) : entries.lookup key = some value := by
  induction entries with
  | nil => cases h
  | cons entry rest ih =>
    obtain ⟨key', value'⟩ := entry
    obtain ⟨hnew, hrest⟩ := List.nodup_cons.mp hdistinct
    rcases List.mem_cons.mp h with heq | hmem
    · cases heq
      exact List.lookup_cons_self
    · have hne : key ≠ key' := by
        rintro rfl
        exact hnew (List.mem_map_of_mem (f := (·.1)) hmem)
      rw [List.lookup_cons, beq_false_of_ne hne]
      exact ih hrest hmem

theorem lookup_isSome_of_mem {β γ : Type} [BEq β] [LawfulBEq β] {key : β} {value : γ}
    {entries : List (β × γ)} (h : (key, value) ∈ entries) :
    (entries.lookup key).isSome = true := by
  cases hnone : entries.lookup key with
  | some _ => rfl
  | none =>
    have hne := List.lookup_eq_none_iff.mp hnone (key, value) h
    simp at hne

namespace Source

variable {w : Source} {tags more : List (String × Variant)}

/-- The schemas that carry no tag. -/
def untagged (w : Source) (tags : List (String × Variant)) : Nat :=
  (w.schemas.filter fun entry => (tags.lookup entry.1).isNone).length

/-- Tags only come to those that are there, each to a schema that had none. -/
structure Grows (w : Source) (tags more : List (String × Variant)) : Prop where
  suffix : tags <:+ more
  kept : ∀ place v, tags.lookup place = some v → more.lookup place = some v
  fewer : more.length + w.untagged more ≤ tags.length + w.untagged tags

theorem Grows.refl (tags : List (String × Variant)) : w.Grows tags tags where
  suffix := List.suffix_refl tags
  kept _ _ h := h
  fewer := Nat.le_refl _

theorem Grows.trans {first second third : List (String × Variant)} (h : w.Grows first second)
    (h' : w.Grows second third) : w.Grows first third where
  suffix := h.suffix.trans h'.suffix
  kept place v hv := h'.kept place v (h.kept place v hv)
  fewer := Nat.le_trans h'.fewer h.fewer

theorem lookup_cons_of_none {place place' : String} {v v' : Variant}
    (hnew : tags.lookup place = none) (h : tags.lookup place' = some v') :
    ((place, v) :: tags).lookup place' = some v' := by
  have hne : place' ≠ place := by
    rintro rfl
    rw [hnew] at h
    cases h
  rw [List.lookup_cons, beq_false_of_ne hne]
  exact h

theorem Grows.tag {place : String} {s : Schema} (hs : (place, s) ∈ w.schemas)
    (hnew : tags.lookup place = none) (v : Variant) : w.Grows tags ((place, v) :: tags) where
  suffix := List.suffix_cons _ tags
  kept _ _ h := lookup_cons_of_none hnew h
  fewer := by
    have hsame : w.untagged ((place, v) :: tags) = ((w.schemas.filter fun entry =>
        (tags.lookup entry.1).isNone).filter fun entry => entry.1 ≠ place).length := by
      rw [untagged, List.filter_filter]
      congr 2
      funext entry
      by_cases hplace : entry.1 = place
      · simp [hplace]
      · simp [List.lookup_cons, beq_false_of_ne hplace, hplace]
    have hless : w.untagged ((place, v) :: tags) < w.untagged tags := by
      rw [hsame, untagged]
      apply List.length_filter_lt_length_iff_exists.mpr
      exact ⟨(place, s), List.mem_filter.mpr ⟨hs, by simp [hnew]⟩, by simp⟩
    rw [List.length_cons]
    omega

theorem claim_of_none {place root : String} {d : Discriminator}
    (hnew : tags.lookup place = none) :
    w.claim tags (place, root, d) = (place, w.tagOf root d place) :: tags := by
  simp only [claim, hnew, Option.isSome_none, Bool.false_eq_true, if_false]

/-- What one schema adds in a round: nothing, or the first tag of its place. -/
theorem extendBy_cases (tags : List (String × Variant)) (place : String) (s : Schema) :
    w.extendBy tags (place, s) = tags ∧
        ((tags.lookup place).isSome = true ∨ w.extended? tags s = none) ∨
      ∃ root d, tags.lookup place = none ∧ w.extended? tags s = some (root, d) ∧
        w.extendBy tags (place, s) = (place, w.tagOf root d place) :: tags := by
  cases hplace : tags.lookup place with
  | some v => exact .inl ⟨extendBy_of_tagged s (by rw [hplace]; rfl), .inl rfl⟩
  | none =>
    cases hlead : w.extended? tags s with
    | none => exact .inl ⟨by simp only [extendBy, hlead, Option.elim_none], .inr rfl⟩
    | some pair =>
      refine .inr ⟨pair.1, pair.2, rfl, rfl, ?_⟩
      simp only [extendBy, hlead, Option.elim_some]
      exact claim_of_none hplace

/-- What holds of some tags and is kept by each extension holds after a round. -/
theorem round_induction {P : List (String × Variant) → Prop}
    (hstep : ∀ tags place s root d, P tags → (place, s) ∈ w.schemas →
      tags.lookup place = none → w.extended? tags s = some (root, d) →
        P ((place, w.tagOf root d place) :: tags)) (h : P tags) : P (w.round tags) := by
  suffices hall : ∀ (list : List (String × Schema)) (tags : List (String × Variant)),
      list ⊆ w.schemas → P tags → P (list.foldl w.extendBy tags) from
    hall w.schemas tags (List.Subset.refl _) h
  intro list
  induction list with
  | nil => exact fun _ _ h => h
  | cons entry rest ih =>
    intro tags hsub h
    obtain ⟨place, s⟩ := entry
    obtain ⟨hmem, hrest⟩ := List.cons_subset.mp hsub
    rw [List.foldl_cons]
    apply ih _ hrest
    obtain ⟨heq, -⟩ | ⟨root, d, hnew, hlead, heq⟩ := extendBy_cases tags place s (w := w)
    · rw [heq]
      exact h
    · rw [heq]
      exact hstep tags place s root d h hmem hnew hlead

/-- What holds of some tags and is kept by each extension holds when the rounds are over. -/
theorem saturate_induction {P : List (String × Variant) → Prop}
    (hstep : ∀ tags place s root d, P tags → (place, s) ∈ w.schemas →
      tags.lookup place = none → w.extended? tags s = some (root, d) →
        P ((place, w.tagOf root d place) :: tags)) (rounds : Nat) (h : P tags) :
    P (w.saturate rounds tags) := by
  induction rounds generalizing tags with
  | zero => exact h
  | succ rounds ih =>
    rw [saturate]
    split
    · exact round_induction hstep h
    · exact ih (round_induction hstep h)

theorem round_grows (tags : List (String × Variant)) : w.Grows tags (w.round tags) :=
  round_induction (P := w.Grows tags)
    (fun _ _ _ _ _ h hs hnew _ => h.trans (Grows.tag hs hnew _)) (Grows.refl tags)

/-- No schema without a tag extends anything. -/
def Closed (w : Source) (tags : List (String × Variant)) : Prop :=
  ∀ place s, (place, s) ∈ w.schemas → tags.lookup place = none → w.extended? tags s = none

theorem extendBy_suffix (tags : List (String × Variant)) (entry : String × Schema) :
    tags <:+ w.extendBy tags entry := by
  obtain ⟨place, s⟩ := entry
  obtain ⟨heq, -⟩ | ⟨root, d, -, -, heq⟩ := extendBy_cases tags place s (w := w)
  · exact ⟨[], heq.symm⟩
  · exact ⟨[_], heq.symm⟩

theorem foldl_extendBy_suffix (list : List (String × Schema)) (tags : List (String × Variant)) :
    tags <:+ list.foldl w.extendBy tags := by
  induction list generalizing tags with
  | nil => exact List.suffix_refl tags
  | cons entry rest ih => exact (extendBy_suffix tags entry).trans (ih _)

/-- A round without a new tag leaves the tags as they are, and no rule applies. -/
theorem closed_of_round (h : (w.round tags).length = tags.length) :
    w.round tags = tags ∧ w.Closed tags := by
  have hround : w.round tags = tags := ((round_grows tags).suffix.eq_of_length h.symm).symm
  refine ⟨hround, ?_⟩
  suffices hall : ∀ list : List (String × Schema), list.foldl w.extendBy tags = tags →
      ∀ entry ∈ list, w.extendBy tags entry = tags by
    intro place s hs hnew
    have hsame := hall w.schemas hround (place, s) hs
    obtain ⟨-, hsome | hnone⟩ | ⟨root, d, -, -, heq⟩ := extendBy_cases tags place s (w := w)
    · rw [hnew] at hsome
      cases hsome
    · exact hnone
    · rw [heq] at hsame
      exact absurd (congrArg List.length hsame) (by simp)
  intro list
  induction list with
  | nil => exact fun _ => nofun
  | cons entry rest ih =>
    intro hfold
    rw [List.foldl_cons] at hfold
    -- the tags after the first schema lie between those before and those after the round
    have hfirst : w.extendBy tags entry = tags := by
      have hsuffix := foldl_extendBy_suffix (w := w) rest (w.extendBy tags entry)
      rw [hfold] at hsuffix
      exact hsuffix.sublist.antisymm (extendBy_suffix tags entry).sublist
    rw [hfirst] at hfold
    intro entry' hmem
    rcases List.mem_cons.mp hmem with rfl | hrest
    · exact hfirst
    · exact ih hfold entry' hrest

/-- With more rounds than untagged schemas, the last round finds nothing, and further rounds would
find nothing either. -/
theorem saturate_closed (rounds : Nat) (tags : List (String × Variant))
    (h : w.untagged tags < rounds) :
    w.Closed (w.saturate rounds tags) ∧
      ∀ extra, w.saturate (rounds + extra) tags = w.saturate rounds tags := by
  induction rounds generalizing tags with
  | zero => exact absurd h (Nat.not_lt_zero _)
  | succ rounds ih =>
    by_cases hround : (w.round tags).length = tags.length
    · obtain ⟨hsame, hclosed⟩ := closed_of_round hround
      have hdone : ∀ more, w.saturate (more + 1) tags = tags := fun more => by
        rw [saturate, if_pos hround, hsame]
      refine ⟨by rwa [hdone], fun extra => ?_⟩
      rw [Nat.add_right_comm, hdone, hdone]
    · have hnext : ∀ more, w.saturate (more + 1) tags = w.saturate more (w.round tags) :=
        fun more => by rw [saturate, if_neg hround]
      have hgrows := round_grows (w := w) tags
      have hlonger := hgrows.suffix.length_le
      have hfewer := hgrows.fewer
      obtain ⟨hclosed, hextra⟩ := ih (w.round tags) (by omega)
      refine ⟨by rwa [hnext], fun extra => ?_⟩
      rw [Nat.add_right_comm, hnext, hnext, hextra]

/-- The tags that the alternatives of roots have before the first round. -/
def seeds (w : Source) : List (String × Variant) := w.alternatives.foldl w.claim []

/-- What holds of no tags and is kept by each alternative of a root holds before the first round. -/
theorem seeds_induction {P : List (String × Variant) → Prop} (hnil : P [])
    (hstep : ∀ tags place root d, P tags → (place, root, d) ∈ w.alternatives →
      tags.lookup place = none → P ((place, w.tagOf root d place) :: tags)) : P w.seeds := by
  suffices hall : ∀ (list : List (String × String × Discriminator))
      (tags : List (String × Variant)), list ⊆ w.alternatives → P tags →
        P (list.foldl w.claim tags) from
    hall w.alternatives [] (List.Subset.refl _) hnil
  intro list
  induction list with
  | nil => exact fun _ _ h => h
  | cons candidate rest ih =>
    intro tags hsub h
    obtain ⟨place, root, d⟩ := candidate
    obtain ⟨hmem, hrest⟩ := List.cons_subset.mp hsub
    rw [List.foldl_cons]
    apply ih _ hrest
    cases hplace : tags.lookup place with
    | some v =>
      simp only [claim, hplace, Option.isSome_some, if_true]
      exact h
    | none =>
      rw [claim_of_none hplace]
      exact hstep tags place root d h hmem hplace

theorem claim_kept {candidate : String × String × Discriminator} {place : String}
    (h : (tags.lookup place).isSome = true) :
    ((w.claim tags candidate).lookup place).isSome = true := by
  unfold claim
  split
  · exact h
  · rename_i hnew
    obtain ⟨v, hv⟩ := Option.isSome_iff_exists.mp h
    rw [lookup_cons_of_none (Option.not_isSome_iff_eq_none.mp hnew) hv]
    rfl

theorem foldl_claim_kept (list : List (String × String × Discriminator)) {place : String}
    (h : (tags.lookup place).isSome = true) :
    ((list.foldl w.claim tags).lookup place).isSome = true := by
  induction list generalizing tags with
  | nil => exact h
  | cons candidate rest ih => exact ih (claim_kept h)

/-- Every alternative of a root is tagged before the first round. -/
theorem seeds_complete {place root : String} {d : Discriminator}
    (h : (place, root, d) ∈ w.alternatives) : (w.seeds.lookup place).isSome = true := by
  obtain ⟨before, after, hsplit⟩ := List.append_of_mem h
  rw [seeds, hsplit, List.foldl_append, List.foldl_cons]
  apply foldl_claim_kept
  unfold claim
  split
  · assumption
  · simp

/-- What holds of no tags, is kept by each alternative of a root, and after those by each extension,
holds of the variants. -/
theorem variants_induction {P : List (String × Variant) → Prop} (hnil : P [])
    (hseed : ∀ tags place root d, P tags → (place, root, d) ∈ w.alternatives →
      tags.lookup place = none → P ((place, w.tagOf root d place) :: tags))
    (hstep : ∀ tags place s root d, P tags → (place, s) ∈ w.schemas →
      tags.lookup place = none → w.extended? tags s = some (root, d) →
        P ((place, w.tagOf root d place) :: tags)) : P w.variants :=
  saturate_induction hstep _ (seeds_induction hnil hseed)

theorem untagged_le (tags : List (String × Variant)) : w.untagged tags ≤ w.schemas.length :=
  List.length_filter_le _ _

/-- There are enough rounds. -/
theorem seeds_settled (w : Source) : w.Closed w.variants ∧
    ∀ extra, w.saturate (w.schemas.length + 1 + extra) w.seeds = w.variants :=
  saturate_closed _ w.seeds (Nat.lt_succ_of_le (untagged_le w.seeds))

theorem variants_grow (w : Source) : w.Grows w.seeds w.variants :=
  saturate_induction (P := w.Grows w.seeds)
    (fun _ _ _ _ _ h hs hnew _ => h.trans (Grows.tag hs hnew _)) _ (Grows.refl w.seeds)

/-- What the alternatives of roots have, and an extension has if the tags before it have it, every
variant has. The tags before an extension are some of the variants and all of the seeds. -/
theorem variants_forall {Q : String → Variant → Prop}
    (hseed : ∀ place root d, (place, root, d) ∈ w.alternatives → Q place (w.tagOf root d place))
    (hstep : ∀ tags place s root d, tags ⊆ w.variants → w.Grows w.seeds tags →
      (∀ p v, (p, v) ∈ tags → Q p v) → (place, s) ∈ w.schemas → tags.lookup place = none →
        w.extended? tags s = some (root, d) → Q place (w.tagOf root d place))
    {place : String} {v : Variant} (h : (place, v) ∈ w.variants) : Q place v := by
  have hcons : ∀ {tags : List (String × Variant)} {place : String} {u : Variant},
      (∀ p v, (p, v) ∈ tags → Q p v) → Q place u → ∀ p v, (p, v) ∈ (place, u) :: tags → Q p v := by
    intro tags place u htags hu p v hv
    rcases List.mem_cons.mp hv with heq | hold
    · obtain ⟨rfl, rfl⟩ := Prod.mk.inj heq
      exact hu
    · exact htags p v hold
  have hseeds : ∀ p v, (p, v) ∈ w.seeds → Q p v :=
    seeds_induction (P := fun tags => ∀ p v, (p, v) ∈ tags → Q p v) nofun
      fun _ place root d ih hmem _ => hcons ih (hseed place root d hmem)
  have hall : w.Grows w.seeds w.variants ∧
      (w.variants ⊆ w.variants → ∀ p v, (p, v) ∈ w.variants → Q p v) := by
    refine saturate_induction (P := fun tags => w.Grows w.seeds tags ∧
      (tags ⊆ w.variants → ∀ p v, (p, v) ∈ tags → Q p v)) ?_ _ ⟨Grows.refl _, fun _ => hseeds⟩
    rintro tags place s root d ⟨hgrows, ih⟩ hs hnew hlead
    refine ⟨hgrows.trans (Grows.tag hs hnew _), fun hsub => ?_⟩
    have hrest := (List.cons_subset.mp hsub).2
    exact hcons (ih hrest) (hstep tags place s root d hrest hgrows (ih hrest) hs hnew hlead)
  exact hall.2 (List.Subset.refl _) place v h

theorem distinct_cons {place : String} {v : Variant} (h : (tags.map (·.1)).Nodup)
    (hnew : tags.lookup place = none) : (((place, v) :: tags).map (·.1)).Nodup := by
  refine List.nodup_cons.mpr ⟨?_, h⟩
  intro hmem
  obtain ⟨⟨place', v'⟩, hin, rfl⟩ := List.mem_map.mp hmem
  have hsome := lookup_isSome_of_mem hin
  rw [hnew] at hsome
  cases hsome

/-- No place is tagged twice. -/
theorem variants_distinct (w : Source) : (w.variants.map (·.1)).Nodup :=
  variants_induction (P := fun tags => (tags.map (·.1)).Nodup) List.nodup_nil
    (fun _ _ _ _ h _ hnew => distinct_cons h hnew)
    (fun _ _ _ _ _ h _ hnew _ => distinct_cons h hnew)

theorem mem_roots {place : String} {d : Discriminator} :
    (place, d) ∈ w.roots ↔ ∃ s, (place, s) ∈ w.schemas ∧ s.named? = some d := by
  simp only [roots, List.mem_reverse, List.mem_filterMap, rootPair?, Option.map_eq_some_iff]
  constructor
  · rintro ⟨⟨place', s⟩, hs, d', hd, heq⟩
    cases heq
    exact ⟨s, hs, hd⟩
  · rintro ⟨s, hs, hd⟩
    exact ⟨(place, s), hs, d, hd, rfl⟩

theorem mem_alternatives {target place : String} {d : Discriminator} :
    (target, place, d) ∈ w.alternatives ↔ ∃ s member, (place, s) ∈ w.schemas ∧
      s.named? = some d ∧ some member ∈ s.oneOf.getD [] ++ s.anyOf.getD [] ∧
        member.isRef = true ∧ target = w.targetOf member.ref := by
  constructor
  · intro h
    obtain ⟨⟨place', s⟩, hs, hin⟩ := List.mem_flatMap.mp h
    simp only [alternativesAt] at hin
    cases hd : s.named? with
    | none =>
      rw [hd] at hin
      cases hin
    | some d' =>
      rw [hd] at hin
      obtain ⟨member, hmember, hcandidate⟩ := List.mem_filterMap.mp hin
      obtain ⟨t, ht, heq⟩ := Option.map_eq_some_iff.mp hcandidate
      obtain ⟨rfl, href⟩ := Option.filter_eq_some_iff.mp ht
      simp only [Prod.mk.injEq] at heq
      obtain ⟨rfl, rfl, rfl⟩ := heq
      exact ⟨s, t, hs, hd, hmember, href, rfl⟩
  · rintro ⟨s, member, hs, hd, hmember, href, rfl⟩
    refine List.mem_flatMap.mpr ⟨(place, s), hs, ?_⟩
    simp only [alternativesAt, hd, Option.elim_some]
    refine List.mem_filterMap.mpr ⟨some member, hmember, ?_⟩
    simp only [candidate?, Option.filter_some, href, if_true, Option.map_some]

end Source

namespace Discriminators

variable {w : Source} {found : Discriminators}

/-- The schema at a place has an inline member of `allOf` that declares the discriminator. -/
def Inline (w : Source) (place : String) (d : Discriminator) : Prop :=
  ∃ s member, (place, s) ∈ w.schemas ∧ s.isRef = false ∧ some member ∈ s.allOf.getD [] ∧
    member.isRef = false ∧ declared? member = some d

/-- The schema at a place has a member of `allOf` that refers to the schema at `target`. -/
def Extends (w : Source) (place target : String) : Prop :=
  ∃ s member, (place, s) ∈ w.schemas ∧ s.isRef = false ∧ some member ∈ s.allOf.getD [] ∧
    member.isRef = true ∧ target = w.targetOf member.ref

/-- The least set of places closed under the rules for variants, given what has been found. -/
inductive Tagged (w : Source) (found : Discriminators) : String → Prop where
  | alternative {place : String} {s member : Schema} {d : Discriminator} :
    (place, s) ∈ w.schemas → s.named? = some d →
      some member ∈ s.oneOf.getD [] ++ s.anyOf.getD [] → member.isRef = true →
        Tagged w found (w.targetOf member.ref)
  | inline {place : String} {d : Discriminator} : Inline w place d → Tagged w found place
  | root {place target : String} {d : Discriminator} :
    Extends w place target → (target, d) ∈ found.roots → Tagged w found place
  | variant {place target : String} {v : Variant} {d : Discriminator} :
    Extends w place target → Tagged w found target → (target, v) ∈ found.variants →
      (v.root, d) ∈ found.roots → Tagged w found place

/-- The roots and variants are those of the least closed tagging, and each tag comes from the
discriminator it should come from. -/
structure LeastTagging (w : Source) (found : Discriminators) : Prop where
  roots : ∀ place d, (place, d) ∈ found.roots ↔ ∃ s, (place, s) ∈ w.schemas ∧ s.named? = some d
  distinct : (found.variants.map (·.1)).Nodup
  variants : ∀ place, (∃ v, (place, v) ∈ found.variants) ↔ Tagged w found place
  tags : ∀ place v, (place, v) ∈ found.variants → ∃ d,
    ((v.root, d) ∈ found.roots ∨ v.root = "" ∧ Inline w place d) ∧
      v.propertyName = d.propertyName ∧
      (w.namesOf d place ≠ [] → v.values = w.namesOf d place ∧ v.mapped = true) ∧
      (w.namesOf d place = [] → v.values = [Reference.lastToken place] ∧ v.mapped = false)

/-- A member of `allOf` of a schema leads to a root by one of the rules. -/
theorem extended_cases {tags : List (String × Variant)} {place : String} {s : Schema}
    (hs : (place, s) ∈ w.schemas) {root : String} {d : Discriminator}
    (h : w.extended? tags s = some (root, d)) :
    root = "" ∧ Inline w place d ∨ Extends w place root ∧ (root, d) ∈ w.roots ∨
      ∃ target v, Extends w place target ∧ tags.lookup target = some v ∧ root = v.root ∧
        (root, d) ∈ w.roots := by
  unfold Source.extended? at h
  split at h
  · cases h
  · rename_i href
    have href := Bool.eq_false_iff.mpr href
    obtain ⟨member, hmember, hlead⟩ := List.exists_of_findSome?_eq_some h
    obtain ⟨m, rfl, ⟨hm, rfl, hd⟩ | ⟨hm, rfl, hd⟩ | ⟨hm, -, v, hv, rfl, hd⟩⟩ :=
      Source.lead_cases hlead
    · exact .inl ⟨rfl, s, m, hs, href, hmember, hm, hd⟩
    · exact .inr (.inl ⟨⟨s, m, hs, href, hmember, hm, rfl⟩, lookup_mem hd⟩)
    · exact .inr (.inr ⟨_, v, ⟨s, m, hs, href, hmember, hm, rfl⟩, hv, rfl, lookup_mem hd⟩)

/-- Every tag was given by a rule. -/
theorem tagged_of_variant {place : String} {v : Variant} (h : (place, v) ∈ w.variants) :
    Tagged w ⟨w.roots, w.variants⟩ place := by
  refine Source.variants_forall (Q := fun p _ => Tagged w ⟨w.roots, w.variants⟩ p) ?_ ?_ h
  · intro place root d hmem
    obtain ⟨s, member, hs, hd, hmember, href, rfl⟩ := Source.mem_alternatives.mp hmem
    exact .alternative hs hd hmember href
  · intro tags place s root d hsub _ htags hs _ hlead
    obtain ⟨-, hinline⟩ | ⟨hext, hroot⟩ | ⟨target, v, hext, hv, rfl, hroot⟩ :=
      extended_cases hs hlead
    · exact .inline hinline
    · exact .root hext hroot
    · have hmem := lookup_mem hv
      exact .variant hext (htags target v hmem) (hsub hmem) hroot

/-- A schema that extends something by one of the rules is tagged in the end. -/
theorem variant_of_lead {place : String} {s member : Schema} (hs : (place, s) ∈ w.schemas)
    (href : s.isRef = false) (hmember : some member ∈ s.allOf.getD [])
    (hlead : w.lead? w.variants (some member) ≠ none) : ∃ v, (place, v) ∈ w.variants := by
  cases hplace : w.variants.lookup place with
  | some v => exact ⟨v, lookup_mem hplace⟩
  | none =>
    have hnone := w.seeds_settled.1 place s hs hplace
    simp only [Source.extended?, href, Bool.false_eq_true, if_false] at hnone
    exact absurd (List.findSome?_eq_none_iff.mp hnone _ hmember) hlead

/-- Where a rule applies there is a tag. -/
theorem variant_of_tagged {place : String} (h : Tagged w ⟨w.roots, w.variants⟩ place) :
    ∃ v, (place, v) ∈ w.variants := by
  cases h with
  | @alternative root s member d hs hd hmember href =>
    have hseed := Source.seeds_complete
      (Source.mem_alternatives.mpr ⟨s, member, hs, hd, hmember, href, rfl⟩)
    obtain ⟨v, hv⟩ := Option.isSome_iff_exists.mp hseed
    exact ⟨v, lookup_mem (w.variants_grow.kept _ v hv)⟩
  | inline h =>
    obtain ⟨s, member, hs, href, hmember, hm, hd⟩ := h
    apply variant_of_lead hs href hmember
    simp only [Source.lead?, Option.bind_some, hm, Bool.false_eq_true, if_false, hd]
    simp
  | root hext hroot =>
    obtain ⟨s, member, hs, href, hmember, hm, rfl⟩ := hext
    obtain ⟨d', hd⟩ := Option.isSome_iff_exists.mp (lookup_isSome_of_mem hroot)
    apply variant_of_lead hs href hmember
    simp only [Source.lead?, Option.bind_some, hm, if_true, hd]
    simp
  | variant hext _ hv hroot =>
    obtain ⟨s, member, hs, href, hmember, hm, rfl⟩ := hext
    obtain ⟨d', hd⟩ := Option.isSome_iff_exists.mp (lookup_isSome_of_mem hroot)
    have hlookup := lookup_of_mem w.variants_distinct hv
    apply variant_of_lead hs href hmember
    simp only [Source.lead?, Option.bind_some, hm, if_true, hlookup, hd]
    split <;> simp

theorem tagOf_spec (w : Source) (root : String) (d : Discriminator) (place : String) :
    (w.tagOf root d place).propertyName = d.propertyName ∧
      (w.namesOf d place ≠ [] → (w.tagOf root d place).values = w.namesOf d place ∧
        (w.tagOf root d place).mapped = true) ∧
      (w.namesOf d place = [] → (w.tagOf root d place).values = [Reference.lastToken place] ∧
        (w.tagOf root d place).mapped = false) := by
  unfold Source.tagOf
  cases hnames : w.namesOf d place with
  | nil => exact ⟨rfl, absurd rfl, fun _ => ⟨rfl, rfl⟩⟩
  | cons name rest => exact ⟨rfl, fun _ => ⟨rfl, rfl⟩, nofun⟩

/-- Every tag comes from a root, or from an inline member of `allOf`. -/
theorem variant_origin {place : String} {v : Variant} (h : (place, v) ∈ w.variants) :
    ∃ d, ((v.root, d) ∈ w.roots ∨ v.root = "" ∧ Inline w place d) ∧
      v = w.tagOf v.root d place := by
  refine Source.variants_forall (Q := fun place v => ∃ d, ((v.root, d) ∈ w.roots ∨
    v.root = "" ∧ Inline w place d) ∧ v = w.tagOf v.root d place) ?_ ?_ h
  · intro place root d hmem
    obtain ⟨s, -, hs, hd, -⟩ := Source.mem_alternatives.mp hmem
    simp only [Source.tagOf_root]
    exact ⟨d, .inl (Source.mem_roots.mpr ⟨s, hs, hd⟩), rfl⟩
  · intro tags place s root d _ _ _ hs _ hlead
    simp only [Source.tagOf_root]
    obtain ⟨rfl, hinline⟩ | ⟨-, hroot⟩ | ⟨-, -, -, -, -, hroot⟩ := extended_cases hs hlead
    · exact ⟨d, .inr ⟨rfl, hinline⟩, rfl⟩
    · exact ⟨d, .inl hroot, rfl⟩
    · exact ⟨d, .inl hroot, rfl⟩

theorem leastTagging (w : Source) : LeastTagging w ⟨w.roots, w.variants⟩ where
  roots _ _ := Source.mem_roots
  distinct := w.variants_distinct
  variants _ := ⟨fun ⟨_, h⟩ => tagged_of_variant h, variant_of_tagged⟩
  tags place v h := by
    obtain ⟨d, horigin, hv⟩ := variant_origin h
    obtain ⟨hproperty, hmapped, hplain⟩ := tagOf_spec w v.root d place
    rw [← hv] at hproperty hmapped hplain
    exact ⟨d, horigin, hproperty, hmapped, hplain⟩

/-- The bounds on the scan are no bounds: longer chains of references and further rounds change
nothing. -/
structure Exhaustive (w : Source) (found : Discriminators) : Prop where
  target : ∀ ref, w.Asks ref → ((Resolver.target ref).run w.resolver).1 = w.targetOf ref
  chains : ∀ ref, w.Asks ref → ∀ steps, w.resolver.chainBound ≤ steps →
    ((Resolver.followTarget steps [] (Reference.canonical ref)).run w.resolver).1 = w.targetOf ref
  rounds : ∀ rounds, w.schemas.length < rounds →
    ((w.schemas.foldlM addRoot {} >>= extend w.schemas rounds).run w.resolver).1 = found

/-- In a document whose references stay in it, the scan runs to its end and finds the least closed
tagging. -/
theorem scan_least_tagging {w : Source} (hlocal : w.Local) :
    LeastTagging w (scan.run w.resolver).1 ∧ Exhaustive w (scan.run w.resolver).1 := by
  have hu := Source.uniform_of_local hlocal
  have hscan : (scan.run w.resolver).1 = ⟨w.roots, w.variants⟩ :=
    (Source.scan_answers hu w.resolver w.scanning_resolver).2
  rw [hscan]
  refine ⟨leastTagging w, ?_, ?_, ?_⟩
  · exact fun ref hasks => (Source.target_answers hu hasks w.resolver w.scanning_resolver).2
  · intro ref hasks steps hsteps
    obtain ⟨extra, rfl⟩ := Nat.exists_eq_add_of_le hsteps
    rw [← Source.chainEnd_eq_targetOf hlocal hasks extra]
    exact (Source.followTarget_answers hu _ [] _ (Source.looks_canonical hasks) _
      w.scanning_resolver).2
  · intro rounds hrounds
    obtain ⟨extra, rfl⟩ := Nat.exists_eq_add_of_le hrounds
    have hanswers := Source.Answers.bind (Source.addRoots_answers hu)
      (Source.extend_answers hu (w.schemas.length + 1 + extra) w.seeds)
    rw [(hanswers w.resolver w.scanning_resolver).2]
    exact congrArg (Discriminators.mk w.roots) (w.seeds_settled.2 extra)

/-- A root whose mapping names a schema that extends it, and one that extends that schema. -/
def felineDocument : Document where
  openapi := "3.1.0"
  components := some {
    schemas := some (.ofList [
      ("Lion", some { allOf := some [some { ref := "#/components/schemas/Cat" }] }),
      ("Cat", some { allOf := some [some { ref := "#/components/schemas/Pet" }] }),
      ("Pet", some {
        discriminator := some {
          propertyName := "kind", mapping := some (.ofList [("feline", "Cat")]) } })]) }

theorem reaches_felineDocument {o : Object} (h : Source.Reaches ⟨felineDocument, none⟩ o) :
    ∃ s, o = .schema s ∧
      s.ref ∈ ["", "#/components/schemas/Cat", "#/components/schemas/Pet"] ∧
      ∀ d, s.discriminator = some d → entriesOf d.mapping = [("feline", "Cat")] := by
  let plain (o : Object) : Prop :=
    o.parts ⊆ [.schema { ref := "#/components/schemas/Cat" },
      .schema { ref := "#/components/schemas/Pet" }] ∧
    ∃ s, o = .schema s ∧
      s.ref ∈ ["", "#/components/schemas/Cat", "#/components/schemas/Pet"] ∧
      ∀ d, s.discriminator = some d → entriesOf d.mapping = [("feline", "Cat")]
  have hplain : plain o := by
    refine Source.reaches_of_local ?_ ?_ h
    · intro o ho
      change o ∈ [_, _, _] at ho
      simp only [List.mem_cons, List.not_mem_nil, or_false] at ho
      rcases ho with rfl | rfl | rfl
      · refine ⟨?_, _, rfl, List.mem_cons_self, nofun⟩
        exact List.cons_subset.mpr ⟨List.mem_cons_self, List.nil_subset _⟩
      · refine ⟨?_, _, rfl, List.mem_cons_self, nofun⟩
        exact List.cons_subset.mpr
          ⟨List.mem_cons_of_mem _ List.mem_cons_self, List.nil_subset _⟩
      · refine ⟨List.nil_subset _, _, rfl, List.mem_cons_self, ?_⟩
        rintro d ⟨⟩
        rfl
    · intro o ho inner hinner
      have hmem := ho.1 hinner
      simp only [List.mem_cons, List.not_mem_nil, or_false] at hmem
      rcases hmem with rfl | rfl
      · exact ⟨List.nil_subset _, _, rfl, by simp, nofun⟩
      · exact ⟨List.nil_subset _, _, rfl, by simp, nofun⟩
  exact hplain.2

theorem local_felineDocument : Source.Local ⟨felineDocument, none⟩ := by
  intro ref hasks
  have href : ref ∈ ["", "#", "#/components/schemas/Cat", "#/components/schemas/Pet"] := by
    refine @Source.asks_of_reaches _
      (· ∈ ["", "#", "#/components/schemas/Cat", "#/components/schemas/Pet"]) ?_ ?_ ?_ ref hasks
    · intro o ho
      obtain ⟨s, rfl, href, -⟩ := reaches_felineDocument ho
      simp only [List.mem_cons, List.not_mem_nil, or_false] at href ⊢
      exact href.imp id .inr
    · intro s d name ref hs hd hmem
      obtain ⟨_, ⟨⟩, -, hmapping⟩ := reaches_felineDocument hs
      rw [hmapping d hd, List.mem_singleton] at hmem
      cases hmem
      decide
    · intro ref href
      simp only [List.mem_cons, List.not_mem_nil, or_false] at href
      rcases href with rfl | rfl | rfl | rfl <;> decide
  simp only [List.mem_cons, List.not_mem_nil, or_false] at href
  rcases href with rfl | rfl | rfl | rfl <;> decide

/-- The schema that comes first is tagged last, through the one it extends. -/
theorem scan_least_tagging_felines :
    let w : Source := ⟨felineDocument, none⟩
    (("#/components/schemas/Cat", ⟨"kind", ["feline"], "#/components/schemas/Pet", true⟩) ∈
      (scan.run w.resolver).1.variants) ∧
    Tagged w (scan.run w.resolver).1 "#/components/schemas/Lion" ∧
    LeastTagging w (scan.run w.resolver).1 ∧ Exhaustive w (scan.run w.resolver).1 := by
  intro w
  have hleast := scan_least_tagging local_felineDocument
  have hlion : ("#/components/schemas/Lion",
      ⟨"kind", ["Lion"], "#/components/schemas/Pet", false⟩) ∈
        (scan.run w.resolver).1.variants := by decide +kernel
  exact ⟨by decide +kernel, (hleast.1.variants _).mp ⟨_, hlion⟩, hleast⟩

end Discriminators

end ApiTypes
