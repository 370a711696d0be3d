import ApiTypes.Proofs.LeastTagging
import ApiTypes.Proofs.Rearranged
import ApiTypes.Proofs.Spelling

/-!
What the order of schemas decides in the scan for discriminators. A schema gets its first tag for
good, so a schema that several discriminators claim gets the tag of the one that comes first. Where
there is one claim only, and one for each schema that the tag comes through, the order decides
nothing.
-/

namespace ApiTypes

open Discriminators (declared?)

namespace Source

variable {w w' : Source}

/-- A root lists the place among its alternatives. -/
def Listed (w : Source) (place : String) : Prop := ∃ root d, (place, root, d) ∈ w.alternatives

/-- A member of `allOf` that leads to a root before any extension has been tagged. -/
def Immediate (w : Source) (member : Schema) : Prop :=
  if member.isRef then
    (w.roots.lookup (w.targetOf member.ref)).isSome ∨ w.Listed (w.targetOf member.ref)
  else (declared? member).isSome

/-- A member of `allOf` of the schema at a place that may decide its tag: no member before it leads
to a root at once. -/
def Counts (w : Source) (place : String) (member : Schema) : Prop :=
  ¬w.Listed place ∧ ∃ s before after, (place, s) ∈ w.schemas ∧ s.isRef = false ∧
    s.allOf.getD [] = before ++ some member :: after ∧ ∀ b, some b ∈ before → ¬w.Immediate b

/-- The discriminators that the tag of a place can come from. -/
inductive Claims (w : Source) : String → String → Discriminator → Prop where
  | listed {place root : String} {d : Discriminator} :
    (place, root, d) ∈ w.alternatives → Claims w place root d
  | inline {place : String} {member : Schema} {d : Discriminator} :
    w.Counts place member → member.isRef = false → declared? member = some d → Claims w place "" d
  | root {place : String} {member : Schema} {d : Discriminator} :
    w.Counts place member → member.isRef = true →
      w.roots.lookup (w.targetOf member.ref) = some d → Claims w place (w.targetOf member.ref) d
  | variant {place root : String} {member : Schema} {d d' : Discriminator} :
    w.Counts place member → member.isRef = true → w.roots.lookup (w.targetOf member.ref) = none →
      Claims w (w.targetOf member.ref) root d' → w.roots.lookup root = some d →
      Claims w place root d

/-- The places that the tag of a place can come through, itself among them. -/
inductive Depends (w : Source) : String → String → Prop where
  | self (place : String) : Depends w place place
  | step {place other : String} {member : Schema} :
    w.Counts place member → member.isRef = true → w.roots.lookup (w.targetOf member.ref) = none →
      Depends w (w.targetOf member.ref) other → Depends w place other

/-- The tag of a place can come through places that have one possible tag each. -/
def Unambiguous (w : Source) (place : String) : Prop :=
  ∀ other, w.Depends place other → ∀ root d root' d', w.Claims other root d →
    w.Claims other root' d' → w.tagOf root d other = w.tagOf root' d' other

/-- The tags before the first round come from roots. -/
theorem seeds_rooted {place : String} {v : Variant} (h : (place, v) ∈ w.seeds) :
    (w.roots.lookup v.root).isSome = true := by
  refine seeds_induction (P := fun tags => ∀ place v, (place, v) ∈ tags →
    (w.roots.lookup v.root).isSome = true) nofun ?_ place v h
  intro tags place root d ih hmem _ place' v' hv
  rcases List.mem_cons.mp hv with heq | hold
  · obtain ⟨s, -, hs, hd, -⟩ := mem_alternatives.mp hmem
    rw [(Prod.mk.inj heq).2, tagOf_root]
    exact lookup_isSome_of_mem (mem_roots.mpr ⟨s, hs, hd⟩)
  · exact ih place' v' hold

/-- A reference to a variant of a root leads to that root. -/
theorem lead_of_variant {tags : List (String × Variant)} {m : Schema} (href : m.isRef = true)
    {v : Variant} (hv : tags.lookup (w.targetOf m.ref) = some v)
    (hroot : (w.roots.lookup v.root).isSome = true) : w.lead? tags (some m) ≠ none := by
  obtain ⟨d, hd⟩ := Option.isSome_iff_exists.mp hroot
  simp only [lead?, Option.bind_some, href, if_true, hv, hd]
  split <;> simp

theorem lead_of_immediate {tags : List (String × Variant)} (hgrows : w.Grows w.seeds tags)
    {m : Schema} (h : w.Immediate m) : w.lead? tags (some m) ≠ none := by
  unfold Immediate at h
  split at h
  · rename_i href
    rcases h with hroot | ⟨root, d, hlisted⟩
    · obtain ⟨d, hd⟩ := Option.isSome_iff_exists.mp hroot
      simp [lead?, href, hd]
    · obtain ⟨v, hv⟩ := Option.isSome_iff_exists.mp (seeds_complete hlisted)
      exact lead_of_variant href (hgrows.kept _ v hv) (seeds_rooted (lookup_mem hv))
  · rename_i href
    obtain ⟨d, hd⟩ := Option.isSome_iff_exists.mp h
    simp [lead?, href, hd]

theorem not_listed_of_untagged {tags : List (String × Variant)} (hgrows : w.Grows w.seeds tags)
    {place : String} (hnew : tags.lookup place = none) : ¬w.Listed place := by
  rintro ⟨root, d, hlisted⟩
  obtain ⟨v, hv⟩ := Option.isSome_iff_exists.mp (seeds_complete hlisted)
  rw [hgrows.kept _ v hv] at hnew
  cases hnew

/-- The member of `allOf` that decides in a round is one that counts. -/
theorem counts_of_extended {tags : List (String × Variant)} (hgrows : w.Grows w.seeds tags)
    {place : String} {s : Schema} (hs : (place, s) ∈ w.schemas) (hnew : tags.lookup place = none)
    {root : String} {d : Discriminator} (h : w.extended? tags s = some (root, d)) :
    ∃ m, w.Counts place m ∧ some m ∈ s.allOf.getD [] ∧ s.isRef = false ∧
      (m.isRef = false ∧ root = "" ∧ declared? m = some d ∨
        m.isRef = true ∧ root = w.targetOf m.ref ∧ w.roots.lookup root = some d ∨
        m.isRef = true ∧ w.roots.lookup (w.targetOf m.ref) = none ∧
          ∃ v, tags.lookup (w.targetOf m.ref) = some v ∧ root = v.root ∧
            w.roots.lookup root = some d) := by
  unfold extended? at h
  split at h
  · cases h
  · rename_i href
    have href := Bool.eq_false_iff.mpr href
    obtain ⟨before, member, after, hsplit, hlead, hbefore⟩ := List.findSome?_eq_some_iff.mp h
    obtain ⟨m, rfl, hcases⟩ := lead_cases hlead
    refine ⟨m, ⟨not_listed_of_untagged hgrows hnew, s, before, after, hs, href, hsplit, ?_⟩,
      by simp [hsplit], href, hcases⟩
    exact fun b hb himmediate => lead_of_immediate hgrows himmediate (hbefore _ hb)

/-- The tag of a place comes from a discriminator that claims it. -/
def Claimed (w : Source) (place : String) (v : Variant) : Prop :=
  ∃ root d, w.Claims place root d ∧ v = w.tagOf root d place

theorem claims_of_extended {tags : List (String × Variant)} (hgrows : w.Grows w.seeds tags)
    (htags : ∀ p v, (p, v) ∈ tags → w.Claimed p v) {place : String} {s : Schema}
    (hs : (place, s) ∈ w.schemas) (hnew : tags.lookup place = none) {root : String}
    {d : Discriminator} (h : w.extended? tags s = some (root, d)) : w.Claims place root d := by
  obtain ⟨m, hcounts, -, -, ⟨href, hroot, hd⟩ | ⟨href, hroot, hd⟩ |
    ⟨href, hnone, v, hv, hroot, hd⟩⟩ := counts_of_extended hgrows hs hnew h
  · rw [hroot]
    exact .inline hcounts href hd
  · rw [hroot] at hd ⊢
    exact .root hcounts href hd
  · obtain ⟨root', d', hclaims, htag⟩ := htags _ v (lookup_mem hv)
    rw [htag, tagOf_root] at hroot
    rw [hroot] at hd ⊢
    exact .variant hcounts href hnone hclaims hd

theorem claims_of_variant {place : String} {v : Variant} (h : (place, v) ∈ w.variants) :
    w.Claimed place v := by
  refine variants_forall ?_ ?_ h
  · exact fun place root d hmem => ⟨root, d, .listed hmem, rfl⟩
  · intro tags place s root d _ hgrows ih hs hnew hextended
    exact ⟨root, d, claims_of_extended hgrows ih hs hnew hextended, rfl⟩

/-- Two sources with the same schemas and roots, in which references lead to the same places. -/
structure Shuffled (w w' : Source) : Prop where
  schemas : ∀ place s, (place, s) ∈ w.schemas ↔ (place, s) ∈ w'.schemas
  roots : ∀ place, w.roots.lookup place = w'.roots.lookup place
  target : ∀ ref, w.targetOf ref = w'.targetOf ref

namespace Shuffled

theorem symm (h : Shuffled w w') : Shuffled w' w where
  schemas place s := (h.schemas place s).symm
  roots place := (h.roots place).symm
  target ref := (h.target ref).symm

theorem tagOf (h : Shuffled w w') (root : String) (d : Discriminator) (place : String) :
    w.tagOf root d place = w'.tagOf root d place := by
  have hnames : w.namesOf d place = w'.namesOf d place := by
    simp only [namesOf, h.target]
  simp only [Source.tagOf, hnames]

theorem alternatives (h : Shuffled w w') {place root : String} {d : Discriminator}
    (hmem : (place, root, d) ∈ w.alternatives) : (place, root, d) ∈ w'.alternatives := by
  obtain ⟨s, member, hs, hd, hmember, href, htarget⟩ := mem_alternatives.mp hmem
  rw [h.target] at htarget
  exact mem_alternatives.mpr ⟨s, member, (h.schemas _ s).mp hs, hd, hmember, href, htarget⟩

theorem listed (h : Shuffled w w') {place : String} (hlisted : w.Listed place) :
    w'.Listed place := by
  obtain ⟨root, d, hmem⟩ := hlisted
  exact ⟨root, d, h.alternatives hmem⟩

theorem immediate (h : Shuffled w w') {member : Schema} (himmediate : w.Immediate member) :
    w'.Immediate member := by
  unfold Immediate at himmediate ⊢
  split at himmediate
  · rename_i href
    rw [if_pos href, ← h.target, ← h.roots]
    exact himmediate.imp_right h.listed
  · rename_i href
    rw [if_neg href]
    exact himmediate

theorem counts (h : Shuffled w w') {place : String} {member : Schema}
    (hcounts : w.Counts place member) : w'.Counts place member := by
  obtain ⟨hlisted, s, before, after, hs, href, hsplit, hbefore⟩ := hcounts
  exact ⟨fun hlisted' => hlisted (h.symm.listed hlisted'), s, before, after,
    (h.schemas place s).mp hs, href, hsplit,
    fun b hb himmediate => hbefore b hb (h.symm.immediate himmediate)⟩

theorem claims (h : Shuffled w w') {place root : String} {d : Discriminator}
    (hclaims : w.Claims place root d) : w'.Claims place root d := by
  induction hclaims with
  | listed hmem => exact .listed (h.alternatives hmem)
  | inline hcounts href hd => exact .inline (h.counts hcounts) href hd
  | root hcounts href hd =>
    rw [h.target] at hd ⊢
    exact .root (h.counts hcounts) href (h.roots _ ▸ hd)
  | variant hcounts href hnone _ hd ih =>
    rw [h.target] at hnone ih
    exact .variant (h.counts hcounts) href (h.roots _ ▸ hnone) ih (h.roots _ ▸ hd)

theorem depends (h : Shuffled w w') {place other : String} (hdepends : w.Depends place other) :
    w'.Depends place other := by
  induction hdepends with
  | self place => exact .self place
  | step hcounts href hnone _ ih =>
    rw [h.target] at hnone ih
    exact .step (h.counts hcounts) href (h.roots _ ▸ hnone) ih

theorem unambiguous (h : Shuffled w w') {place : String} (hplace : w.Unambiguous place) :
    w'.Unambiguous place := by
  intro other hdepends root d root' d' hclaims hclaims'
  rw [← h.tagOf, ← h.tagOf]
  exact hplace other (h.symm.depends hdepends) root d root' d' (h.symm.claims hclaims)
    (h.symm.claims hclaims')

/-- What has an unambiguous tag in one and is tagged in the other has the same tag. -/
theorem tag_eq (h : Shuffled w w') {place : String} (hplace : w.Unambiguous place)
    {root : String} {d : Discriminator} (hclaims : w.Claims place root d)
    (htagged : (w'.variants.lookup place).isSome = true) :
    w'.variants.lookup place = some (w.tagOf root d place) := by
  obtain ⟨v, hv⟩ := Option.isSome_iff_exists.mp htagged
  obtain ⟨root', d', hclaims', htag⟩ := claims_of_variant (lookup_mem hv)
  rw [hv, htag, ← h.tagOf]
  exact congrArg some
    (hplace place (.self place) root' d' root d (h.symm.claims hclaims') hclaims)

/-- An unambiguous tag of one is a tag of the other. The induction follows the tags in the order in
which the first gives them: what a tag comes through was tagged before. -/
theorem variant_kept (h : Shuffled w w') {place : String} {v : Variant}
    (hv : (place, v) ∈ w.variants) (hplace : w.Unambiguous place) :
    w'.variants.lookup place = some v := by
  refine variants_forall (Q := fun place v => w.Unambiguous place →
    w'.variants.lookup place = some v) ?_ ?_ hv hplace
  · intro place root d hmem hplace
    obtain ⟨v', hv'⟩ := Option.isSome_iff_exists.mp (seeds_complete (h.alternatives hmem))
    apply h.tag_eq hplace (.listed hmem)
    rw [w'.variants_grow.kept _ v' hv']
    rfl
  · intro tags place s root d hsub hgrows ih hs hnew hextended hplace
    apply h.tag_eq hplace
    · exact claims_of_extended hgrows (fun p v hv => claims_of_variant (hsub hv)) hs hnew hextended
    obtain ⟨m, hcounts, hmember, href, hcases⟩ := counts_of_extended hgrows hs hnew hextended
    have hlead : w'.lead? w'.variants (some m) ≠ none := by
      obtain ⟨hm, -, hd⟩ | ⟨hm, hroot, hd⟩ | ⟨hm, hnone, v, hv, hroot, hd⟩ := hcases
      · simp [lead?, hm, hd]
      · apply lead_of_immediate w'.variants_grow
        rw [Immediate, if_pos hm, ← h.target, ← hroot, ← h.roots, hd]
        exact .inl rfl
      · have htarget := ih _ v (lookup_mem hv) fun other hdepends =>
          hplace other (.step hcounts hm hnone hdepends)
        rw [h.target] at htarget
        apply lead_of_variant hm htarget
        rw [← h.roots, ← hroot, hd]
        rfl
    obtain ⟨v, hv⟩ := Discriminators.variant_of_lead ((h.schemas place s).mp hs) href hmember hlead
    exact lookup_isSome_of_mem hv

theorem variants_eq (h : Shuffled w w') {place : String} (hplace : w.Unambiguous place) :
    w.variants.lookup place = w'.variants.lookup place := by
  cases hv : w.variants.lookup place with
  | some v => exact (h.variant_kept (lookup_mem hv) hplace).symm
  | none =>
    cases hv' : w'.variants.lookup place with
    | none => rfl
    | some v =>
      rw [h.symm.variant_kept (lookup_mem hv') (h.unambiguous hplace)] at hv
      cases hv

end Shuffled

end Source

/-! Documents whose shared schemas come in another order. -/

/-- The document with these shared schemas. -/
def Document.withSchemas (doc : Document) (schemas : OrderedMap (Option Schema)) : Document :=
  { doc with components := some { doc.components.getD {} with schemas := some schemas } }

theorem Index.ofDocument_shuffled (doc : Document) {first second : OrderedMap (Option Schema)}
    (hperm : first.toList.Perm second.toList) :
    KeyedRel Eq (ofDocument (doc.withSchemas first)) (ofDocument (doc.withSchemas second)) := by
  have hschemas : KeyedRel Eq
      (ofEntries ["components", "schemas"] ofSchema? (some first))
      (ofEntries ["components", "schemas"] ofSchema? (some second)) := by
    refine keyedRel_below ["components", "schemas"] (fun entry => ofSchema?_below _ entry.2)
      (fun entry => ofSchema?_below _ entry.2) (EntriesRel.of_perm hperm first.nodup_toList) ?_
    rintro name x _ rfl
    exact .refl _
  have hcomponents (rest : Index) : KeyedRel Eq
      (ofEntries ["components", "schemas"] ofSchema? (some first) ++ rest)
      (ofEntries ["components", "schemas"] ofSchema? (some second) ++ rest) :=
    hschemas.append (.refl rest)
  simp only [ofDocument, Document.withSchemas, Option.elim_some, ofComponents, List.append_assoc]
  exact hcomponents _

namespace Source

variable {w w' : Source}

theorem lookup_roots (w : Source) (place : String) :
    w.roots.lookup place = ((valuesAt place w.schemas).filterMap Schema.named?).reverse.head? := by
  rw [lookup_eq_head?, roots, valuesAt_reverse, ← valuesAt_filterMap]
  rfl

/-- The same objects under every pointer and the same external resolver are all that the answers of
the scan depend on. -/
theorem shuffled_of_index (hindex : KeyedRel Eq w.resolver.index w'.resolver.index)
    (hexternal : w.external = w'.external) : Shuffled w w' := by
  have hschemas (place : String) : valuesAt place w.schemas = valuesAt place w'.schemas := by
    have hvalues := hindex place
    rw [List.forall₂_eq_eq_eq] at hvalues
    rw [valuesAt_schemas, valuesAt_schemas, hvalues]
  have halike : w.Alike true w' :=
    ⟨fun place => (hindex place).imp fun o _ h => h ▸ Object.Alike.refl o, hexternal⟩
  refine ⟨fun place s => ?_, fun place => ?_, targetOf_alike halike⟩
  · rw [← mem_valuesAt, ← mem_valuesAt, hschemas]
  · rw [lookup_roots, lookup_roots, hschemas]

theorem shuffled_of_perm (doc : Document) (external : Option ExternalResolver)
    {first second : OrderedMap (Option Schema)} (hperm : first.toList.Perm second.toList) :
    Shuffled ⟨doc.withSchemas first, external⟩ ⟨doc.withSchemas second, external⟩ :=
  shuffled_of_index (Index.ofDocument_shuffled doc hperm) rfl

end Source

namespace Discriminators

/-- Two documents that differ in the order of their shared schemas have the same roots, and the same
tag wherever the tag is unambiguous. -/
theorem scan_order_independent (doc : Document) (external : Option ExternalResolver)
    (hexternal : ∀ e, external = some e → e.Uniform) {first second : OrderedMap (Option Schema)}
    (hperm : first.toList.Perm second.toList) (place : String) :
    let w : Source := ⟨doc.withSchemas first, external⟩
    let w' : Source := ⟨doc.withSchemas second, external⟩
    (scan.run w.resolver).1.root? place = (scan.run w'.resolver).1.root? place ∧
      (w.Unambiguous (Reference.canonical place) →
        (scan.run w.resolver).1.variant? place = (scan.run w'.resolver).1.variant? place) := by
  intro w w'
  have hshuffled : Source.Shuffled w w' := Source.shuffled_of_perm doc external hperm
  have hscan (w : Source) (hw : w.external = external) :
      (scan.run w.resolver).1 = ⟨w.roots, w.variants⟩ :=
    (Source.scan_answers (Source.uniform_of_external (hw ▸ hexternal)) w.resolver
      w.scanning_resolver).2
  rw [hscan w rfl, hscan w' rfl]
  simp only [root?, variant?]
  exact ⟨hshuffled.roots _, fun hplace => hshuffled.variants_eq hplace⟩

/-- Schemas that extend one another, and at last a root. -/
def vehicleSchemas : OrderedMap (Option Schema) := .ofEntries [
  ("Truck", some { allOf := some [some { ref := "#/components/schemas/Car" }] }),
  ("Car", some { allOf := some [some { ref := "#/components/schemas/Vehicle" }] }),
  ("Vehicle", some { discriminator := some { propertyName := "kind" } })] (by decide)

/-- The root first. -/
def vehiclesFromRoot : OrderedMap (Option Schema) :=
  .ofEntries vehicleSchemas.toList.reverse (by decide)

/-- The schemas in a document that may refer to files, of which there are none. -/
def vehicleSource : Source where
  doc := Document.withSchemas {} vehicleSchemas
  external := some (FileResolver.toExternal ⟨{ workingDirectory := "/" }, ""⟩)

theorem counts_vehicleSource {place : String} {m : Schema} (h : vehicleSource.Counts place m) :
    m.isRef = true ∧ (vehicleSource.targetOf m.ref = "#/components/schemas/Car" ∨
      vehicleSource.targetOf m.ref = "#/components/schemas/Vehicle") := by
  obtain ⟨-, s, before, after, hs, -, hallOf, -⟩ := h
  have hm : some m ∈ s.allOf.getD [] := by simp [hallOf]
  have hall : vehicleSource.schemas.all fun entry => (entry.2.allOf.getD []).all fun member =>
      member.all fun m => m.isRef &&
        (vehicleSource.targetOf m.ref == "#/components/schemas/Car" ||
          vehicleSource.targetOf m.ref == "#/components/schemas/Vehicle") := by decide +kernel
  have hone := List.all_eq_true.mp (List.all_eq_true.mp hall _ hs) _ hm
  simpa only [Option.all_some, Bool.and_eq_true, Bool.or_eq_true, beq_iff_eq] using hone

theorem claims_vehicleSource {place root : String} {d : Discriminator}
    (h : vehicleSource.Claims place root d) : root = "#/components/schemas/Vehicle" ∧
      vehicleSource.roots.lookup "#/components/schemas/Vehicle" = some d := by
  induction h with
  | listed hmem =>
    have hnone : vehicleSource.alternatives.length = 0 := by decide +kernel
    rw [List.eq_nil_of_length_eq_zero hnone] at hmem
    cases hmem
  | inline hcounts href _ =>
    rw [(counts_vehicleSource hcounts).1] at href
    cases href
  | root hcounts _ hd =>
    rcases (counts_vehicleSource hcounts).2 with htarget | htarget
    · have hnone : (vehicleSource.roots.lookup "#/components/schemas/Car").isNone = true := by
        decide +kernel
      rw [htarget] at hd
      rw [hd] at hnone
      cases hnone
    · rw [htarget] at hd ⊢
      exact ⟨rfl, hd⟩
  | variant _ _ _ _ hd ih =>
    rw [ih.1] at hd
    exact ⟨ih.1, hd⟩

theorem unambiguous_vehicleSource (place : String) : vehicleSource.Unambiguous place := by
  intro other _ root d root' d' hclaims hclaims'
  obtain ⟨hroot, hd⟩ := claims_vehicleSource hclaims
  obtain ⟨hroot', hd'⟩ := claims_vehicleSource hclaims'
  rw [hd] at hd'
  rw [hroot, hroot', Option.some.inj hd']

/-- The schema that extends an extension gets its tag in the second round if it comes first, and in
the first if it comes last. -/
theorem scan_order_independent_vehicles :
    let w' : Source := { vehicleSource with doc := Document.withSchemas {} vehiclesFromRoot }
    vehicleSchemas.toList.Perm vehiclesFromRoot.toList ∧
    vehicleSource.Unambiguous "#/components/schemas/Truck" ∧
    (scan.run w'.resolver).1.variant? "#/components/schemas/Truck" =
      some ⟨"kind", ["Truck"], "#/components/schemas/Vehicle", false⟩ ∧
    (scan.run vehicleSource.resolver).1.variant? "#/components/schemas/Truck" =
      (scan.run w'.resolver).1.variant? "#/components/schemas/Truck" := by
  intro w'
  have hexternal : ∀ e, vehicleSource.external = some e → e.Uniform := by
    rintro _ ⟨⟩
    exact FileResolver.uniform _
  have hperm : vehicleSchemas.toList.Perm vehiclesFromRoot.toList := by
    rw [vehiclesFromRoot, OrderedMap.toList_ofEntries]
    exact (List.reverse_perm _).symm
  have hcanonical : Reference.canonical "#/components/schemas/Truck" =
      "#/components/schemas/Truck" := by decide
  have hsame := (scan_order_independent {} vehicleSource.external hexternal hperm
    "#/components/schemas/Truck").2
  rw [hcanonical] at hsame
  have hplace := unambiguous_vehicleSource "#/components/schemas/Truck"
  exact ⟨hperm, hplace, by decide +kernel, hsame hplace⟩

/-- A root that lists the schema of cars. -/
def assetRoot (property : String) : Schema where
  discriminator := some { propertyName := property }
  oneOf := some [some { ref := "#/components/schemas/Car" }]

/-- A schema that two roots list, before those roots. -/
def vehicleFirst : OrderedMap (Option Schema) := .ofEntries [("Car", some {}),
  ("Vehicle", some (assetRoot "kind")), ("Asset", some (assetRoot "class"))] (by decide)

/-- The other root first. -/
def assetFirst : OrderedMap (Option Schema) := .ofEntries [("Car", some {}),
  ("Asset", some (assetRoot "class")), ("Vehicle", some (assetRoot "kind"))] (by decide)

/-- A schema that two roots list has the tag of the root that comes first. -/
theorem first_root_tags :
    vehicleFirst.toList.Perm assetFirst.toList ∧
    (scan.run (Source.resolver ⟨Document.withSchemas {} vehicleFirst, none⟩)).1.variant?
      "#/components/schemas/Car" =
        some ⟨"kind", ["Car"], "#/components/schemas/Vehicle", false⟩ ∧
    (scan.run (Source.resolver ⟨Document.withSchemas {} assetFirst, none⟩)).1.variant?
      "#/components/schemas/Car" =
        some ⟨"class", ["Car"], "#/components/schemas/Asset", false⟩ := by
  refine ⟨?_, by decide +kernel, by decide +kernel⟩
  rw [vehicleFirst, assetFirst, OrderedMap.toList_ofEntries, OrderedMap.toList_ofEntries]
  exact (List.Perm.swap _ _ _).cons _

end Discriminators

end ApiTypes
