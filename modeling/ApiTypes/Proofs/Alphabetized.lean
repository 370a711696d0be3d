import ApiTypes.Proofs.Names
import ApiTypes.Proofs.Spelling
import ApiTypes.Proofs.Typing.DocumentParallel

/-!
Under the option for alphabetical order, what is made of a document does not depend on the order of
entries in its maps. All writing goes by sorted keys. The scan for discriminators goes by the order
of the document, but without discriminators it only fetches what the parts of schemas refer to, and
what has been fetched in the end is the same in any order.
-/

namespace ApiTypes

open Discriminators (declared?)
open Resolver (Resolving)

variable {α β : Type}

namespace Source

variable {w w' : Source} {sorted : Bool}

/-- The references that are looked up on the way along a chain. -/
def trail (w : Source) : Nat → List String → String → List String
  | 0, _, _ => []
  | steps + 1, visited, key =>
    if visited.contains key then []
    else key :: (w.next? key).elim [] (w.trail steps (key :: visited))

/-- The references that are looked up to find where a part of a schema leads. -/
def partTrail (w : Source) (member : Option Schema) : List String :=
  (member.filter Schema.isRef).elim [] fun m =>
    w.trail w.resolver.chainBound [] (Reference.canonical m.ref)

/-- The references that are looked up for the parts of a schema. -/
def partTrails (w : Source) (s : Schema) : List String :=
  if s.isRef then [] else (s.allOf.getD []).flatMap w.partTrail

/-- The references that are looked up for the parts of all schemas. -/
def trails (w : Source) : List String := w.schemas.flatMap fun (_, s) => w.partTrails s

/-- The resolver has fetched what there is behind the references it has looked up. -/
structure Fetched (w : Source) (seen : List String) (r : Resolver) : Prop extends w.Scanning r where
  looks : ∀ key ∈ seen, w.Looks key
  lookup : ∀ place o, r.fetched.lookup place = some o ↔
    ∃ key ∈ seen, Reference.canonical key = place ∧ w.served? key = some o

/-- The action looks up `keys`, and the answer is `x`. -/
def Fetches (w : Source) (act : Resolving α) (keys : List String) (x : α) : Prop :=
  ∀ seen r, w.Fetched seen r → w.Fetched (seen ++ keys) (act.run r).2 ∧ (act.run r).1 = x

theorem fetched_resolver (w : Source) : w.Fetched [] w.resolver where
  toScanning := w.scanning_resolver
  looks := nofun
  lookup _ _ := ⟨nofun, nofun⟩

namespace Fetches

theorem pure (x : α) : w.Fetches (Pure.pure x) [] x := by
  intro seen r hr
  rw [List.append_nil]
  exact ⟨hr, rfl⟩

theorem bind {act : Resolving α} {next : α → Resolving β} {x : α} {y : β}
    {keys more : List String} (hact : w.Fetches act keys x) (hnext : w.Fetches (next x) more y) :
    w.Fetches (act >>= next) (keys ++ more) y := by
  intro seen r hr
  obtain ⟨hfetched, hx⟩ := hact seen r hr
  rw [← List.append_assoc]
  have hrest := hnext _ _ hfetched
  rw [← hx] at hrest
  exact hrest

/-- What follows looks up nothing. -/
theorem bind_quiet {act : Resolving α} {next : α → Resolving β} {x : α} {y : β}
    {keys : List String} (hact : w.Fetches act keys x) (hnext : w.Fetches (next x) [] y) :
    w.Fetches (act >>= next) keys y := by
  have hboth := hact.bind hnext
  rwa [List.append_nil] at hboth

theorem get_bind {next : Resolver → Resolving β} {y : β} {keys : List String}
    (hnext : ∀ r, w.Scanning r → w.Fetches (next r) keys y) :
    w.Fetches (get >>= next) keys y :=
  fun seen r hr => hnext r hr.toScanning seen r hr

/-- A fold in which every step gives back what it got. -/
theorem foldlM {step : β → α → Resolving β} {acc : β} {keys : α → List String} {list : List α}
    (hstep : ∀ x ∈ list, w.Fetches (step acc x) (keys x) acc) :
    w.Fetches (list.foldlM step acc) (list.flatMap keys) acc := by
  induction list with
  | nil => exact pure acc
  | cons x rest ih =>
    rw [List.foldlM_cons, List.flatMap_cons]
    exact (hstep x List.mem_cons_self).bind (ih fun y hy => hstep y (List.mem_cons_of_mem x hy))

end Fetches

/-- One schema is served for all spellings that are the same in the uniform way. -/
theorem served?_congr (hu : w.Uniform) {key key' : String} {o : Object} (hkey : w.Looks key)
    (hkey' : w.Looks key') (hsame : Reference.canonical key = Reference.canonical key')
    (hexternal : Reference.isExternal key' = true) (h : w.served? key = some o) :
    w.served? key' = some o :=
  (served?_eq_some hkey').mpr
    (hu key key' o ((served?_eq_some hkey).mp h) hkey' hexternal hsame)

theorem isExternal_of_served? {key : String} {o : Object} (h : w.served? key = some o) :
    Reference.isExternal key = true := by
  unfold served? at h
  split at h
  · assumption
  · cases h

theorem lookup?_fetches (hu : w.Uniform) {key : String} (hlooks : w.Looks key) :
    w.Fetches (Resolver.lookup? Schema key) [key] (w.schemaAt? key) := by
  intro seen r hr
  have hall : ∀ k ∈ seen ++ [key], w.Looks k := by
    simpa only [List.forall_mem_append, List.forall_mem_singleton] using ⟨hr.looks, hlooks⟩
  have hkept := (lookup?_answers hu hlooks r hr.toScanning).1
  rw [lookup?_run hr.toScanning hu hlooks] at hkept ⊢
  refine ⟨⟨hkept, hall, fun place o => ?_⟩, rfl⟩
  simp only [List.mem_append, List.mem_singleton, or_and_right, exists_or, exists_eq_left]
  cases hcached : r.fetched.lookup (Reference.canonical key) with
  | some old =>
    -- what is served for this spelling has been fetched under another
    simp only [hr.lookup]
    refine ⟨.inl, fun h => h.elim id ?_⟩
    rintro ⟨rfl, hserved⟩
    obtain ⟨k, hk, hsame, hold⟩ := (hr.lookup _ old).mp hcached
    have hserved' := served?_congr hu (hr.looks k hk) hlooks hsame
      (isExternal_of_served? hserved) hold
    rw [hserved] at hserved'
    exact ⟨k, hk, hsame, hserved' ▸ hold⟩
  | none =>
    cases hserved : w.served? key with
    | none =>
      simp only [hr.lookup, reduceCtorEq, and_false, or_false]
    | some new =>
      simp only [List.lookup_cons, Option.some.injEq]
      by_cases hplace : place = Reference.canonical key
      · rw [hplace, beq_self_eq_true]
        simp only [Option.some.injEq, true_and]
        refine ⟨.inr, fun h => h.elim (fun hold => ?_) id⟩
        rw [← hr.lookup, hcached] at hold
        cases hold
      · rw [beq_false_of_ne hplace]
        simp only [hr.lookup, Ne.symm hplace, false_and, or_false]

theorem followTarget_fetches (hu : w.Uniform) (steps : Nat) (visited : List String) (key : String)
    (hlooks : w.Looks key) :
    w.Fetches (Resolver.followTarget steps visited key) (w.trail steps visited key)
      (w.chainEnd steps visited key) := by
  induction steps generalizing visited key with
  | zero => exact .pure key
  | succ steps ih =>
    rw [Resolver.followTarget, chainEnd, trail]
    split
    · exact .pure key
    · apply (lookup?_fetches hu hlooks).bind
      cases hfound : w.schemaAt? key with
      | none =>
        simp only [next?, hfound, Option.filter_none, Option.map_none]
        exact .pure key
      | some s =>
        cases href : s.isRef with
        | false =>
          simp only [next?, hfound, Option.filter_some, href, Bool.false_eq_true, if_false,
            Option.map_none]
          exact .pure key
        | true =>
          simp only [next?, hfound, Option.filter_some, href, if_true, Option.map_some]
          exact ih _ _ (looks_ref (reaches_of_schemaAt? hlooks hfound))

theorem target_fetches (hu : w.Uniform) {ref : String} (hasks : w.Asks ref) :
    w.Fetches (Resolver.target ref)
      (w.trail w.resolver.chainBound [] (Reference.canonical ref)) (w.targetOf ref) := by
  apply Fetches.get_bind
  intro r hr
  rw [hr.chainBound, targetOf_eq]
  exact followTarget_fetches hu _ [] _ (looks_canonical hasks)

/-- Without discriminators, no part of a schema leads to a root. -/
theorem extendedRoot?_fetches (hu : w.Uniform) (members : List (Option Schema))
    (hmembers : ∀ m, some m ∈ members → w.Reaches (.schema m) ∧ m.discriminator = none) :
    w.Fetches (Discriminators.extendedRoot? {} members) (members.flatMap w.partTrail) none := by
  induction members with
  | nil => exact .pure none
  | cons member rest ih =>
    have hrest := ih fun m hm => hmembers m (List.mem_cons_of_mem _ hm)
    cases member with
    | none => exact hrest
    | some m =>
      obtain ⟨hreaches, hplain⟩ := hmembers m List.mem_cons_self
      rw [Discriminators.extendedRoot?, List.flatMap_cons, partTrail]
      cases href : m.isRef with
      | true =>
        simp only [Option.filter_some, href, if_true, Option.elim_some]
        exact (target_fetches hu (asks_ref hreaches)).bind hrest
      | false =>
        simp only [Option.filter_some, href, Bool.false_eq_true, if_false, Option.elim_none,
          declared?, hplain, Option.filter_none]
        exact hrest

/-- No schema of the document has a discriminator. -/
def Plain (w : Source) : Prop :=
  ∀ place s, (place, s) ∈ w.schemas → s.discriminator = none ∧
    ∀ m, some m ∈ s.allOf.getD [] → m.discriminator = none

/-- Without discriminators the scan finds nothing, and fetches what the parts of schemas refer
to. -/
theorem scan_fetches (hu : w.Uniform) (hplain : w.Plain) :
    w.Fetches Discriminators.scan w.trails {} := by
  apply Fetches.get_bind
  intro r hr
  simp only [hr.schemas]
  have hroots : w.Fetches (w.schemas.foldlM Discriminators.addRoot {})
      (w.schemas.flatMap fun _ => []) {} := by
    apply Fetches.foldlM
    rintro ⟨place, s⟩ hs
    unfold Discriminators.addRoot
    simp only [declared?, (hplain place s hs).1, Option.filter_none]
    split <;> exact .pure _
  have hround : w.Fetches (w.schemas.foldlM Discriminators.addExtension {}) w.trails {} := by
    apply Fetches.foldlM
    rintro ⟨place, s⟩ hs
    unfold Discriminators.addExtension partTrails
    simp only [List.lookup_nil, Option.isSome_none, Bool.false_or]
    split
    · exact .pure _
    · have hreaches := reaches_of_mem_schemas hs
      have hmembers := extendedRoot?_fetches hu (s.allOf.getD []) fun m hm =>
        ⟨hreaches.held (.allOf hm), (hplain place s hs).2 m hm⟩
      exact hmembers.bind_quiet (.pure _)
  have hextend : w.Fetches (Discriminators.extend w.schemas (w.schemas.length + 1) {})
      w.trails {} := by
    rw [Discriminators.extend]
    exact hround.bind_quiet (.pure _)
  have hscan := hroots.bind hextend
  rw [List.flatMap_eq_nil_iff.mpr fun _ _ => rfl, List.nil_append] at hscan
  exact hscan

theorem trail_alike (h : w.Alike sorted w') (steps : Nat) (visited : List String) (key : String) :
    w.trail steps visited key = w'.trail steps visited key := by
  induction steps generalizing visited key with
  | zero => rfl
  | succ steps ih =>
    rw [trail, trail, next?_alike h]
    have hrest : w.trail steps (key :: visited) = w'.trail steps (key :: visited) :=
      funext fun next => ih _ next
    rw [hrest]

theorem partTrail_alike (h : w.Alike sorted w') {m m' : Option Schema}
    (hm : Option.Rel (Schema.Alike sorted) m m') : w.partTrail m = w'.partTrail m' := by
  unfold partTrail
  cases hm with
  | none => simp only [Option.filter_none, Option.elim_none]
  | @some s t hst =>
    have htrail : w.trail w.resolver.chainBound [] = w'.trail w'.resolver.chainBound [] := by
      rw [chainBound_alike h]
      exact funext fun key => trail_alike h _ [] key
    rw [Option.filter_some, Option.filter_some, hst.congr Schema.isRef fun _ => rfl, htrail]
    cases t.isRef with
    | false => simp only [Bool.false_eq_true, if_false, Option.elim_none]
    | true => simp only [if_true, Option.elim_some, hst.congr Schema.ref fun _ => rfl]

theorem partTrails_alike (h : w.Alike sorted w') {s t : Schema} (hst : s.Alike sorted t) :
    w.partTrails s = w'.partTrails t := by
  have hmembers : (s.allOf.getD []).flatMap w.partTrail =
      (t.allOf.getD []).flatMap w'.partTrail := by
    rw [← List.forall₂_eq_eq_eq]
    refine List.rel_flatMap hst.step.allOf.members fun m m' hmm' => ?_
    rw [List.forall₂_eq_eq_eq]
    exact partTrail_alike h hmm'
  rw [partTrails, partTrails, hst.congr Schema.isRef fun _ => rfl, hmembers]

/-- The parts of schemas refer to the same places, in whatever order the schemas come. -/
theorem mem_trails_alike (h : w.Alike sorted w') (key : String) :
    key ∈ w.trails ↔ key ∈ w'.trails := by
  have hplaces (w : Source) : key ∈ w.trails ↔
      ∃ place, key ∈ (valuesAt place w.schemas).flatMap w.partTrails := by
    simp only [trails, List.mem_flatMap, mem_valuesAt, Prod.exists]
  have hvalues (place : String) : (valuesAt place w.schemas).flatMap w.partTrails =
      (valuesAt place w'.schemas).flatMap w'.partTrails := by
    rw [← List.forall₂_eq_eq_eq]
    refine List.rel_flatMap (schemas_alike h place) fun s t hst => ?_
    rw [List.forall₂_eq_eq_eq]
    exact partTrails_alike h hst
  simp only [hplaces, hvalues]

theorem served?_alike (h : w.Alike sorted w') (key : String) : w.served? key = w'.served? key := by
  rw [served?, served?, h.external]

/-- Resolvers that have looked up what the parts of schemas refer to have fetched the same. -/
theorem fetched_alike (h : w.Alike sorted w') {r r' : Resolver} (hr : w.Fetched w.trails r)
    (hr' : w'.Fetched w'.trails r') : r.Alike sorted r' where
  index := by
    rw [hr.index, hr'.index]
    exact h.index
  external := by rw [hr.external, hr'.external, h.external]
  fetched place := by
    apply Option.ext
    intro o
    simp only [hr.lookup, hr'.lookup, mem_trails_alike h, served?_alike h]

theorem plain_alike (h : w.Alike sorted w') (hplain : w.Plain) : w'.Plain := by
  intro place t ht
  obtain ⟨s, hs, hst⟩ := exists_rel_of_mem (schemas_alike h place).flip (mem_valuesAt.mpr ht)
  obtain ⟨hnone, hmembers⟩ := hplain place s (mem_valuesAt.mp hs)
  refine ⟨(Schema.Alike.congr hst Schema.discriminator fun _ => rfl).symm.trans hnone, ?_⟩
  intro m' hm'
  obtain ⟨m, hm, hmm'⟩ := exists_rel_of_mem (Schema.Alike.step hst).allOf.members.flip hm'
  cases hmm' with
  | some hmm' =>
    exact (Schema.Alike.congr hmm' Schema.discriminator fun _ => rfl).symm.trans (hmembers _ hm)

/-- Without discriminators, the scans of both sources find nothing and leave the same fetched. -/
theorem scan_alike (h : w.Alike sorted w') (hu : w.Uniform) (hu' : w'.Uniform)
    (hplain : w.Plain) :
    (Discriminators.scan.run w.resolver).1 = {} ∧ (Discriminators.scan.run w'.resolver).1 = {} ∧
      (Discriminators.scan.run w.resolver).2.Alike sorted
        (Discriminators.scan.run w'.resolver).2 := by
  obtain ⟨hfetched, hnone⟩ := scan_fetches hu hplain [] w.resolver w.fetched_resolver
  obtain ⟨hfetched', hnone'⟩ :=
    scan_fetches hu' (plain_alike h hplain) [] w'.resolver w'.fetched_resolver
  rw [List.nil_append] at hfetched hfetched'
  exact ⟨hnone, hnone', fetched_alike h hfetched hfetched'⟩

end Source

namespace Typing

/-- No schema of the document has a discriminator. -/
def Undiscriminated (doc : Document) : Prop :=
  ∀ s, Source.Reaches ⟨doc, none⟩ (.schema s) → s.discriminator = none

theorem plain_of_undiscriminated {doc : Document} (h : Undiscriminated doc)
    (external : Option ExternalResolver) : Source.Plain ⟨doc, external⟩ := by
  intro place s hs
  -- the index of a document does not depend on what lies outside
  have hreaches : Source.Reaches ⟨doc, none⟩ (.schema s) :=
    Source.reaches_of_mem_schemas (w := ⟨doc, none⟩) hs
  exact ⟨h s hreaches, fun m hm => h m (hreaches.held (.allOf hm))⟩

/-- In alphabetical order, two documents without discriminators that differ in the order of the
entries of their maps are made into the same. The content of a parameter is an exception, because
only its first entry is looked at: if it has more than one, their order has to be the same. -/
theorem generate_order_independent {doc doc' : Document} (hdocs : doc.Alike true doc')
    {options : Options} {external : Option ExternalResolver}
    (hexternal : ∀ e, external = some e → e.Uniform) (hplain : Undiscriminated doc)
    (halphabetize : options.alphabetize = true) (hpaths : options.makePathsEnum = false) :
    generate doc { options, external } = generate doc' { options, external } := by
  let request : Request := { options, external }
  have hsources : Source.Alike true ⟨doc, external⟩ ⟨doc', external⟩ :=
    ⟨Index.ofDocument_alike hdocs, rfl⟩
  obtain ⟨hnone, hnone', hresolvers⟩ := Source.scan_alike hsources
    (Source.uniform_of_external hexternal) (Source.uniform_of_external hexternal)
    (plain_of_undiscriminated hplain external)
  have hsettings : settingOf doc request = settingOf doc' request :=
    congrArg (Setting.mk options [] []) (hnone.trans hnone'.symm)
  have htwins : Twins options.alphabetize Eq (startOf doc request) (startOf doc' request) := by
    refine ⟨?_, rfl, rfl, rfl, rfl, rfl⟩
    rw [halphabetize]
    exact hresolvers
  have hfree : HookFree (settingOf doc request) := ⟨rfl, rfl⟩
  have halike : doc.Alike (settingOf doc request).options.alphabetize doc' := by
    change doc.Alike options.alphabetize doc'
    rw [halphabetize]
    exact hdocs
  have hruns := (documentDecls_parallel hfree halike hpaths).ends _ _ htwins
  have hversion : doc.checkVersion = doc'.checkVersion := by
    unfold Document.checkVersion
    rw [hdocs.openapi, hdocs.swagger]
  rw [generate_eq, generate_eq, ← hversion, ← hsettings]
  cases doc.checkVersion with
  | error e => rfl
  | ok _ =>
    generalize exec (documentDecls doc) (settingOf doc request) (startOf doc request) = run,
      exec (documentDecls doc') (settingOf doc request) (startOf doc' request) = run' at hruns
    cases hruns with
    | ok hdecls hend =>
      dsimp only
      rw [hdecls, hend.warnings, hend.operations]
    | error e q q' => rfl

/-- Whether an object is no schema with a discriminator. -/
def lacksDiscriminator : Object → Bool
  | .schema s => s.discriminator.isNone
  | _ => true

/-- Whether an object, nested no deeper than that, has no discriminator in it. -/
def isPlain : Nat → Object → Bool
  | 0, _ => false
  | depth + 1, o => lacksDiscriminator o && o.parts.all (isPlain depth)

theorem undiscriminated_of_isPlain {doc : Document} (depth : Nat)
    (h : doc.objects.all (isPlain depth) = true) : Undiscriminated doc := by
  intro s hs
  have hplain : ∃ depth, isPlain depth (.schema s) = true := by
    refine Source.reaches_of_local (P := fun o => ∃ depth, isPlain depth o = true) ?_ ?_ hs
    · exact fun o ho => ⟨depth, List.all_eq_true.mp h o ho⟩
    · rintro o ⟨depth, ho⟩ inner hinner
      cases depth with
      | zero => cases ho
      | succ depth =>
        rw [isPlain, Bool.and_eq_true] at ho
        exact ⟨depth, List.all_eq_true.mp ho.2 inner hinner⟩
  obtain ⟨depth, hdepth⟩ := hplain
  cases depth with
  | zero => cases hdepth
  | succ depth =>
    rw [isPlain, Bool.and_eq_true] at hdepth
    exact Option.isNone_iff_eq_none.mp hdepth.1

/-- Paths and schemas of a document that refers to a file. -/
def zooPaths : PathItems := .ofEntries [
  ("/dogs", some { operation? := (List.lookup · [(.get, { operationId := "listDogs" })]) }),
  ("/cats", some { operation? := (List.lookup · [(.get, { operationId := "listCats" })]) })]
  (by decide)

def zooSchemas : OrderedMap (Option Schema) := .ofEntries [
  ("Dog", some { allOf := some [some { ref := "animals.yaml#/Animal" }] }),
  ("Cat", some { allOf := some [some { ref := "#/components/schemas/Dog" }] })] (by decide)

def zooDocument (paths : PathItems) (schemas : OrderedMap (Option Schema)) : Document where
  openapi := "3.1.0"
  paths := some paths
  components := some { schemas := some schemas }

/-- The same with all in reverse order. -/
def zooReversed : Document :=
  zooDocument (.ofEntries zooPaths.toList.reverse (by decide))
    (.ofEntries zooSchemas.toList.reverse (by decide))

/-- The file that the document refers to. -/
def zooFiles : FileResolver where
  fs := .ofFiles "/zoo" [("animals.yaml", "Animal: {type: object}")]
  base := "/zoo/openapi.yaml"

theorem perm_reversed {α : Type} (m : OrderedMap α) (h : (m.toList.reverse.map (·.1)).Nodup) :
    m.toList.Perm (OrderedMap.ofEntries m.toList.reverse h).toList := by
  rw [OrderedMap.toList_ofEntries]
  exact (List.reverse_perm _).symm

theorem zooDocument_alike : (zooDocument zooPaths zooSchemas).Alike true zooReversed where
  openapi := rfl
  swagger := rfl
  paths := mapRel_of_perm PathItem.Alike.refl (perm_reversed zooPaths _)
  webhooks := mapRel_refl PathItem.Alike.refl none
  components := .some {
    schemas := mapRel_of_perm Schema.Alike.refl (perm_reversed zooSchemas _)
    responses := mapRel_refl Response.Alike.refl none
    parameters := mapRel_refl Parameter.Alike.refl none
    requestBodies := mapRel_refl RequestBody.Alike.refl none
    headers := mapRel_refl Header.Alike.refl none
    pathItems := mapRel_refl PathItem.Alike.refl none }
  defs := mapRel_refl Schema.Alike.refl none

/-- Without the option the order of the document shows, and with it both documents give the same. -/
theorem generate_order_independent_zoo :
    let external := some zooFiles.toExternal
    let zoo := zooDocument zooPaths zooSchemas
    zoo.Alike true zooReversed ∧ Undiscriminated zoo ∧
    (∃ output, generate zoo { external } = .ok output ∧
      output.operations.map (·.id) = ["listDogs", "listCats"]) ∧
    (∃ output, generate zooReversed { external } = .ok output ∧
      output.operations.map (·.id) = ["listCats", "listDogs"]) ∧
    generate zoo { options := { alphabetize := true }, external } =
      generate zooReversed { options := { alphabetize := true }, external } := by
  intro external zoo
  have hexternal : ∀ e, external = some e → e.Uniform := by
    intro e he
    rw [← Option.some.inj he]
    exact zooFiles.uniform
  have hplain : Undiscriminated zoo := undiscriminated_of_isPlain 4 (by decide +kernel)
  exact ⟨zooDocument_alike, hplain, exists_output (by decide +kernel),
    exists_output (by decide +kernel),
    generate_order_independent zooDocument_alike hexternal hplain rfl rfl⟩

/-- Schemas that refer to places in a file. The second spells a place as it is spelled in the
uniform way for the first. -/
def spelledSchemas : OrderedMap (Option Schema) := .ofEntries [
  ("first", some { allOf := some [some { ref := "f.yaml#/A%2525" }] }),
  ("second", some { allOf := some [some { ref := "f.yaml#/A%25" }] })] (by decide)

/-- The same in reverse order. -/
def spelledReversed : OrderedMap (Option Schema) :=
  .ofEntries spelledSchemas.toList.reverse (by decide)

/-- A constant, whose properties are not written, and a definition for which one of the places is
written out. -/
def spelledDocument (properties : OrderedMap (Option Schema)) : Document where
  openapi := "3.1.0"
  components := some {
    schemas := some (.ofList [
      ("Mark", some { const := .text "mark", hasConst := true, properties := some properties })]) }
  defs := some (.ofList [("Second", some { allOf := some [some { ref := "f.yaml#/A%25" }] })])

theorem spelledDocument_alike {properties properties' : OrderedMap (Option Schema)}
    (h : properties.toList.Perm properties'.toList) :
    (spelledDocument properties).Alike true (spelledDocument properties') := by
  let mark (properties : OrderedMap (Option Schema)) : Schema :=
    { const := .text "mark", hasConst := true, properties := some properties }
  have hmark : (mark properties).Alike true (mark properties') := .of_step {
    bare := rfl
    properties := mapRel_of_perm Schema.Alike.refl h
    additionalProperties := .none
    defs := mapRel_refl Schema.Alike.refl none
    items := .none
    prefixItems := .none
    allOf := .none
    oneOf := .none
    anyOf := .none }
  exact {
    openapi := rfl
    swagger := rfl
    paths := mapRel_refl PathItem.Alike.refl none
    webhooks := mapRel_refl PathItem.Alike.refl none
    components := .some {
      schemas := .of_forall₂ (.cons ⟨rfl, .some hmark⟩ .nil)
      responses := mapRel_refl Response.Alike.refl none
      parameters := mapRel_refl Parameter.Alike.refl none
      requestBodies := mapRel_refl RequestBody.Alike.refl none
      headers := mapRel_refl Header.Alike.refl none
      pathItems := mapRel_refl PathItem.Alike.refl none }
    defs := mapRel_refl Schema.Alike.refl _ }

/-- A table of schemas that goes by the spelling of references. -/
def spellings : ExternalResolver where
  fetch ref kind :=
    if kind ≠ .schema then none
    else if ref = "f.yaml#/A%25" then some (.schema { types := some ["string"] })
    else if ref = "f.yaml#/A%" then some (.schema { types := some ["number"] })
    else none
  reach := 2

/-- A place in another document has the schema that the resolver gives for the spelling that is
asked for first, and the scan asks in the order of the document. -/
theorem first_spelling_counts :
    let doc := spelledDocument spelledSchemas
    let doc' := spelledDocument spelledReversed
    let options : Options := { alphabetize := true, silent := true }
    let request : Request := { options, external := some spellings }
    doc.Alike true doc' ∧ Undiscriminated doc ∧ options.makePathsEnum = false ∧
    ∃ output, generate doc request = .ok output ∧
      ∃ output', generate doc' request = .ok output' ∧ output'.text ≠ output.text := by
  intro doc doc' options request
  have halike : doc.Alike true doc' := spelledDocument_alike (perm_reversed spelledSchemas _)
  refine ⟨halike, undiscriminated_of_isPlain 4 (by decide +kernel), rfl, ?_⟩
  obtain ⟨output, hrun, hdiffers⟩ := @exists_output doc request
    (fun output => (generate doc' request).toOption.any
      (fun output' => decide (output'.text ≠ output.text)) = true) _ (by decide +kernel)
  exact ⟨output, hrun, exists_output hdiffers⟩

end Typing

end ApiTypes
