import ApiTypes.Proofs.Lookup
import Mathlib.Data.List.Perm.Subperm

/-!
What the scan for discriminators is told. While it runs, the resolver fills with what it fetches,
and still its answers stay those of a resolver that has fetched nothing: each reference is asked
for in its uniform spelling and as a schema, so what was kept from an earlier question is what the
external resolver would give again. The answers are functions of the document alone.
-/

namespace ApiTypes

open Resolver (Resolving Under)

namespace Source

/-- A resolver of the document that has fetched nothing yet. -/
def resolver (w : Source) : Resolver := Resolver.ofDocument w.doc w.external

/-- The indexed schemas of the document. -/
def schemas (w : Source) : List (String × Schema) := w.resolver.schemas

/-- The uniform spelling of a reference that can be asked for. -/
def Looks (w : Source) (key : String) : Prop := ∃ ref, w.Asks ref ∧ key = Reference.canonical ref

theorem Looks.asks {w : Source} {key : String} (h : w.Looks key) : w.Asks key := by
  obtain ⟨ref, hasks, hkey⟩ := h
  rw [hkey]
  exact .canonical hasks

/-- The scan may look up `key` in another document, and finds `o`. -/
def Shows (w : Source) (key : String) (o : Object) : Prop :=
  w.Looks key ∧ Reference.isExternal key = true ∧
    ∃ e, w.external = some e ∧ e.fetch key .schema = some o

/-- The external resolver gives one schema for all spellings that are the same in the uniform
way. -/
def Uniform (w : Source) : Prop :=
  ∀ key key' o, w.Shows key o → w.Looks key' → Reference.isExternal key' = true →
    Reference.canonical key = Reference.canonical key' → w.Shows key' o

/-- No reference of the document leads into another one. -/
def Local (w : Source) : Prop := ∀ ref, w.Asks ref → Reference.isExternal ref = false

/-- The resolver is one of this document and has fetched schemas only, under uniform spellings. -/
structure Scanning (w : Source) (r : Resolver) : Prop where
  index : r.index = Index.ofDocument w.doc
  external : r.external = w.external
  fetched : ∀ place o, (place, o) ∈ r.fetched →
    ∃ key, w.Shows key o ∧ Reference.canonical key = place

theorem scanning_resolver (w : Source) : w.Scanning w.resolver where
  index := rfl
  external := rfl
  fetched _ _ h := by cases h

theorem Scanning.knows {w : Source} {r : Resolver} (h : w.Scanning r) : w.Knows r where
  index := h.index
  external := h.external
  fetched place o hmem := by
    obtain ⟨key, ⟨hlooks, hexternal, e, he, hfetch⟩, hplace⟩ := h.fetched place o hmem
    exact ⟨e, key, .schema, he, hlooks.asks, hexternal, hplace, hfetch⟩

theorem Scanning.schemas {w : Source} {r : Resolver} (h : w.Scanning r) :
    r.schemas = w.schemas := by
  rw [Resolver.schemas, h.index]
  rfl

theorem Scanning.at? {w : Source} {r : Resolver} (h : w.Scanning r) : r.at? = w.resolver.at? := by
  funext place
  rw [Resolver.at?, h.index]
  rfl

theorem Scanning.chainBound {w : Source} {r : Resolver} (h : w.Scanning r) :
    r.chainBound = w.resolver.chainBound := by
  rw [Resolver.chainBound, h.index, h.external]
  rfl

variable {w : Source} {α β : Type}

theorem uniform_of_local (h : w.Local) : w.Uniform := by
  rintro key key' o ⟨hlooks, hexternal, -⟩
  rw [h key hlooks.asks] at hexternal
  cases hexternal

theorem asks_ref {s : Schema} (hs : w.Reaches (.schema s)) : w.Asks s.ref := .held hs

theorem looks_ref {s : Schema} (hs : w.Reaches (.schema s)) :
    w.Looks (Reference.canonical s.ref) := ⟨s.ref, asks_ref hs, rfl⟩

theorem reaches_of_mem_schemas {place : String} {s : Schema} (h : (place, s) ∈ w.schemas) :
    w.Reaches (.schema s) :=
  Discriminators.reaches_of_mem_schemas w.scanning_resolver.knows (place, s) h

/-- Whatever has been fetched before, the answer is `x`. -/
def Answers (w : Source) (act : Resolving α) (x : α) : Prop := Under w.Scanning act (· = x)

namespace Answers

theorem pure (x : α) : w.Answers (Pure.pure x) x := Under.pure rfl

theorem bind {act : Resolving α} {next : α → Resolving β} {x : α} {y : β}
    (hact : w.Answers act x) (hnext : w.Answers (next x) y) : w.Answers (act >>= next) y := by
  apply Under.bind hact
  rintro _ rfl
  exact hnext

theorem get_bind {next : Resolver → Resolving β} {y : β}
    (hnext : ∀ r, w.Scanning r → w.Answers (next r) y) : w.Answers (get >>= next) y :=
  fun r hr => hnext r hr r hr

/-- A fold whose answer after each part of the list is known. -/
theorem foldlM {step : β → α → Resolving β} (after : List α → β) (list : List α)
    (hstep : ∀ done, ∀ x ∈ list, w.Answers (step (after done) x) (after (done ++ [x]))) :
    w.Answers (list.foldlM step (after [])) (after list) := by
  apply Under.foldlM (fun done acc => acc = after done) list _ _ rfl
  rintro done x _ hx rfl
  exact hstep done x hx

end Answers

/-- The object that the external resolver gives for a reference into another document. -/
def served? (w : Source) (key : String) : Option Object :=
  if Reference.isExternal key then w.external.bind (·.fetch key .schema) else none

/-- The schema that a reference names. -/
def schemaAt? (w : Source) (key : String) : Option Schema :=
  (if Reference.isExternal key then w.served? key
    else w.resolver.at? (Reference.canonical key)).bind Referable.ofObject?

theorem served?_eq_some {key : String} {o : Object} (hlooks : w.Looks key) :
    w.served? key = some o ↔ w.Shows key o := by
  unfold served?
  split
  · rename_i hexternal
    simp only [Option.bind_eq_some_iff]
    exact ⟨fun ⟨e, he, hfetch⟩ => ⟨hlooks, hexternal, e, he, hfetch⟩,
      fun ⟨_, _, e, he, hfetch⟩ => ⟨e, he, hfetch⟩⟩
  · rename_i hexternal
    exact ⟨nofun, fun h => absurd h.2.1 hexternal⟩

/-- How a lookup runs: a reference into another document is fetched unless it was before. -/
theorem lookup?_run {r : Resolver} (hr : w.Scanning r) (hu : w.Uniform) {key : String}
    (hlooks : w.Looks key) :
    (Resolver.lookup? Schema key).run r = (w.schemaAt? key,
      match r.fetched.lookup (Reference.canonical key), w.served? key with
      | none, some o => { r with fetched := (Reference.canonical key, o) :: r.fetched }
      | _, _ => r) := by
  rw [Resolver.lookup?_run]
  unfold schemaAt? served?
  cases hexternal : Reference.isExternal key with
  | false =>
    simp only [Bool.false_eq_true, if_false, hr.at?]
    cases r.fetched.lookup (Reference.canonical key) <;> rfl
  | true =>
    simp only [if_true, hr.external]
    cases hcached : r.fetched.lookup (Reference.canonical key) with
    | some o =>
      obtain ⟨key', hshows, hsame⟩ := hr.fetched _ o (lookup_mem hcached)
      obtain ⟨-, -, e, he, hfetch⟩ := hu key' key o hshows hlooks hexternal hsame
      simp only [he, Option.bind_some, hfetch]
    | none =>
      cases w.external.bind (·.fetch key .schema) <;> rfl

theorem lookup?_answers (hu : w.Uniform) {key : String} (hlooks : w.Looks key) :
    w.Answers (Resolver.lookup? Schema key) (w.schemaAt? key) := by
  intro r hr
  rw [lookup?_run hr hu hlooks]
  refine ⟨?_, rfl⟩
  dsimp only
  split
  · rename_i o _ hserved
    refine ⟨hr.index, hr.external, ?_⟩
    intro place o' hmem
    rcases List.mem_cons.mp hmem with heq | hold
    · obtain ⟨hplace, ho⟩ := Prod.mk.inj heq
      rw [hplace, ho]
      exact ⟨key, (served?_eq_some hlooks).mp hserved, rfl⟩
    · exact hr.fetched place o' hold
  · exact hr

/-- A schema that is found under a reference can be met. -/
theorem reaches_of_schemaAt? {key : String} (hlooks : w.Looks key) {s : Schema}
    (h : w.schemaAt? key = some s) : w.Reaches (.schema s) := by
  obtain ⟨o, ho, hos⟩ := Option.bind_eq_some_iff.mp h
  obtain rfl : o = .schema s := LawfulReferable.eq_toObject hos
  split at ho
  · obtain ⟨-, hexternal, e, he, hfetch⟩ := (served?_eq_some hlooks).mp ho
    exact .fetched he hlooks.asks hexternal hfetch
  · exact reaches_of_mem_index (Resolver.mem_index_of_at? ho)

/-- The reference that the schema at a place holds, in the uniform spelling. -/
def next? (w : Source) (key : String) : Option String :=
  ((w.schemaAt? key).filter Schema.isRef).map fun s => Reference.canonical s.ref

theorem looks_next? {key next : String} (hlooks : w.Looks key) (h : w.next? key = some next) :
    w.Looks next := by
  obtain ⟨s, hs, hnext⟩ := Option.map_eq_some_iff.mp h
  have hfound := (Option.filter_eq_some_iff.mp hs).1
  rw [← hnext]
  exact looks_ref (reaches_of_schemaAt? hlooks hfound)

/-- Where a chain of references ends. -/
def chainEnd (w : Source) : Nat → List String → String → String
  | 0, _, key => key
  | steps + 1, visited, key =>
    if visited.contains key then key
    else (w.next? key).elim key (w.chainEnd steps (key :: visited))

theorem followTarget_answers (hu : w.Uniform) (steps : Nat) (visited : List String) (key : String)
    (hlooks : w.Looks key) :
    w.Answers (Resolver.followTarget steps visited key) (w.chainEnd steps visited key) := by
  induction steps generalizing visited key with
  | zero => exact Answers.pure key
  | succ steps ih =>
    rw [Resolver.followTarget, chainEnd]
    split
    · exact Answers.pure key
    · apply Answers.bind (lookup?_answers hu hlooks)
      cases hfound : w.schemaAt? key with
      | none =>
        simp only [next?, hfound, Option.filter_none, Option.map_none]
        exact Answers.pure key
      | some s =>
        cases href : s.isRef with
        | false =>
          simp only [next?, hfound, Option.filter_some, href, Bool.false_eq_true, if_false,
            Option.map_none]
          exact Answers.pure key
        | true =>
          simp only [next?, hfound, Option.filter_some, href, if_true, Option.map_some]
          exact ih _ _ (looks_ref (reaches_of_schemaAt? hlooks hfound))

/-- The pointer of the schema that a reference leads to in the end. -/
def targetOf (w : Source) (ref : String) : String :=
  w.chainEnd w.resolver.chainBound [] (Reference.canonical ref)

theorem targetOf_eq (ref : String) :
    w.targetOf ref = w.chainEnd w.resolver.chainBound [] (Reference.canonical ref) := rfl

-- Its value is never needed in a proof, and unfolding it means reading the texts of references.
attribute [irreducible] targetOf

theorem looks_canonical {ref : String} (hasks : w.Asks ref) : w.Looks (Reference.canonical ref) :=
  ⟨ref, hasks, rfl⟩

theorem target_answers (hu : w.Uniform) {ref : String} (hasks : w.Asks ref) :
    w.Answers (Resolver.target ref) (w.targetOf ref) := by
  apply Answers.get_bind
  intro r hr
  rw [hr.chainBound, targetOf_eq]
  exact followTarget_answers hu _ [] _ (looks_canonical hasks)

/-! Chains inside the document end. Two different uniform spellings can name one place, and then a
chain that comes to the place again goes on to where it has been. -/

/-- How far a chain has come: the places visited differ, and each leads to one of them or to the
next. -/
structure Trail (w : Source) (visited : List String) (key : String) : Prop where
  inside : ∀ k ∈ visited, Reference.isExternal k = false
  distinct : (visited.map Reference.canonical).Nodup
  indexed : visited.map Reference.canonical ⊆ w.resolver.index.map (·.1)
  onward : ∀ k ∈ visited, ∀ k', w.next? k = some k' → k' ∈ key :: visited

theorem Trail.nil (key : String) : w.Trail [] key where
  inside := nofun
  distinct := List.nodup_nil
  indexed := List.nil_subset _
  onward := nofun

theorem Trail.length_le {visited : List String} {key : String} (h : w.Trail visited key) :
    visited.length ≤ w.resolver.index.length := by
  have hle := (List.subperm_of_subset h.distinct h.indexed).length_le
  simpa only [List.length_map] using hle

/-- Inside the document only the uniform spelling of a reference counts. -/
theorem next?_local {key : String} (hkey : Reference.isExternal key = false) :
    w.next? key = (((w.resolver.at? (Reference.canonical key)).bind Referable.ofObject?).filter
      Schema.isRef).map fun s => Reference.canonical s.ref := by
  simp only [next?, schemaAt?, hkey, Bool.false_eq_true, if_false]

theorem mem_places_of_at? {r : Resolver} {place : String} {o : Object} (h : r.at? place = some o) :
    place ∈ r.index.map (·.1) :=
  List.mem_map.mpr ⟨(place, o), Resolver.mem_index_of_at? h, rfl⟩

theorem Trail.step {visited : List String} {key next : String} (h : w.Trail visited key)
    (hkey : Reference.isExternal key = false) (hnext : w.next? key = some next)
    (hnew : Reference.canonical key ∉ visited.map Reference.canonical) :
    w.Trail (key :: visited) next where
  inside := List.forall_mem_cons.mpr ⟨hkey, h.inside⟩
  distinct := List.nodup_cons.mpr ⟨hnew, h.distinct⟩
  indexed := by
    have hfound := hnext
    rw [next?_local hkey] at hfound
    obtain ⟨s, hs, -⟩ := Option.map_eq_some_iff.mp hfound
    obtain ⟨o, ho, -⟩ := Option.bind_eq_some_iff.mp (Option.filter_eq_some_iff.mp hs).1
    rw [List.map_cons]
    exact List.cons_subset.mpr ⟨mem_places_of_at? ho, h.indexed⟩
  onward := by
    intro k hk k' hk'
    rcases List.mem_cons.mp hk with rfl | hk
    · rw [hnext] at hk'
      rw [← Option.some.inj hk']
      exact List.mem_cons_self
    · exact List.mem_cons_of_mem next (h.onward k hk k' hk')

/-- A chain that comes to a visited place under another spelling ends with the next step. -/
theorem Trail.returns {visited : List String} {key next : String} (h : w.Trail visited key)
    (hkey : Reference.isExternal key = false) (hnext : w.next? key = some next)
    (hold : Reference.canonical key ∈ visited.map Reference.canonical) :
    next ∈ key :: visited := by
  obtain ⟨k, hk, hsame⟩ := List.mem_map.mp hold
  apply h.onward k hk
  rw [next?_local (h.inside k hk), hsame, ← next?_local hkey, hnext]

theorem chainEnd_visited {steps : Nat} {visited : List String} {key : String} (h : key ∈ visited) :
    w.chainEnd steps visited key = key := by
  cases steps with
  | zero => rfl
  | succ steps => rw [chainEnd, if_pos (List.contains_iff_mem.mpr h)]

/-- More steps than the index has entries do not lead further. -/
theorem chainEnd_add (hlocal : w.Local) (extra steps : Nat) (visited : List String) (key : String)
    (hlooks : w.Looks key) (htrail : w.Trail visited key)
    (hsteps : w.resolver.index.length + 2 ≤ steps + visited.length) :
    w.chainEnd (steps + extra) visited key = w.chainEnd steps visited key := by
  induction steps generalizing visited key with
  | zero =>
    have hle := htrail.length_le
    omega
  | succ steps ih =>
    rw [Nat.add_right_comm, chainEnd, chainEnd]
    split
    · rfl
    · cases hnext : w.next? key with
      | none => rfl
      | some next =>
        have hkey : Reference.isExternal key = false := hlocal key hlooks.asks
        simp only [Option.elim_some]
        by_cases hold : Reference.canonical key ∈ visited.map Reference.canonical
        · have hback := htrail.returns hkey hnext hold
          rw [chainEnd_visited hback, chainEnd_visited hback]
        · refine ih _ _ (looks_next? hlooks hnext) (htrail.step hkey hnext hold) ?_
          rw [List.length_cons]
          omega

/-- Following a reference inside the document comes to an end. -/
theorem chainEnd_eq_targetOf (hlocal : w.Local) {ref : String} (hasks : w.Asks ref) (extra : Nat) :
    w.chainEnd (w.resolver.chainBound + extra) [] (Reference.canonical ref) = w.targetOf ref := by
  have hsteps : w.resolver.index.length + 2 ≤ w.resolver.chainBound := by
    unfold Resolver.chainBound
    omega
  rw [targetOf_eq]
  exact chainEnd_add hlocal extra _ [] _ (looks_canonical hasks) (Trail.nil _) hsteps

end Source

end ApiTypes
