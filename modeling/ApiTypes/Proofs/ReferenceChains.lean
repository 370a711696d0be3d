import ApiTypes.Proofs.Addresses
import ApiTypes.Proofs.Chains
import ApiTypes.Proofs.Navigation
import ApiTypes.Proofs.Rebasing

/-!
Two walks along one chain. A schema can be a reference to a schema that is a reference, and so on.
One walk asks for the schema at the end of such a chain, the other for its pointer. They are written
apart, with other places where they stop, but on a chain inside the document without percent signs
they agree: both end at the first schema that is no reference, at the first pointer that names no
schema, or at the first pointer that comes up again.
-/

namespace ApiTypes

namespace Reference

theorem percentDecode?_of_not_mem {text : String} (h : '%' ∉ text.toList) :
    Text.percentDecode? text = some text := by
  rw [Text.percentDecode?, if_neg (by simpa using h)]

theorem decodeFragment_of_not_mem {fragment : String} (h : '%' ∉ fragment.toList) :
    decodeFragment fragment = fragment := by
  rw [decodeFragment, percentDecode?_of_not_mem h, Option.getD_some]

/-- A pointer that is written without a percent sign has the tokens it was written from. -/
theorem tokens?_of_plain {file : String} (hfile : '#' ∉ file.toList) {tokens : List String}
    (h : '%' ∉ pointerChars tokens) : tokens? (file ++ join "#" tokens) = some tokens := by
  rw [tokens?, split_join hfile, decodeFragment_of_not_mem (by rwa [String.toList_ofList])]
  exact pointerTokens_of_tokens tokens

/-- A reference leads into the document at hand, and its uniform spelling has no percent sign. -/
structure Plain (ref : String) : Prop where
  inside : isExternal ref = false
  unescaped : '%' ∉ (canonical ref).toList

/-- The uniform spelling of a plain reference is spelled uniformly. -/
theorem Plain.canonical_canonical {ref : String} (h : Plain ref) :
    canonical (canonical ref) = canonical ref := by
  cases htokens : tokens? ref with
  | none => rw [canonical_of_not_pointer htokens, canonical_of_not_pointer htokens]
  | some tokens =>
    have hunescaped := h.unescaped
    have hhash := hash_not_mem_split ref
    rw [canonical_of_tokens htokens, String.toList_append, toList_join_root] at hunescaped
    have hpointer : '%' ∉ pointerChars tokens := fun hmem =>
      hunescaped (List.mem_append_right _ (List.mem_cons_of_mem _ hmem))
    rw [canonical_of_tokens htokens, canonical_of_tokens (tokens?_of_plain hhash hpointer),
      split_join hhash]

theorem Plain.canonical {ref : String} (h : Plain ref) : Plain (canonical ref) where
  inside := (Resolver.isExternal_eq_of_canonical h.canonical_canonical).trans h.inside
  unescaped := by
    rw [h.canonical_canonical]
    exact h.unescaped

/-- Reading the escapes of a token brings in no percent sign. -/
theorem percent_not_mem_unescapeChars {cs : List Char} (h : '%' ∉ cs) :
    '%' ∉ unescapeChars cs := by
  fun_induction unescapeChars cs <;> simp_all

/-- A reference that is written without a percent sign is plain. -/
theorem plain_of_percent_not_mem {ref : String} (hinside : isExternal ref = false)
    (h : '%' ∉ ref.toList) : Plain ref where
  inside := hinside
  unescaped := by
    have hfile : (split ref).1 = "" := by simpa [isExternal] using hinside
    have hfragment : '%' ∉ (split ref).2.toList := by
      unfold split
      split
      · rename_i file fragment hcut
        rw [String.toList_ofList]
        rw [Text.eq_append_of_cutChars hcut] at h
        exact fun hmem => h (List.mem_append_right _ (List.mem_cons_of_mem _ hmem))
      · exact List.not_mem_nil
    cases htokens : tokens? ref with
    | none => rwa [canonical_of_not_pointer htokens]
    | some tokens =>
      rw [canonical_of_tokens htokens, hfile, String.empty_append, toList_join_root]
      refine List.not_mem_cons_of_ne_of_not_mem (by decide)
        (percent_not_mem_pointerChars fun token htoken => ?_)
      rw [tokens?, decodeFragment_of_not_mem hfragment] at htokens
      unfold pointerTokens? at htokens
      split at htokens
      · cases htokens
        cases htoken
      · rename_i rest hrest
        cases htokens
        obtain ⟨piece, hpiece, rfl⟩ := List.mem_map.mp htoken
        rw [String.toList_ofList]
        refine percent_not_mem_unescapeChars fun hmem => hfragment ?_
        rw [hrest]
        exact List.mem_cons_of_mem _ (Text.mem_of_mem_splitChars hpiece hmem)
      · cases htokens

end Reference

/-- Objects stand below the root of the document, never at it. -/
theorem Document.ways_ne_nil {doc : Document} {way : List String} {o : Object}
    (h : (way, o) ∈ doc.branches) : way ≠ [] := by
  have hnamed {α : Type} {wrap : α → Object} {keyword : String}
      {m : Option (OrderedMap (Option α))} (h : (way, o) ∈ present wrap (named keyword m)) :
      way ≠ [] := by
    obtain ⟨⟨way', x⟩, hnamed, hmem⟩ := List.mem_flatMap.mp h
    obtain ⟨⟨name, y⟩, -, heq⟩ := List.mem_map.mp hnamed
    obtain ⟨z, -, hz⟩ := List.mem_map.mp hmem
    cases heq
    cases hz
    exact List.cons_ne_nil _ _
  simp only [Document.branches, List.mem_append] at h
  rcases h with ((h | h) | h) | h
  · cases hc : doc.components with
    | none =>
      rw [hc] at h
      cases h
    | some c =>
      rw [hc] at h
      obtain ⟨_, -, heq⟩ := List.mem_map.mp h
      cases heq
      exact List.cons_ne_nil _ _
  · exact hnamed h
  · exact hnamed h
  · exact hnamed h

theorem Index.root_not_mem_ofDocument (doc : Document) (o : Object) :
    ("#", o) ∉ Index.ofDocument doc := by
  intro hmem
  obtain ⟨_, ⟨way, root, rest, hroot, -, rfl⟩, hplace⟩ := Index.mem_ofDocument.mp hmem
  cases way with
  | nil => exact Document.ways_ne_nil hroot rfl
  | cons token more =>
    have hchars := congrArg String.toList hplace
    rw [Reference.toList_join_root] at hchars
    cases hchars

namespace Resolver

open Reference (canonical Plain)

variable {r : Resolver} {ref next place : String} {visited : List String}
  {last : Option (String × Schema)}

/-- The schema that a pointer names, without following it further. -/
def schemaAt? (r : Resolver) (place : String) : Option Schema :=
  (r.at? place).bind Referable.ofObject?

/-- Following a reference has led through the places `visited`, the latest first. `last` is the
latest with the schema at it, and `next` is where that schema refers to. -/
inductive Chained (r : Resolver) (ref : String) :
    (visited : List String) → (last : Option (String × Schema)) → (next : String) → Prop where
  | start : Chained r ref [] none ref
  | step {visited : List String} {last : Option (String × Schema)} {next : String} {s : Schema} :
    Chained r ref visited last next → canonical next ∉ visited →
      r.schemaAt? (canonical next) = some s → s.isRef = true →
      Chained r ref (canonical next :: visited) (some (canonical next, s)) s.ref

/-- How a chain of references ends: at a schema that is no reference, at a pointer that names no
schema, or at the first pointer that comes up again. What is found comes first, then the pointer. -/
inductive Outcome (r : Resolver) (ref : String) : Option Schema → String → Prop where
  | concrete {visited : List String} {last : Option (String × Schema)} {next : String}
    {s : Schema} : r.Chained ref visited last next → r.schemaAt? (canonical next) = some s →
      s.isRef = false → Outcome r ref (some s) (canonical next)
  | dangling {visited : List String} {last : Option (String × Schema)} {next : String} :
    r.Chained ref visited last next → r.schemaAt? (canonical next) = none →
      Outcome r ref none (canonical next)
  | looping {visited : List String} {place : String} {s : Schema} :
    r.Chained ref visited (some (place, s)) s.ref → s.isRef = true → canonical s.ref ∈ visited →
      Outcome r ref (some s) (canonical s.ref)

/-- A chain goes on from where it starts, or from where a schema of the index refers to. -/
theorem Chained.next_cases (h : r.Chained ref visited last next) :
    next = ref ∨ ∃ entry ∈ r.schemas, entry.2.ref = next := by
  cases h with
  | start => exact .inl rfl
  | step _ _ hs _ =>
    obtain ⟨o, ho, hschema⟩ := Option.bind_eq_some_iff.mp hs
    cases o with
    | schema t =>
      cases hschema
      exact .inr ⟨_, Index.mem_schemas.mpr (mem_index_of_at? ho), rfl⟩
    | _ => cases hschema

/-- What a chain has been through: different places, each of which holds a reference. -/
structure Passed (r : Resolver) (visited : List String) : Prop where
  distinct : visited.Nodup
  refers : ∀ place ∈ visited, ∃ s, r.schemaAt? place = some s ∧ s.isRef = true

theorem Chained.passed (h : r.Chained ref visited last next) : r.Passed visited := by
  induction h with
  | start => exact ⟨List.nodup_nil, nofun⟩
  | step _ hnew hs href ih =>
    exact ⟨List.nodup_cons.mpr ⟨hnew, ih.distinct⟩,
      List.forall_mem_cons.mpr ⟨⟨_, hs, href⟩, ih.refers⟩⟩

theorem mem_places_of_schemaAt? {s : Schema} (h : r.schemaAt? place = some s) :
    place ∈ r.index.map (·.1) := by
  obtain ⟨o, ho, -⟩ := Option.bind_eq_some_iff.mp h
  exact Source.mem_places_of_at? ho

theorem Passed.length_le (h : r.Passed visited) : visited.length ≤ r.index.length := by
  have hinside : visited ⊆ r.index.map (·.1) := fun place hplace => by
    obtain ⟨s, hs, -⟩ := h.refers place hplace
    exact mem_places_of_schemaAt? hs
  simpa only [List.length_map] using (List.subperm_of_subset h.distinct hinside).length_le

/-- Where there is no reference the chain has not been. -/
theorem Passed.not_mem (h : r.Passed visited)
    (hplace : ∀ s, r.schemaAt? place = some s → s.isRef = false) : place ∉ visited := by
  intro hmem
  obtain ⟨s, hs, href⟩ := h.refers place hmem
  rw [hplace s hs] at href
  cases href

/-- A chain comes to an end, since it visits no place of the index twice. -/
theorem Chained.exists_outcome (h : r.Chained ref visited last next) :
    ∃ found place, r.Outcome ref found place := by
  induction hleft : r.index.length - visited.length using Nat.strongRecOn
    generalizing visited last next with
  | _ left ih =>
    by_cases hold : canonical next ∈ visited
    · cases h with
      | start => cases hold
      | step hbefore hnew hs href => exact ⟨_, _, .looping (.step hbefore hnew hs href) href hold⟩
    · cases hs : r.schemaAt? (canonical next) with
      | none => exact ⟨_, _, .dangling h hs⟩
      | some s =>
        cases href : s.isRef with
        | false => exact ⟨_, _, .concrete h hs href⟩
        | true =>
          have hstep := h.step hold hs href
          have hle := hstep.passed.length_le
          rw [List.length_cons] at hle
          exact ih _ (by rw [List.length_cons]; omega) hstep rfl

/-- Only the reference that a chain starts with can be empty. -/
theorem Chained.last_of_empty (h : r.Chained ref visited last next) (hempty : next = "") :
    last = none := by
  cases h with
  | start => rfl
  | step _ _ _ href => simp [Schema.isRef, hempty] at href

/-- Inside the document a lookup reads the index. -/
theorem lookup?_run_inside (h : Reference.isExternal ref = false) :
    (lookup? Schema ref).run r = (r.schemaAt? (canonical ref), r) := by
  rw [lookup?_run, h]
  rfl

/-! Single steps of the two walks. -/

theorem follow_run_missing (hnext : Plain next) (hs : r.schemaAt? (canonical next) = none)
    (hnew : canonical next ∉ visited) (hne : next ≠ "") (steps : Nat) :
    (follow Schema (steps + 1) visited last next).run r = (none, r) := by
  rw [follow, if_neg hne, if_neg (by simpa using hnew), StateT.run_bind,
    lookup?_run_inside hnext.inside, hs]
  rfl

theorem follow_run_found {s : Schema} (hnext : Plain next)
    (hs : r.schemaAt? (canonical next) = some s) (hnew : canonical next ∉ visited)
    (hne : next ≠ "") (steps : Nat) :
    (follow Schema (steps + 1) visited last next).run r =
      (follow Schema steps (canonical next :: visited) (some (canonical next, s)) s.ref).run r := by
  rw [follow, if_neg hne, if_neg (by simpa using hnew), StateT.run_bind,
    lookup?_run_inside hnext.inside, hs]
  rfl

/-- A chain that has run into itself, or that is over, ends with the last object. -/
theorem follow_run_over (h : next = "" ∨ canonical next ∈ visited) (steps : Nat) :
    (follow Schema steps visited last next).run r = (last, r) := by
  cases steps with
  | zero => rfl
  | succ steps =>
    rw [follow]
    by_cases hempty : next = ""
    · rw [if_pos hempty]
      rfl
    · rw [if_neg hempty, if_pos (by simpa using h.resolve_left hempty)]
      rfl

theorem followTarget_run (hnext : Plain next) (hnew : canonical next ∉ visited) (steps : Nat) :
    (followTarget (steps + 1) visited (canonical next)).run r =
      match r.schemaAt? (canonical next) with
      | none => (canonical next, r)
      | some s =>
        if s.isRef then (followTarget steps (canonical next :: visited) (canonical s.ref)).run r
        else (canonical next, r) := by
  have hlookup := lookup?_run_inside (r := r) hnext.canonical.inside
  rw [hnext.canonical_canonical] at hlookup
  rw [followTarget, if_neg (by simpa using hnew), StateT.run_bind, hlookup]
  cases r.schemaAt? (canonical next) with
  | none => rfl
  | some s =>
    change (if s.isRef then _ else _ : Resolving String).run r = _
    dsimp only
    split <;> rfl

/-! Whole walks. -/

section

variable {doc : Document} (hindex : r.index = Index.ofDocument doc)
  (hplain : ∀ visited last next, r.Chained ref visited last next → Plain next)

include hindex in
theorem ne_empty_of_schemaAt? {s : Schema} (h : r.schemaAt? (canonical next) = some s) :
    next ≠ "" := by
  rintro rfl
  obtain ⟨o, ho, -⟩ := Option.bind_eq_some_iff.mp h
  have hmem := mem_index_of_at? ho
  rw [hindex] at hmem
  exact Index.root_not_mem_ofDocument doc o hmem

include hindex hplain

/-- The first walk goes along the chain, one step for each place. -/
theorem follow_run_chained (h : r.Chained ref visited last next) (steps : Nat) :
    (follow Schema (visited.length + steps) [] none ref).run r =
      (follow Schema steps visited last next).run r := by
  induction h generalizing steps with
  | start => rw [List.length_nil, Nat.zero_add]
  | step h hnew hs href ih =>
    rw [List.length_cons, Nat.add_right_comm, Nat.add_assoc, ih,
      follow_run_found (hplain _ _ _ h) hs hnew (ne_empty_of_schemaAt? hindex hs)]

omit hindex in
/-- So does the second. -/
theorem followTarget_run_chained (h : r.Chained ref visited last next) (steps : Nat) :
    (followTarget (visited.length + steps) [] (canonical ref)).run r =
      (followTarget steps visited (canonical next)).run r := by
  induction h generalizing steps with
  | start => rw [List.length_nil, Nat.zero_add]
  | step h hnew hs href ih =>
    rw [List.length_cons, Nat.add_right_comm, Nat.add_assoc, ih,
      followTarget_run (hplain _ _ _ h) hnew, hs]
    exact if_pos href

/-- With more steps than there are places the first walk finds what the chain ends with. -/
theorem follow_run_outcome {found : Option Schema} (h : r.Outcome ref found place) :
    ∃ entry : Option (String × Schema), entry.map (·.2) = found ∧
      ∀ steps, r.index.length + 1 < steps →
        (follow Schema steps [] none ref).run r = (entry, r) := by
  have hwalk {visited : List String} {last : Option (String × Schema)} {next : String}
      (h : r.Chained ref visited last next) {steps : Nat} (hsteps : r.index.length + 1 < steps) :
      ∃ left, (follow Schema steps [] none ref).run r =
        (follow Schema (left + 1 + 1) visited last next).run r := by
    obtain ⟨left, rfl⟩ : ∃ left, steps = visited.length + (left + 1 + 1) :=
      ⟨steps - visited.length - 2, by have := h.passed.length_le; omega⟩
    exact ⟨left, follow_run_chained hindex hplain h _⟩
  cases h with
  | @concrete visited last next s h hs href =>
    refine ⟨some (canonical next, s), rfl, fun steps hsteps => ?_⟩
    obtain ⟨left, hleft⟩ := hwalk h hsteps
    have hnew : canonical next ∉ visited := h.passed.not_mem fun t ht => by
      rwa [← Option.some.inj (hs.symm.trans ht)]
    have hover : s.ref = "" := by simpa [Schema.isRef] using href
    rw [hleft, follow_run_found (hplain _ _ _ h) hs hnew (ne_empty_of_schemaAt? hindex hs),
      follow_run_over (.inl hover)]
  | @dangling visited last next h hs =>
    refine ⟨none, rfl, fun steps hsteps => ?_⟩
    obtain ⟨left, hleft⟩ := hwalk h hsteps
    have hnew : canonical next ∉ visited := h.passed.not_mem fun t ht => by
      rw [hs] at ht
      cases ht
    rw [hleft]
    by_cases hempty : next = ""
    · rw [follow_run_over (.inl hempty), h.last_of_empty hempty]
    · exact follow_run_missing (hplain _ _ _ h) hs hnew hempty _
  | @looping visited place s h href hold =>
    refine ⟨some (place, s), rfl, fun steps hsteps => ?_⟩
    obtain ⟨left, hleft⟩ := hwalk h hsteps
    rw [hleft, follow_run_over (.inr hold)]

omit hindex in
/-- With as many steps the second walk finds the pointer that the chain ends with. -/
theorem followTarget_run_outcome {found : Option Schema} (h : r.Outcome ref found place)
    {steps : Nat} (hsteps : r.index.length + 1 < steps) :
    (followTarget steps [] (canonical ref)).run r = (place, r) := by
  have hwalk {visited : List String} {last : Option (String × Schema)} {next : String}
      (h : r.Chained ref visited last next) : ∃ left,
        (followTarget steps [] (canonical ref)).run r =
          (followTarget (left + 1) visited (canonical next)).run r := by
    obtain ⟨left, rfl⟩ : ∃ left, steps = visited.length + (left + 1) :=
      ⟨steps - visited.length - 1, by have := h.passed.length_le; omega⟩
    exact ⟨left, followTarget_run_chained hplain h _⟩
  cases h with
  | @concrete visited last next s h hs href =>
    obtain ⟨left, hleft⟩ := hwalk h
    have hnew : canonical next ∉ visited := h.passed.not_mem fun t ht => by
      rwa [← Option.some.inj (hs.symm.trans ht)]
    rw [hleft, followTarget_run (hplain _ _ _ h) hnew, hs]
    simp [href]
  | @dangling visited last next h hs =>
    obtain ⟨left, hleft⟩ := hwalk h
    have hnew : canonical next ∉ visited := h.passed.not_mem fun t ht => by
      rw [hs] at ht
      cases ht
    rw [hleft, followTarget_run (hplain _ _ _ h) hnew, hs]
  | @looping visited place s h href hold =>
    obtain ⟨left, hleft⟩ := hwalk h
    rw [hleft, followTarget_visited hold]
    rfl

end

/-- Every chain of plain references in a document ends in one of three ways, and both walks end with
it: one with the schema, the other with the pointer. Neither reads another document, and neither
is cut short: more steps lead to the same. -/
theorem walks_agree {doc : Document} (hindex : r.index = Index.ofDocument doc)
    (hplain : ∀ visited last next, r.Chained ref visited last next → Plain next) :
    (∃ found place, r.Outcome ref found place) ∧
      ∀ found place, r.Outcome ref found place →
        (find? Schema ref).run r = (found, r) ∧ (target ref).run r = (place, r) ∧
        ∀ steps, r.chainBound ≤ steps →
          (follow Schema steps [] none ref).run r = (locate? Schema ref).run r ∧
          (followTarget steps [] (canonical ref)).run r = (target ref).run r := by
  have hbound : r.index.length + 1 < r.chainBound := by
    unfold chainBound
    omega
  refine ⟨Chained.exists_outcome .start, fun found place h => ?_⟩
  obtain ⟨entry, hfound, hfollow⟩ := follow_run_outcome hindex hplain h
  have hlocate : (locate? Schema ref).run r = (entry, r) := by
    rw [locate?_run, hfollow _ hbound]
  have htarget : (target ref).run r = (place, r) := by
    rw [target_run, followTarget_run_outcome hplain h hbound]
  refine ⟨?_, htarget, fun steps hsteps => ⟨?_, ?_⟩⟩
  · rw [find?, StateT.run_bind, hlocate, ← hfound]
    rfl
  · rw [hlocate, hfollow _ (Nat.lt_of_lt_of_le hbound hsteps)]
  · rw [htarget, followTarget_run_outcome hplain h (Nat.lt_of_lt_of_le hbound hsteps)]

/-- A chain that comes back to its second schema. -/
def windingDocument : Document where
  components := some {
    schemas := some (.ofList [
      ("A", some { ref := "#/components/schemas/B/items" }),
      ("B", some { items := some (.single { ref := "#/components/schemas/~0" }) }),
      ("~", some { ref := "#/components/schemas/B/items" })]) }

theorem walks_agree_windingDocument :
    (∃ s, (find? Schema "#/components/schemas/A").run (.ofDocument windingDocument none) =
      (some s, .ofDocument windingDocument none) ∧ s.ref = "#/components/schemas/B/items") ∧
    (target "#/components/schemas/A").run (.ofDocument windingDocument none) =
      ("#/components/schemas/B/items", .ofDocument windingDocument none) := by
  let r := Resolver.ofDocument windingDocument none
  have hrefs : ∀ entry ∈ r.schemas,
      Reference.isExternal entry.2.ref = false ∧ '%' ∉ entry.2.ref.toList := by decide +kernel
  have hplain : ∀ visited last next, r.Chained "#/components/schemas/A" visited last next →
      Plain next := by
    intro visited last next h
    rcases h.next_cases with rfl | ⟨entry, hentry, rfl⟩
    · exact Reference.plain_of_percent_not_mem (by decide) (by decide)
    · exact Reference.plain_of_percent_not_mem (hrefs entry hentry).1 (hrefs entry hentry).2
  have honward (next' : String) {visited : List String} {last : Option (String × Schema)}
      {next : String} (h : r.Chained "#/components/schemas/A" visited last next)
      (hs : (r.schemaAt? (canonical next)).map Schema.ref = some next')
      (hnew : canonical next ∉ visited) (hne : next' ≠ "") : ∃ s, s.ref = next' ∧
        r.Chained "#/components/schemas/A" (canonical next :: visited)
          (some (canonical next, s)) next' := by
    obtain ⟨s, hfound, rfl⟩ := Option.map_eq_some_iff.mp hs
    exact ⟨s, rfl, h.step hnew hfound (by simpa [Schema.isRef] using hne)⟩
  obtain ⟨_, -, hfirst⟩ := honward "#/components/schemas/B/items" .start
    (by decide +kernel) (by decide) (by decide)
  obtain ⟨_, -, hsecond⟩ := honward "#/components/schemas/~0" hfirst
    (by decide +kernel) (by decide) (by decide)
  obtain ⟨s, hs, hthird⟩ := honward "#/components/schemas/B/items" hsecond
    (by decide +kernel) (by decide) (by decide)
  rw [← hs] at hthird
  obtain ⟨hfind, htarget, -⟩ := (walks_agree rfl hplain).2 _ _
    (.looping hthird (by simp [Schema.isRef, hs]) (by rw [hs]; decide))
  refine ⟨⟨s, hfind, hs⟩, ?_⟩
  rwa [hs] at htarget

end Resolver

end ApiTypes
