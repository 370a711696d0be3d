import ApiTypes.Proofs.PlainDecoding

/-!
Records and maps in plain documents. A field of a record that has been decoded without a problem has
its value from the entry with its name, and what stands in an ordered map has it from the entry
there.
-/

namespace ApiTypes.Yaml

variable {α β σ κ : Type} {tree : Tree}

/-! Gathering the entries of a mapping. -/

theorem requireKey_calm (key : Value) : Decode.Below tree (requireKey key) (requireKey key) := by
  unfold requireKey
  split
  · exact .throw (by trivial)
  · exact .pure trivial

namespace Gathering

section

variable {key : Decoder κ} {identity : κ → Value} {put put' : σ → Bool → Node → κ → Node → Decode σ}
  {keyPost : Node → κ → Prop} {entries : List (Node × Node)}

/-- An entry is passed over, or put under what its key is read as. -/
theorem own_matches (inv : σ → Prop) (hkey : Decoder.Matches tree key key keyPost)
    {entry : Node × Node} (hentry : PlainEntry entry)
    (hput : ∀ value again k, Decode.Matches tree (put value again entry.1 k entry.2)
      (put' value again entry.1 k entry.2) fun value' =>
        keyPost entry.1 k → inv value → inv value') (g : Gathered σ) :
    Decode.Matches tree (own ⟨key, identity, put⟩ g entry) (own ⟨key, identity, put'⟩ g entry)
      fun g' => inv g.value → inv g'.value := by
  obtain ⟨keyNode, node⟩ := entry
  unfold own
  dsimp only
  split
  · exact .pure id
  · refine .bind (.visit hentry.keyNode (hkey _ hentry.keyNode)) fun found => ?_
    cases found with
    | none => exact .pure fun _ => id
    | some k =>
      refine .andThen (requireKey_calm _) fun _ => ?_
      split
      · exact .pure fun _ => id
      · exact (hput _ _ _).bind fun value => .pure fun hvalue hgiven hinv =>
          hvalue (hgiven.value k rfl) hinv

/-- No entry of a plain mapping is taken over from another one. -/
theorem run_of_plain (how : Gathering σ κ) (free : Decoder Value) (steps : Nat)
    (taken : Option (List Value)) (start : σ) (hentries : ∀ entry ∈ entries, PlainEntry entry) :
    how.run free (steps + 1) taken start entries = (do
      let g ← entries.foldlM how.own ⟨start, taken, []⟩
      return (g.value, g.taken)) := by
  have hnone : entries.filter (isMergeKey ·.1) = [] := by
    refine List.filter_eq_nil_iff.mpr fun entry hentry => ?_
    have hplain := (hentries entry hentry).key
    cases hkey : entry.1 with
    | scalar line tag value =>
      rw [hkey, isPlainKey] at hplain
      simp_all
    | _ => simp [isMergeKey]
  rw [run]
  simp only [hnone, List.getLast?_nil]

theorem run_matches (inv : σ → Prop) (hkey : Decoder.Matches tree key key keyPost)
    (hentries : ∀ entry ∈ entries, PlainEntry entry)
    (hput : ∀ entry ∈ entries, ∀ value again k,
      Decode.Matches tree (put value again entry.1 k entry.2) (put' value again entry.1 k entry.2)
        fun value' => keyPost entry.1 k → inv value → inv value')
    (free : Decoder Value) (steps : Nat) (taken : Option (List Value)) (start : σ) :
    Decode.Matches tree (run ⟨key, identity, put⟩ free steps taken start entries)
      (run ⟨key, identity, put'⟩ free steps taken start entries)
      fun result => inv start → inv result.1 := by
  cases steps with
  | zero => exact .throw (by trivial)
  | succ steps =>
    rw [run_of_plain _ _ _ _ _ hentries, run_of_plain _ _ _ _ _ hentries]
    exact (Decode.Matches.foldlM (fun g => inv g.value) (fun entry hentry =>
      own_matches inv hkey (hentries entry hentry) (hput entry hentry)) _).bind
        fun g => .pure fun hg => hg

/-- Nothing is claimed of what is gathered. -/
theorem run_calm (hkey : Decoder.Calm tree key) (hentries : ∀ entry ∈ entries, PlainEntry entry)
    (hput : ∀ entry ∈ entries, ∀ value again k, Decode.Below tree
      (put value again entry.1 k entry.2) (put value again entry.1 k entry.2))
    (free : Decoder Value) (steps : Nat) (taken : Option (List Value)) (start : σ) :
    Decode.Below tree (run ⟨key, identity, put⟩ free steps taken start entries)
      (run ⟨key, identity, put⟩ free steps taken start entries) := by
  refine (run_matches (fun _ => True) hkey hentries (fun entry hentry value again k => ?_)
    free steps taken start).below
  exact (hput entry hentry value again k).weaken fun _ _ _ _ => trivial

end

end Gathering

/-! Free values. -/

theorem freeWithin_calm (steps : Nat) : Decoder.Calm tree (freeWithin steps) := by
  induction steps with
  | zero => exact fun _ _ => .throw (by trivial)
  | succ steps ih =>
    intro node hplain
    unfold freeWithin
    match node, hplain with
    | .scalar _ tag value, _ =>
      dsimp only
      split
      · exact .pure (.some trivial)
      · rename_i hfault
        exact .throw (scalarAtom_fault hfault)
    | .sequence _ _ items, hplain =>
      have hitems := (isPlain_sequence.mp hplain).2
      exact .andThen (Decode.Matches.mapM fun item hitem => .visit (hitems item hitem)
        (ih item (hitems item hitem))).below fun _ => .pure (.some trivial)
    | .mapping _ _ entries, hplain =>
      have hentries := (isPlain_mapping.mp hplain).2
      have hvalue (entry : Node × Node) (hentry : entry ∈ entries) :=
        (Decode.Matches.visit (hentries entry hentry).node
          (ih entry.2 (hentries entry hentry).node)).below
      refine .distinct ?_
      dsimp only
      -- The keys are all texts or not, which makes no difference.
      split
      · refine .andThen (.reading (.andThen (Gathering.run_calm text_calm hentries
          (fun entry hentry _ _ _ => (hvalue entry hentry).andThen fun found => ?_) _ _ _ _)
          fun _ => .pure trivial)) fun _ => .pure (.some trivial)
        cases found <;> exact .pure trivial
      · refine .andThen (.reading (.andThen (Gathering.run_calm ih hentries
          (fun entry hentry _ _ _ => (hvalue entry hentry).andThen fun found => ?_) _ _ _ _)
          fun _ => .pure trivial)) fun _ => .pure (.some trivial)
        cases found <;> exact .pure trivial

theorem free_calm : Decoder.Calm tree free :=
  fun node hplain => .reading (freeWithin_calm tree.reach node hplain)

theorem freeList_calm : Decoder.Calm tree freeList :=
  (sequence_matches _ free_calm).weaken fun _ _ _ => trivial

/-! Records. -/

/-- The entries of a mapping. -/
def Node.entries : Node → List (Node × Node)
  | .mapping _ _ entries => entries
  | _ => []

/-- The value stands in a mapping under the name. -/
def Node.HasEntry (node : Node) (name : String) (value : Node) : Prop :=
  ∃ key, (key, value) ∈ node.entries ∧ key.keyText = name

/-- Decoding the first field matches decoding the second, and keeps the property of the record at a
value that stands under the name of the field. -/
structure RecordField.Matches (tree : Tree) (node : Node) (inv : σ → Prop)
    (field field' : RecordField σ) : Prop where
  name : field.name = field'.name
  decode : ∀ value below, below.isPlain → Decode.Matches tree (field.decode value below)
    (field'.decode value below) fun value' =>
      node.HasEntry field.name below → inv value → inv value'

section Records

variable {node : Node} {inv : σ → Prop}

theorem setField_matches {name : String} {decode decode' : Decoder β} {set : σ → β → σ}
    {post : Node → β → Prop} (h : Decoder.Matches tree decode decode' post)
    (hset : ∀ value below x, node.HasEntry name below → post below x → inv value →
      inv (set value x)) :
    RecordField.Matches tree node inv (setField name decode set) (setField name decode' set) where
  name := rfl
  decode value below hplain := by
    refine .bind (.visit hplain (h below hplain)) fun found => ?_
    cases found with
    | none => exact .pure fun _ _ => id
    | some x => exact .pure fun hfound hentry => hset value below x hentry (hfound.value x rfl)

/-- A field that the property does not speak of. -/
theorem setField_matches_aside {name : String} {decode decode' : Decoder β} {set : σ → β → σ}
    {post : Node → β → Prop} (h : Decoder.Matches tree decode decode' post)
    (hset : ∀ value x, inv value → inv (set value x)) :
    RecordField.Matches tree node inv (setField name decode set) (setField name decode' set) :=
  setField_matches h fun value _ x _ _ => hset value x

/-- The fields of a name are found together. -/
theorem find?_matches {fields fields' : List (RecordField σ)}
    (h : List.Forall₂ (RecordField.Matches tree node inv) fields fields') (name : String) :
    Option.Rel (RecordField.Matches tree node inv) (fields.find? (·.name == name))
      (fields'.find? (·.name == name)) := by
  induction h with
  | nil => exact .none
  | cons hfirst _ ih =>
    rw [List.find?_cons, List.find?_cons, ← hfirst.name]
    split
    · exact .some hfirst
    · exact ih

theorem record_matches (target : String) {fields fields' : List (RecordField σ)} {start : σ}
    {inv : Node → σ → Prop}
    (hfields : ∀ node, List.Forall₂ (RecordField.Matches tree node (inv node)) fields fields')
    (hstart : ∀ node, inv node start) :
    Decoder.Matches tree (record target fields start) (record target fields' start) inv := by
  intro node hplain
  unfold record
  split
  · rename_i line tag entries
    have hentries := (isPlain_mapping.mp hplain).2
    refine .distinct (.reading (.bind (Gathering.run_matches (inv (.mapping line tag entries))
      text_matches hentries (fun entry hentry value again k => ?_) _ _ _ _)
      fun result => .pure fun hresult => .some (hresult (hstart _))))
    have hfound := find?_matches (hfields (.mapping line tag entries)) k
    have hname (field) (hfield : fields.find? (·.name == k) = some field) : field.name = k := by
      simpa using List.find?_some hfield
    generalize fields.find? (·.name == k) = found, fields'.find? (·.name == k) = found'
      at hfound hname
    cases hfound with
    | none => exact .pure fun _ => id
    | @some field field' hfield =>
      dsimp only
      split
      · exact .andThen (.note _) fun _ => .pure fun _ => id
      · refine (hfield.decode value entry.2 (hentries entry hentry).node).weaken
          fun value' hvalue hkey => hvalue ⟨entry.1, hentry, ?_⟩
        rw [hname field rfl]
        exact (hkey (hentries entry hentry).key).symm
  · exact (nothing_matches _ _ hplain).weaken fun _ ⟨hnull, hfound⟩ => hfound ▸ .none hnull

end Records

/-! Ordered maps. -/

section Maps

variable [Inhabited α] {decode decode' : Decoder α} {post : Node → α → Prop}

/-- The entries are decoded alike up to a fault, or up to the end. -/
theorem orderedEntries_matches (h : Decoder.Matches tree decode decode' post)
    (inv : String × α → Prop) {entries : List (Node × Node)}
    (hentries : ∀ entry ∈ entries, PlainEntry entry)
    (hinv : ∀ entry ∈ entries, ∀ found, Given entry.2 (post entry.2) found →
      inv (entry.1.keyText, found.getD default)) {m : OrderedMap α}
    (hm : ∀ entry ∈ m.toList, inv entry) :
    (∃ m' cause, orderedEntries tree decode entries m = (m', some cause) ∧ cause.IsFault) ∨
      ∃ m', orderedEntries tree decode entries m = (m', none) ∧
        orderedEntries tree decode' entries m = (m', none) ∧ ∀ entry ∈ m'.toList, inv entry := by
  induction entries generalizing m with
  | nil => exact .inr ⟨m, rfl, rfl, hm⟩
  | cons entry rest ih =>
    obtain ⟨hentry, hrest⟩ := List.forall_mem_cons.mp hentries
    rw [orderedEntries, orderedEntries]
    obtain ⟨e, hrun⟩ | ⟨found, hrun, hrun', hfound⟩ :=
      (Decode.Matches.visit hentry.node (h entry.2 hentry.node)).run_cases
    · rw [hrun]
      exact .inl ⟨m, _, rfl, trivial⟩
    · rw [hrun, hrun']
      refine ih hrest (fun other hother => hinv other (List.mem_cons_of_mem entry hother))
        fun other hother => ?_
      rcases OrderedMap.mem_toList_set hother with rfl | ⟨-, hold⟩
      · exact hinv entry List.mem_cons_self found hfound
      · exact hm other hold

/-- What stands in an ordered map has it from the entry of its name. -/
theorem ordered_matches (h : Decoder.Matches tree decode decode' post) :
    Decoder.Matches tree (ordered decode) (ordered decode') fun node m =>
      ∀ entry ∈ m.toList, ∃ below found, node.HasEntry entry.1 below ∧
        Given below (post below) found ∧ entry.2 = found.getD default := by
  intro node hplain
  refine .reading ?_
  cases hnull : node.isNull with
  | true =>
    simp only [orderedOnto, hnull]
    exact .pure (.some nofun)
  | false =>
    simp only [orderedOnto, hnull]
    match node, hplain with
    | .scalar .., _ => exact .throw (by trivial)
    | .sequence .., _ => exact .throw (by trivial)
    | .mapping line tag entries, hplain =>
      obtain ⟨m, cause, hrun, hfault⟩ | ⟨m, hrun, hrun', hm⟩ := orderedEntries_matches h
        (fun entry => ∃ below found, (Node.mapping line tag entries).HasEntry entry.1 below ∧
          Given below (post below) found ∧ entry.2 = found.getD default)
        (isPlain_mapping.mp hplain).2
        (fun entry hentry found hfound => ⟨entry.2, found, ⟨entry.1, hentry, rfl⟩, hfound, rfl⟩)
        (m := .empty) nofun
      · simp only [hrun]
        exact .throw hfault
      · simp only [hrun, hrun']
        exact .pure (.some hm)

end Maps

end ApiTypes.Yaml
