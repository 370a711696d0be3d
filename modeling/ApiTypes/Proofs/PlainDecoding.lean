import ApiTypes.Proofs.Registry
import ApiTypes.Yaml.Record

/-!
Decoding without aliases. In a plain document nothing is followed from one place to another, so what
a decoder makes of a node does not depend on what has been visited before: it fails everywhere, or
it gives the same value and notes the same problems. What has been decoded as a part of something
can therefore be decoded on its own.

The two sides of a match need not be the same decoding. A decoder that may go further down gives
whatever a decoder that may not go as far gives, and both facts follow the decoders in the same way,
together with what is true of the values.
-/

namespace ApiTypes.Yaml

variable {α β : Type}

/-- What is there, if anything, satisfies `post`. -/
def IfAny (post : α → Prop) (found : Option α) : Prop := ∀ x, found = some x → post x

theorem IfAny.none {post : α → Prop} : IfAny post none := nofun

theorem IfAny.some {post : α → Prop} {x : α} (h : post x) : IfAny post (some x) := by
  intro y hy
  cases hy
  exact h

/-! Plain documents. -/

/-- Whether a key is no merge key and is read as it is written, also in a reference. Whatever tag is
written in front of it, only that of binary data makes a key another text; in a reference a percent
sign starts an escape. -/
def isPlainKey : Node → Bool
  | .scalar line tag value =>
    !isMergeKey (.scalar line tag value) && tag != "!!binary" && !value.toList.contains '%'
  | _ => true

mutual

/-- Whether a document has no aliases, has plain keys only, and has no key of a mapping twice. A key
is the same as another if it has the same text, as in ordered maps and in pointers. A sequence is
not longer than an integer of 64 bits can count. -/
def Node.isPlain : Node → Bool
  | .scalar .. => true
  | .sequence _ _ items => decide (items.length ≤ twoTo 63) && arePlain items
  | .mapping _ _ entries => decide (entries.map (·.1.keyText)).Nodup && arePlainEntries entries
  | .alias .. | .cycle .. => false

def arePlain : List Node → Bool
  | [] => true
  | node :: rest => node.isPlain && arePlain rest

def arePlainEntries : List (Node × Node) → Bool
  | [] => true
  | (key, node) :: rest =>
    isPlainKey key && key.isPlain && node.isPlain && arePlainEntries rest

end

/-- An entry of a plain mapping. -/
structure PlainEntry (entry : Node × Node) : Prop where
  key : isPlainKey entry.1
  keyNode : entry.1.isPlain
  node : entry.2.isPlain

theorem arePlain_iff {items : List Node} : arePlain items ↔ ∀ item ∈ items, item.isPlain := by
  induction items with
  | nil => simp [arePlain]
  | cons item rest ih => simp [arePlain, ih]

theorem arePlainEntries_iff {entries : List (Node × Node)} :
    arePlainEntries entries ↔ ∀ entry ∈ entries, PlainEntry entry := by
  induction entries with
  | nil => simp [arePlainEntries]
  | cons entry rest ih =>
    have hentry : PlainEntry entry ↔ (isPlainKey entry.1 ∧ entry.1.isPlain) ∧ entry.2.isPlain :=
      ⟨fun h => ⟨⟨h.key, h.keyNode⟩, h.node⟩, fun h => ⟨h.1.1, h.1.2, h.2⟩⟩
    simp [arePlainEntries, ih, hentry]

theorem isPlain_sequence {line : Nat} {tag : String} {items : List Node} :
    (Node.sequence line tag items).isPlain ↔
      items.length ≤ twoTo 63 ∧ ∀ item ∈ items, item.isPlain := by
  simp [Node.isPlain, arePlain_iff]

theorem isPlain_mapping {line : Nat} {tag : String} {entries : List (Node × Node)} :
    (Node.mapping line tag entries).isPlain ↔
      (entries.map (·.1.keyText)).Nodup ∧ ∀ entry ∈ entries, PlainEntry entry := by
  simp [Node.isPlain, arePlainEntries_iff]

/-! What becomes of decoding, wherever it starts. -/

/-- No alias has been met. -/
def Tally.IsCalm (t : Tally) : Prop := t.aliased = 0 ∧ t.following = []

theorem Tally.isCalm_start : IsCalm {} := ⟨rfl, rfl⟩

/-- Whether decoding ended at once, and not with a list of problems. -/
def DecodeError.IsFault : DecodeError → Prop
  | .problems _ => False
  | _ => True

namespace Decode

variable {tree : Tree}

/-- The decoding gives `x` and notes the problems, last first, wherever it starts. -/
def Ends (tree : Tree) (d : Decode α) (x : α) (noted : List Problem) : Prop :=
  ∀ t : Tally, t.IsCalm → ∃ t', (ReaderT.run d tree).run t = .ok (x, t') ∧ t'.IsCalm ∧
    t'.problems = noted ++ t.problems

/-- The decoding ends at the same fault, wherever it starts. -/
def Fails (tree : Tree) (d : Decode α) : Prop :=
  ∃ e : DecodeError, e.IsFault ∧ ∀ t : Tally, t.IsCalm → (ReaderT.run d tree).run t = .error e

/-- What comes of the first comes of the second as well, unless the first fails; and what comes
without a problem satisfies `post`. -/
def Matches (tree : Tree) (d d' : Decode α) (post : α → Prop) : Prop :=
  Fails tree d ∨ ∃ x noted, Ends tree d x noted ∧ Ends tree d' x noted ∧ (noted = [] → post x)

/-- What comes of the first comes of the second as well, unless the first fails. -/
abbrev Below (tree : Tree) (d d' : Decode α) : Prop := Matches tree d d' fun _ => True

theorem Ends.unique {d : Decode α} {x y : α} {noted other : List Problem}
    (h : Ends tree d x noted) (h' : Ends tree d y other) : x = y ∧ noted = other := by
  obtain ⟨t, hrun, -, hproblems⟩ := h {} Tally.isCalm_start
  obtain ⟨t', hrun', -, hproblems'⟩ := h' {} Tally.isCalm_start
  rw [hrun] at hrun'
  cases hrun'
  exact ⟨rfl, List.append_cancel_right (hproblems.symm.trans hproblems')⟩

theorem Ends.not_fails {d : Decode α} {x : α} {noted : List Problem} (h : Ends tree d x noted) :
    ¬ Fails tree d := by
  rintro ⟨e, -, hfail⟩
  obtain ⟨t, hrun, -⟩ := h {} Tally.isCalm_start
  rw [hfail {} Tally.isCalm_start] at hrun
  cases hrun

/-! Steps. -/

theorem Ends.pure (x : α) : Ends tree (Pure.pure x) x [] := fun t ht => ⟨t, rfl, ht, rfl⟩

theorem Ends.read : Ends tree (MonadReader.read : Decode Tree) tree [] :=
  fun t ht => ⟨t, rfl, ht, rfl⟩

theorem Ends.note (list : List Problem) : Ends tree (Decode.note list) () list.reverse :=
  fun t ht => ⟨{ t with problems := list.reverse ++ t.problems }, rfl, ht, rfl⟩

theorem Ends.count : Ends tree Decode.count () [] := by
  rintro t ⟨haliased, hfollowing⟩
  have hvisited : t.visited.aliased = 0 := by simp [Tally.visited, haliased, hfollowing]
  have hfew : t.visited.isExcessive = false := by simp [Tally.isExcessive, hvisited]
  have hrun : (ReaderT.run Decode.count tree).run t = (ReaderT.run
      (if t.visited.isExcessive then throw (.invalid "document contains excessive aliasing")
        else Pure.pure () : Decode Unit) tree).run t.visited := rfl
  rw [hfew] at hrun
  exact ⟨t.visited, hrun, ⟨hvisited, hfollowing⟩, rfl⟩

theorem Fails.throw {e : DecodeError} (h : e.IsFault) :
    Fails tree (MonadExcept.throw e : Decode α) :=
  ⟨e, h, fun _ _ => rfl⟩

theorem Ends.bind {d : Decode α} {f : α → Decode β} {x : α} {y : β} {noted later : List Problem}
    (hd : Ends tree d x noted) (hf : Ends tree (f x) y later) :
    Ends tree (d >>= f) y (later ++ noted) := by
  intro t ht
  obtain ⟨between, hrun, hcalm, hproblems⟩ := hd t ht
  obtain ⟨t', hrun', hcalm', hproblems'⟩ := hf between hcalm
  refine ⟨t', ?_, hcalm', by rw [hproblems', hproblems, List.append_assoc]⟩
  rw [ReaderT.run_bind, StateT.run_bind, hrun]
  exact hrun'

theorem Fails.bind {d : Decode α} (h : Fails tree d) (f : α → Decode β) :
    Fails tree (d >>= f) := by
  obtain ⟨e, hfault, hfail⟩ := h
  refine ⟨e, hfault, fun t ht => ?_⟩
  rw [ReaderT.run_bind, StateT.run_bind, hfail t ht]
  rfl

theorem Ends.fails_bind {d : Decode α} {f : α → Decode β} {x : α} {noted : List Problem}
    (h : Ends tree d x noted) (hf : Fails tree (f x)) : Fails tree (d >>= f) := by
  obtain ⟨e, hfault, hfail⟩ := hf
  refine ⟨e, hfault, fun t ht => ?_⟩
  obtain ⟨between, hrun, hcalm, -⟩ := h t ht
  rw [ReaderT.run_bind, StateT.run_bind, hrun]
  exact hfail between hcalm

namespace Matches

variable {post : α → Prop} {post' : β → Prop}

theorem weaken {d d' : Decode α} {weaker : α → Prop} (h : Matches tree d d' post)
    (himp : ∀ x, post x → weaker x) : Matches tree d d' weaker :=
  h.imp_right fun ⟨x, noted, hends, hends', hpost⟩ =>
    ⟨x, noted, hends, hends', fun hnone => himp x (hpost hnone)⟩

theorem below {d d' : Decode α} (h : Matches tree d d' post) : Below tree d d' :=
  h.weaken fun _ _ => trivial

/-- What comes of the first. -/
theorem ends {d d' : Decode α} (h : Matches tree d d' post) {x : α} {noted : List Problem}
    (hends : Ends tree d x noted) : Ends tree d' x noted ∧ (noted = [] → post x) := by
  obtain hfails | ⟨y, other, hd, hd', hpost⟩ := h
  · exact absurd hfails hends.not_fails
  · obtain ⟨rfl, rfl⟩ := hends.unique hd
    exact ⟨hd', hpost⟩

/-- It comes so wherever decoding starts. -/
theorem ending {d d' : Decode α} (h : Matches tree d d' post) :
    Matches tree d d' fun x => Ends tree d x [] :=
  h.imp_right fun ⟨x, noted, hends, hends', _⟩ =>
    ⟨x, noted, hends, hends', fun hnone => hnone ▸ hends⟩

theorem and {d d' d'' : Decode α} {post'' : α → Prop} (h : Matches tree d d' post)
    (h' : Matches tree d d'' post'') : Matches tree d d' fun x => post x ∧ post'' x :=
  h.imp_right fun ⟨x, noted, hends, hends', hpost⟩ =>
    ⟨x, noted, hends, hends', fun hnone => ⟨hpost hnone, (h'.ends hends).2 hnone⟩⟩

theorem pure {x : α} (h : post x) : Matches tree (Pure.pure x) (Pure.pure x) post :=
  .inr ⟨x, [], .pure x, .pure x, fun _ => h⟩

theorem throw {e : DecodeError} {d' : Decode α} (h : e.IsFault) :
    Matches tree (MonadExcept.throw e) d' post := .inl (.throw h)

theorem bind {d d' : Decode α} {f f' : α → Decode β} (hd : Matches tree d d' post)
    (hf : ∀ x, Matches tree (f x) (f' x) fun y => post x → post' y) :
    Matches tree (d >>= f) (d' >>= f') post' := by
  obtain hfails | ⟨x, noted, hends, hends', hpost⟩ := hd
  · exact .inl (hfails.bind f)
  · obtain hfails | ⟨y, later, hlater, hlater', hpost'⟩ := hf x
    · exact .inl (hends.fails_bind hfails)
    · refine .inr ⟨y, later ++ noted, hends.bind hlater, hends'.bind hlater', fun hnone => ?_⟩
      obtain ⟨hlast, hfirst⟩ := List.append_eq_nil_iff.mp hnone
      exact hpost' hlast (hpost hfirst)

/-- Something is done first that does not matter. -/
theorem andThen {d d' : Decode α} {f f' : α → Decode β} (hd : Below tree d d')
    (hf : ∀ x, Matches tree (f x) (f' x) post') : Matches tree (d >>= f) (d' >>= f') post' :=
  hd.bind fun x => (hf x).weaken fun _ hy _ => hy

/-- The document is the one at hand. -/
theorem reading {f f' : Tree → Decode β} (h : Matches tree (f tree) (f' tree) post') :
    Matches tree (MonadReader.read >>= f) (MonadReader.read >>= f') post' := by
  obtain hfails | ⟨y, noted, hends, hends', hpost⟩ := h
  · exact .inl (Ends.read.fails_bind hfails)
  · refine .inr ⟨y, noted, ?_, ?_, hpost⟩
    · simpa using Ends.read.bind hends
    · simpa using Ends.read.bind hends'

theorem mapM {f f' : α → Decode β} {post : α → β → Prop} {list : List α}
    (h : ∀ x ∈ list, Matches tree (f x) (f' x) (post x)) :
    Matches tree (list.mapM f) (list.mapM f') (List.Forall₂ post list) := by
  induction list with
  | nil =>
    rw [List.mapM_nil, List.mapM_nil]
    exact pure .nil
  | cons first rest ih =>
    rw [List.mapM_cons, List.mapM_cons]
    have hrest := List.forall_mem_cons.mp h
    exact hrest.1.bind fun y => (ih hrest.2).bind fun ys => pure fun hys hy => .cons hy hys

theorem foldlM (inv : β → Prop) {f f' : β → α → Decode β} {list : List α}
    (h : ∀ x ∈ list, ∀ y, Matches tree (f y x) (f' y x) fun y' => inv y → inv y') (start : β) :
    Matches tree (list.foldlM f start) (list.foldlM f' start) fun y => inv start → inv y := by
  induction list generalizing start with
  | nil =>
    rw [List.foldlM_nil, List.foldlM_nil]
    exact pure id
  | cons first rest ih =>
    rw [List.foldlM_cons, List.foldlM_cons]
    have hrest := List.forall_mem_cons.mp h
    exact (hrest.1 start).bind fun y => (ih hrest.2 y).weaken
      fun _ hlast hnext hstart => hlast (hnext hstart)

theorem note (list : List Problem) : Below tree (Decode.note list) (Decode.note list) :=
  .inr ⟨(), list.reverse, .note list, .note list, fun _ => trivial⟩

theorem count : Below tree Decode.count Decode.count :=
  .inr ⟨(), [], .count, .count, fun _ => trivial⟩

/-- Nothing comes without a problem where one is noted. -/
theorem problems {list : List Problem} (h : list ≠ []) {post : Option α → Prop} :
    Matches tree (Decode.problems list) (Decode.problems list) post := by
  refine .inr ⟨none, list.reverse, ?_, ?_, fun hnone => absurd (List.reverse_eq_nil_iff.mp hnone) h⟩
  all_goals exact Ends.bind (f := fun _ => Pure.pure none) (.note list) (.pure none)

theorem distinct {entries : List (Node × Node)} {d d' : Decode (Option α)}
    {post : Option α → Prop} (h : Matches tree d d' post) :
    Matches tree (Yaml.distinct entries d) (Yaml.distinct entries d') post := by
  unfold Yaml.distinct
  split
  · exact h
  · rename_i hrepeated
    exact problems hrepeated

end Matches

/-! Decoding on its own. -/

theorem Ends.run {d : Decode α} {x : α} {noted : List Problem} (h : Ends tree d x noted) :
    d.run tree = if noted.isEmpty then .ok x else .error (.problems noted.reverse) := by
  obtain ⟨t, hrun, -, hproblems⟩ := h {} Tally.isCalm_start
  rw [List.append_nil] at hproblems
  unfold Decode.run
  rw [hrun]
  simp only [hproblems]

theorem Fails.run {d : Decode α} (h : Fails tree d) :
    ∃ e, DecodeError.IsFault e ∧ d.run tree = .error e := by
  obtain ⟨e, hfault, hfail⟩ := h
  refine ⟨e, hfault, ?_⟩
  unfold Decode.run
  rw [hfail {} Tally.isCalm_start]

/-- What is decoded on its own comes so anywhere. -/
theorem Matches.of_run {d d' : Decode α} {post : α → Prop} (h : Matches tree d d' post) {x : α}
    (hrun : d.run tree = .ok x) : Ends tree d x [] ∧ post x := by
  obtain hfails | ⟨y, noted, hends, -, hpost⟩ := h
  · obtain ⟨e, -, he⟩ := hfails.run
    rw [hrun] at he
    cases he
  · rw [hends.run] at hrun
    cases noted with
    | nil =>
      cases hrun
      exact ⟨hends, hpost rfl⟩
    | cons problem rest => cases hrun

/-- The two sides on their own. -/
theorem Matches.run_cases {d d' : Decode α} {post : α → Prop} (h : Matches tree d d' post) :
    (∃ e, d.run tree = .error e) ∨ ∃ x, d.run tree = .ok x ∧ d'.run tree = .ok x ∧ post x := by
  cases hrun : d.run tree with
  | error e => exact .inl ⟨e, rfl⟩
  | ok x =>
    obtain ⟨hends, hpost⟩ := h.of_run hrun
    exact .inr ⟨x, rfl, (h.ends hends).1.run, hpost⟩

theorem Matches.absorb {d d' : Decode (Option α)} {post : Option α → Prop}
    (h : Matches tree d d' post) : Matches tree (Decode.absorb d) (Decode.absorb d') post := by
  refine reading ?_
  obtain hfails | ⟨x, noted, hends, hends', hpost⟩ := h
  · obtain ⟨e, hfault, hrun⟩ := hfails.run
    rw [hrun]
    cases e with
    | problems list => exact hfault.elim
    | _ => exact throw (by trivial)
  · rw [hends.run, hends'.run]
    cases noted with
    | nil => exact pure (hpost rfl)
    | cons problem rest => exact problems (by simp)

/-- A plain node is visited and nothing else. -/
theorem visit_of_plain {node : Node} (h : node.isPlain) (decode : Node → Decode α) :
    Decode.visit node decode = (do Decode.count; decode node) := by
  match node, h with
  | .scalar .., _ => rfl
  | .sequence .., _ => rfl
  | .mapping .., _ => rfl

theorem Matches.visit {node : Node} (hplain : node.isPlain) {decode decode' : Node → Decode α}
    {post : α → Prop} (h : Matches tree (decode node) (decode' node) post) :
    Matches tree (Decode.visit node decode) (Decode.visit node decode') post := by
  rw [visit_of_plain hplain, visit_of_plain hplain]
  exact andThen .count fun _ => h

theorem Ends.visit {node : Node} (hplain : node.isPlain) {decode : Node → Decode α} {x : α}
    (h : Ends tree (decode node) x []) : Ends tree (Decode.visit node decode) x [] := by
  rw [visit_of_plain hplain]
  exact bind (f := fun _ => decode node) .count h

end Decode

/-! Decoders of scalars, sequences and optional values. -/

/-- What may come of a node: only null has no value, and a value satisfies `post`. -/
structure Given (node : Node) (post : α → Prop) (found : Option α) : Prop where
  null : found = none → node.isNull
  value : IfAny post found

theorem Given.some {node : Node} {post : α → Prop} {x : α} (h : post x) :
    Given node post (some x) := ⟨nofun, .some h⟩

theorem Given.none {node : Node} {post : α → Prop} (h : node.isNull) : Given node post none :=
  ⟨fun _ => h, .none⟩

/-- What the first decoder makes of a plain node the second makes of it as well, unless the first
fails; and what they make of it without a problem satisfies `post`. -/
def Decoder.Matches (tree : Tree) (decode decode' : Decoder α) (post : Node → α → Prop) : Prop :=
  ∀ node, node.isPlain → Decode.Matches tree (decode node) (decode' node) (Given node (post node))

/-- What the decoder makes of a plain node does not depend on what has been visited before. -/
abbrev Decoder.Calm (tree : Tree) (decode : Decoder α) : Prop :=
  Decoder.Matches tree decode decode fun _ _ => True

section Decoders

variable {tree : Tree} {decode decode' : Decoder α} {post : Node → α → Prop}

theorem Decoder.Matches.weaken {weaker : Node → α → Prop}
    (h : Decoder.Matches tree decode decode' post) (himp : ∀ node x, post node x → weaker node x) :
    Decoder.Matches tree decode decode' weaker :=
  fun node hplain => (h node hplain).weaken fun _ hfound =>
    ⟨hfound.null, fun x hx => himp node x (hfound.value x hx)⟩

theorem mismatch_matches (target : String) {node : Node} (hplain : node.isPlain)
    {post : Option α → Prop} :
    Decode.Matches tree (mismatch target node) (mismatch target node) post := by
  match node, hplain with
  | .scalar .., _ => exact .problems (List.cons_ne_nil _ _)
  | .sequence .., _ => exact .problems (List.cons_ne_nil _ _)
  | .mapping .., _ => exact .distinct (.problems (List.cons_ne_nil _ _))

/-- A tag leaves the text as it is, or it is the tag of what the text means. -/
theorem eq_text_or_tag_of_atomWithTag? {tag value : String} {atom : Atom}
    (h : atomWithTag? tag value = some atom) :
    atom = .text value ∨ atom.tag = tag ∧ tag ≠ "!!str" := by
  unfold atomWithTag? at h
  split at h
  · exact .inl (Option.some.inj h).symm
  · rename_i hstr
    split at h
    · refine .inr ⟨?_, hstr⟩
      dsimp only at h
      split at h
      · rename_i htag
        exact Option.some.inj h ▸ htag
      · split at h
        · split at h
          · cases h
            rfl
          · cases h
        · cases h
    · exact .inl (Option.some.inj h).symm

theorem scalarAtom_null {tag value : String} (h : scalarAtom tag value = .ok .null) :
    tag = "!!null" := by
  unfold scalarAtom at h
  split at h
  · split at h <;> cases h
  · split at h
    · rename_i atom hatom
      cases h
      obtain htext | ⟨htag, -⟩ := eq_text_or_tag_of_atomWithTag? hatom
      · cases htext
      · exact htag.symm
    · cases h

/-- A text is read as it is written, unless it is tagged as binary data. -/
theorem scalarAtom_text {tag value s : String} (htag : tag ≠ "!!binary")
    (h : scalarAtom tag value = .ok (.text s)) : s = value := by
  unfold scalarAtom at h
  rw [if_neg htag] at h
  split at h
  · rename_i atom hatom
    cases h
    obtain htext | ⟨hstr, hne⟩ := eq_text_or_tag_of_atomWithTag? hatom
    · exact Atom.text.inj htext
    · exact absurd hstr.symm hne
  · cases h

theorem scalarAtom_fault {tag value : String} {e : DecodeError}
    (h : scalarAtom tag value = .error e) : e.IsFault := by
  unfold scalarAtom at h
  split at h
  · split at h
    · cases h
    · cases h
      trivial
  · split at h
    · cases h
    · cases h
      trivial

/-- What comes of a scalar comes of null or of what the target takes. -/
theorem scalar_matches_cases (target : String) (null : Option α)
    (take : Atom → String → Option α) {node : Node} (hplain : node.isPlain) :
    Decode.Matches tree (scalar target null take node) (scalar target null take node) fun found =>
      node.isNull ∧ found = null ∨ ∃ line tag value atom x, node = .scalar line tag value ∧
        scalarAtom tag value = .ok atom ∧ take atom value = some x ∧ found = some x := by
  unfold scalar
  split
  · rename_i line tag value
    split
    · rename_i hfault
      exact .throw (scalarAtom_fault hfault)
    · rename_i hatom
      exact .pure (.inl ⟨by simp [Node.isNull, Node.tag, scalarAtom_null hatom], rfl⟩)
    · rename_i atom hne hatom
      split
      · rename_i x hx
        exact .pure (.inr ⟨line, tag, value, atom, x, rfl, hatom, hx, rfl⟩)
      · exact mismatch_matches target hplain
  · exact mismatch_matches target hplain

theorem scalar_matches (target : String) {null : Option α} {take : Atom → String → Option α}
    (hnull : ∀ node, IfAny (post node) null)
    (htake : ∀ line tag value atom, scalarAtom tag value = .ok atom →
      IfAny (post (.scalar line tag value)) (take atom value)) :
    Decoder.Matches tree (scalar target null take) (scalar target null take) post := by
  refine fun node hplain => (scalar_matches_cases target null take hplain).weaken ?_
  rintro _ (⟨hisNull, rfl⟩ | ⟨line, tag, value, atom, x, rfl, hatom, hx, rfl⟩)
  · exact ⟨fun _ => hisNull, hnull node⟩
  · exact .some (htake line tag value atom hatom x hx)

theorem scalar_calm (target : String) (null : Option α) (take : Atom → String → Option α) :
    Decoder.Calm tree (scalar target null take) :=
  scalar_matches target (fun _ _ _ => trivial) fun _ _ _ _ _ _ _ => trivial

/-- A target that takes no scalar but null gives what it gives for null. -/
theorem nothing_matches (target : String) (null : Option α) {node : Node} (hplain : node.isPlain) :
    Decode.Matches tree (scalar target null (fun _ _ => none) node)
      (scalar target null (fun _ _ => none) node) fun found => node.isNull ∧ found = null := by
  refine (scalar_matches_cases target null (fun _ _ => none) hplain).weaken ?_
  rintro found (hnull | ⟨_, _, _, _, _, _, _, hx, _⟩)
  · exact hnull
  · cases hx

/-- A plain key is read as it is written. -/
theorem text_matches : Decoder.Matches tree text text fun node s =>
    isPlainKey node → s = node.keyText := by
  refine scalar_matches _ (fun _ => .none) fun line tag value atom hatom s hs hkey => ?_
  have htag : tag ≠ "!!binary" := by
    simp only [isPlainKey, Bool.and_eq_true, bne_iff_ne] at hkey
    exact hkey.1.2
  split at hs
  · cases hs
    exact scalarAtom_text htag hatom
  · exact (Option.some.inj hs).symm

theorem text_calm : Decoder.Calm tree text := scalar_calm _ _ _

theorem flag_calm : Decoder.Calm tree flag := scalar_calm _ _ _

/-- There is always a value, and it is one for nothing at null only. -/
theorem optional_matches_total (target : String) (h : Decoder.Matches tree decode decode' post)
    {node : Node} (hplain : node.isPlain) :
    Decode.Matches tree (optional target decode node) (optional target decode' node) fun found =>
      ∃ x, found = some x ∧ IfAny (fun x => node.isNull = false ∧ post node x) x := by
  unfold optional
  split
  · exact (nothing_matches _ _ hplain).weaken fun _ hfound => ⟨none, hfound.2, .none⟩
  · rename_i hnull
    refine (h node hplain).bind fun found => .pure fun hfound => ?_
    cases found with
    | none => exact absurd (hfound.null rfl) hnull
    | some x => exact ⟨some x, rfl, .some ⟨by simpa using hnull, hfound.value x rfl⟩⟩

/-- What is not null is decoded. -/
theorem optional_matches (target : String) (h : Decoder.Matches tree decode decode' post) :
    Decoder.Matches tree (optional target decode) (optional target decode') fun node =>
      IfAny fun x => node.isNull = false ∧ post node x := by
  intro node hplain
  refine (optional_matches_total target h hplain).weaken ?_
  rintro _ ⟨x, rfl, hx⟩
  exact .some hx

/-- The items of a sequence. -/
def Node.items : Node → List Node
  | .sequence _ _ items => items
  | _ => []

theorem sequence_matches (target : String) {post : Node → Option α → Prop}
    (h : ∀ node, node.isPlain → Decode.Matches tree (decode node) (decode' node) (post node)) :
    Decoder.Matches tree (sequence target decode) (sequence target decode') fun node =>
      IfAny fun list => ∃ found, List.Forall₂ post node.items found ∧
        list = found.filterMap id := by
  intro node hplain
  unfold sequence
  split
  · have hitems := (isPlain_sequence.mp hplain).2
    exact (Decode.Matches.mapM fun item hitem => .visit (hitems item hitem)
      (h item (hitems item hitem))).bind fun found => .pure fun hfound =>
        .some (.some ⟨found, hfound, rfl⟩)
  · refine (nothing_matches _ _ hplain).weaken ?_
    rintro _ ⟨-, rfl⟩
    exact .some .none

/-- Where null has a value too no item is left out, and each value is that of the item at its
position. -/
theorem members_matches (target name : String) (h : Decoder.Matches tree decode decode' post) :
    Decoder.Matches tree (sequence target (optional name decode))
      (sequence target (optional name decode')) fun node => IfAny <|
        List.Forall₂ (fun item => IfAny fun x => item.isNull = false ∧ post item x) node.items := by
  refine (sequence_matches target fun node hplain =>
    optional_matches_total name h hplain).weaken fun node list hlist list' hlist' => ?_
  obtain ⟨found, hfound, rfl⟩ := hlist list' hlist'
  clear hlist hlist'
  generalize node.items = items at hfound ⊢
  induction hfound with
  | nil => exact .nil
  | cons hfirst _ ih =>
    obtain ⟨x, rfl, hx⟩ := hfirst
    exact .cons hx ih

theorem texts_calm : Decoder.Calm tree texts :=
  (sequence_matches _ text_calm).weaken fun _ _ _ => trivial

end Decoders

end ApiTypes.Yaml
