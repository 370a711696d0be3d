import ApiTypes.Proofs.Chains
import ApiTypes.Proofs.Utf8
import Mathlib.Data.Finite.Sum
import Mathlib.Data.Set.Finite.Lattice
import Mathlib.Data.Set.Finite.List

/-!
If references lead to finitely many places in other documents, then what can be met there is
bounded, and a resolver that promises enough keeps its promise.

A reference is not much longer than its uniform spelling, because three characters of an escape
stand for a byte, and a character of the spelling for at most four bytes. So there are only finitely
many references with one uniform spelling, and only finitely many objects that they lead to.
-/

namespace ApiTypes

namespace Text

theorem bytesOf_length_pos (c : Char) : 0 < (bytesOf c).length := by
  unfold bytesOf
  split
  · exact Nat.one_pos
  · exact List.length_pos_iff.mpr (utf8Bytes_ne_nil c)

/-- Each byte is spelled by at most three characters. -/
theorem length_le_of_percentBytes? {cs : List Char} {bytes : List Nat}
    (h : percentBytes? cs = some bytes) : cs.length ≤ 3 * bytes.length := by
  induction cs using percentBytes?.induct generalizing bytes with
  | case1 => exact Nat.zero_le _
  | case2 a b rest ih =>
    rw [percentBytes?] at h
    obtain ⟨high, -, h⟩ := Option.bind_eq_some_iff.mp h
    obtain ⟨low, -, h⟩ := Option.bind_eq_some_iff.mp h
    obtain ⟨more, hmore, heq⟩ := Option.bind_eq_some_iff.mp h
    cases heq
    have hle := ih hmore
    simp only [List.length_cons]
    omega
  | case3 rest hne =>
    rw [percentBytes?.eq_3 _ hne] at h
    cases h
  | case4 c rest hne hne' ih =>
    rw [percentBytes?.eq_4 _ _ hne hne'] at h
    obtain ⟨more, hmore, rfl⟩ := Option.map_eq_some_iff.mp h
    have hle := ih hmore
    have hpos := bytesOf_length_pos c
    rw [List.length_cons, List.length_append]
    omega

/-- A character takes one to four bytes. -/
theorem frontChar?_length {bytes : List Nat} {c : Char} {length : Nat}
    (h : frontChar? bytes = some (c, length)) : 1 ≤ length ∧ length ≤ 4 := by
  unfold frontChar? at h
  split at h
  · split at h
    · cases h
      decide
    · split at h
      · obtain ⟨_, -, h⟩ := Option.bind_eq_some_iff.mp h
        split at h
        · dsimp only at h
          split at h <;> cases h
          decide
        · split at h
          · obtain ⟨_, -, h⟩ := Option.bind_eq_some_iff.mp h
            split at h
            · dsimp only at h
              split at h <;> cases h
              decide
            · split at h
              · obtain ⟨_, -, h⟩ := Option.bind_eq_some_iff.mp h
                dsimp only at h
                split at h <;> cases h
                decide
              · cases h
          · cases h
      · cases h
  · cases h

/-- Each piece is made of at most four bytes. -/
theorem length_le_of_piecesWithin (steps : Nat) (bytes : List Nat) (h : bytes.length ≤ steps) :
    bytes.length ≤ 4 * (piecesWithin steps bytes).length := by
  induction steps generalizing bytes with
  | zero => exact Nat.le_trans h (Nat.zero_le _)
  | succ steps ih =>
    cases bytes with
    | nil => exact Nat.zero_le _
    | cons byte rest =>
      rw [List.length_cons] at h
      rw [piecesWithin]
      cases hfront : frontChar? (byte :: rest) with
      | none =>
        have hle := ih rest (by omega)
        simp only [List.length_cons]
        omega
      | some found =>
        obtain ⟨c, length⟩ := found
        obtain ⟨hleast, hgreatest⟩ := frontChar?_length hfront
        have hdrop : ((byte :: rest).drop length).length = rest.length + 1 - length := by
          rw [List.length_drop, List.length_cons]
        have hle := ih ((byte :: rest).drop length) (by omega)
        simp only [List.length_cons]
        omega

theorem kept_length_pos (piece : Piece) : 0 < piece.kept.length := by
  unfold Piece.kept
  split
  · exact Nat.one_pos
  · split
    · rw [List.length_map]
      exact List.length_pos_iff.mpr (utf8Bytes_ne_nil _)
    · exact Nat.one_pos

theorem length_le_of_flatMap {α β : Type} {f : α → List β} (hf : ∀ x, 0 < (f x).length)
    (list : List α) : list.length ≤ (list.flatMap f).length := by
  induction list with
  | nil => exact Nat.le_refl _
  | cons x rest ih =>
    have hpos := hf x
    rw [List.flatMap_cons, List.length_append, List.length_cons]
    omega

/-- Each character that is read is spelled by at most twelve. -/
theorem length_le_of_percentDecode? {s text : String} (h : percentDecode? s = some text) :
    s.length ≤ 12 * text.length := by
  unfold percentDecode? at h
  split at h
  · obtain ⟨bytes, hbytes, rfl⟩ := Option.map_eq_some_iff.mp h
    have hcs := length_le_of_percentBytes? hbytes
    have hpieces := length_le_of_piecesWithin bytes.length bytes (Nat.le_refl _)
    have hkept := length_le_of_flatMap kept_length_pos (piecesOf bytes)
    rw [ofBytes, String.length_ofList]
    rw [String.length_toList] at hcs
    unfold piecesOf at hkept ⊢
    omega
  · cases h
    omega

/-- The pieces between the separators, with a separator before each of them. -/
theorem length_splitChars (sep : Char) (cs : List Char) :
    ((splitChars sep cs).flatMap fun piece => sep :: piece).length = cs.length + 1 := by
  induction cs with
  | nil => rfl
  | cons c rest ih =>
    rw [splitChars_cons]
    split
    · rw [List.flatMap_cons, List.length_append, ih]
      simp only [List.length_cons, List.length_nil]
      omega
    · cases hpieces : splitChars sep rest with
      | nil =>
        rw [hpieces] at ih
        cases ih
      | cons piece pieces =>
        rw [hpieces] at ih
        simp only [List.flatMap_cons, List.length_append, List.length_cons] at ih ⊢
        omega

end Text

namespace Reference

/-- A token is written with at least as many characters as it was read from. -/
theorem length_unescapeChars (cs : List Char) :
    cs.length ≤ ((unescapeChars cs).flatMap escapeChar).length := by
  induction cs using unescapeChars.induct with
  | case1 rest ih =>
    have htwo : (escapeChar '/').length = 2 := rfl
    rw [unescapeChars_slash, List.flatMap_cons, List.length_append, htwo]
    simp only [List.length_cons]
    omega
  | case2 rest ih =>
    have htwo : (escapeChar '~').length = 2 := rfl
    rw [unescapeChars_tilde, List.flatMap_cons, List.length_append, htwo]
    simp only [List.length_cons]
    omega
  | case3 c rest hne hne' ih =>
    have hpos : 0 < (escapeChar c).length := by
      unfold escapeChar
      split
      · exact Nat.two_pos
      · split
        · exact Nat.two_pos
        · exact Nat.one_pos
    rw [unescapeChars.eq_3 _ _ hne hne', List.flatMap_cons, List.length_append, List.length_cons]
    omega
  | case4 => exact Nat.zero_le _

/-- The tokens of a pointer are written with at least as many characters as it has, and a hash
sign. -/
theorem length_pointerTokens? {pointer : String} {tokens : List String}
    (h : pointerTokens? pointer = some tokens) :
    pointer.length < (join "#" tokens).length := by
  rw [← String.length_toList, ← String.length_toList, toList_join_root, List.length_cons]
  apply Nat.lt_succ_of_le
  unfold pointerTokens? at h
  split at h
  · rename_i hempty
    rw [hempty]
    exact Nat.zero_le _
  · rename_i rest hpointer
    cases h
    rw [hpointer, List.length_cons, ← Text.length_splitChars '/' rest]
    have hpieces (pieces : List (List Char)) : (pieces.flatMap fun piece => '/' :: piece).length ≤
        (pointerChars (pieces.map fun cs => String.ofList (unescapeChars cs))).length := by
      induction pieces with
      | nil => exact Nat.le_refl _
      | cons piece rest ih =>
        have hpiece := length_unescapeChars piece
        unfold pointerChars at ih ⊢
        simp only [List.map_cons, List.flatMap_cons, List.length_append, List.length_cons,
          String.toList_ofList] at ih ⊢
        omega
    exact hpieces _
  · cases h

theorem length_split (ref : String) :
    ref.length ≤ (split ref).1.length + 1 + (split ref).2.length := by
  unfold split
  cases h : Text.cutChars '#' ref.toList with
  | none =>
    dsimp only
    omega
  | some found =>
    have hlength := congrArg List.length (Text.eq_append_of_cutChars h)
    rw [String.length_toList, List.length_append, List.length_cons] at hlength
    simp only [String.length_ofList]
    omega

/-- A reference is at most twelve times as long as its uniform spelling. -/
theorem length_le_of_canonical (ref : String) : ref.length ≤ 12 * (canonical ref).length := by
  cases htokens : tokens? ref with
  | none =>
    rw [canonical_of_not_pointer htokens]
    omega
  | some tokens =>
    rw [canonical_of_tokens htokens, String.length_append]
    have hsplit := length_split ref
    have hpointer := length_pointerTokens? htokens
    have hfragment : (split ref).2.length ≤ 12 * (decodeFragment (split ref).2).length := by
      unfold decodeFragment
      cases hdecode : Text.percentDecode? (split ref).2 with
      | none =>
        simp only [Option.getD_none]
        omega
      | some text => exact Text.length_le_of_percentDecode? hdecode
    omega

/-- Finitely many uniform spellings are those of finitely many references. -/
theorem finite_of_canonical {keys : Set String} (h : keys.Finite) :
    {ref | canonical ref ∈ keys}.Finite := by
  obtain ⟨bound, hbound⟩ := (h.image String.length).bddAbove
  have hchars : Finite Char :=
    Finite.of_injective (fun c => (⟨c.toNat, Text.charNumber_lt c⟩ : Fin 0x110000)) fun c d heq =>
      Char.toNat_inj.mp (Fin.mk.inj heq)
  refine ((List.finite_length_le Char (12 * bound)).image String.ofList).subset fun ref href => ?_
  refine ⟨ref.toList, ?_, String.ofList_toList⟩
  have hle := length_le_of_canonical ref
  have hkey : (canonical ref).length ≤ bound :=
    hbound (Set.mem_image_of_mem _ (Set.mem_ofPred.mp href))
  change ref.toList.length ≤ 12 * bound
  rw [String.length_toList]
  omega

end Reference

instance : Finite Kind :=
  Finite.of_surjective
    (fun i : Fin 6 => [Kind.schema, .parameter, .requestBody, .response, .header, .pathItem].get i)
    fun kind => by
      cases kind
      · exact ⟨0, rfl⟩
      · exact ⟨1, rfl⟩
      · exact ⟨2, rfl⟩
      · exact ⟨3, rfl⟩
      · exact ⟨4, rfl⟩
      · exact ⟨5, rfl⟩

namespace Source

/-- A document with a way to other documents that promises at most `reach` places there. -/
def within (doc : Document) (fetch : Option (String → Kind → Option Object)) (reach : Nat) :
    Source := ⟨doc, fetch.map (ExternalResolver.mk · reach)⟩

variable {doc : Document} {fetch : Option (String → Kind → Option Object)}

/-- What can be asked for does not depend on what is promised. -/
theorem Asks.within {m n : Nat} {ref : String} (h : (within doc fetch m).Asks ref) :
    (within doc fetch n).Asks ref := by
  refine @Asks.rec (Source.within doc fetch m) (fun o _ => (Source.within doc fetch n).Reaches o)
    (fun ref _ => (Source.within doc fetch n).Asks ref) ?_ ?_ ?_ ?_ ?_ ?_ ref h
  · exact fun hmem => .root hmem
  · exact fun _ hinner ho => .part ho hinner
  · intro e ref kind o he _ hexternal hfetch hasks
    obtain ⟨fetch', hsome, rfl⟩ := Option.map_eq_some_iff.mp he
    exact .fetched (e := ⟨fetch', n⟩) (by rw [Source.within, hsome]; rfl) hasks hexternal hfetch
  · exact fun _ ho => .held ho
  · exact fun _ hd hmem hs => .mapped hs hd hmem
  · exact fun _ hasks => .canonical hasks

theorem Serves.within {m n : Nat} {key : String} {o : Object}
    (h : (within doc fetch m).Serves key o) : (within doc fetch n).Serves key o := by
  obtain ⟨e, ref, kind, he, hasks, hexternal, hkey, hfetch⟩ := h
  obtain ⟨fetch', hsome, rfl⟩ := Option.map_eq_some_iff.mp he
  exact ⟨⟨fetch', n⟩, ref, kind, by rw [Source.within, hsome]; rfl, hasks.within, hexternal, hkey,
    hfetch⟩

/-- The references into other documents that can be asked for and lead to something, in the uniform
spelling. -/
def answered (w : Source) : Set String := {key | ∃ o, w.Serves key o}

/-- The objects that finitely many places give are finitely many. -/
theorem finite_served {w : Source} (h : w.answered.Finite) :
    {o | ∃ key, w.Serves key o}.Finite := by
  have hgiven := Set.Finite.image2 (fun ref kind => w.external.bind (·.fetch ref kind))
    (Reference.finite_of_canonical h) (Set.finite_univ (α := Kind))
  refine (hgiven.preimage (f := some) (Option.some_injective Object).injOn).subset ?_
  rintro o ⟨key, hserves⟩
  have hkey : key ∈ w.answered := ⟨o, hserves⟩
  obtain ⟨e, ref, kind, he, -, -, rfl, hfetch⟩ := hserves
  refine ⟨ref, hkey, kind, Set.mem_univ kind, ?_⟩
  simp only [he, Option.bind_some, hfetch]

end Source

/-- The number of schemas in an object that is a schema. -/
def Object.walkLength : Object → Nat
  | .schema s => s.walk.length
  | _ => 0

namespace Source

variable {doc : Document} {fetch : Option (String → Kind → Option Object)}

/-- If something is found at finitely many places, then these are all there are, as soon as enough
is promised. -/
theorem exists_covers (h : (within doc fetch 0).answered.Finite) :
    ∃ bound, ∀ reach, bound ≤ reach → (within doc fetch reach).Covers h.toFinset.toList := by
  obtain ⟨largest, hlargest⟩ := ((finite_served h).image Object.walkLength).bddAbove
  refine ⟨max h.toFinset.card largest, fun reach hreach => ?_⟩
  have hcard : h.toFinset.card ≤ reach := Nat.le_trans (Nat.le_max_left _ _) hreach
  have hsize : largest ≤ reach := Nat.le_trans (Nat.le_max_right _ _) hreach
  cases fetch with
  | none =>
    have hnone (key : String) (o : Object) : ¬ (within doc none reach).Serves key o := by
      rintro ⟨e, ref, kind, he, -⟩
      cases he
    have hempty : h.toFinset = ∅ := by
      refine (Set.Finite.toFinset_eq_empty (h := h)).mpr (Set.eq_empty_iff_forall_notMem.mpr ?_)
      exact fun key ⟨o, ho⟩ => hnone key o ho.within
    refine ⟨?_, fun key o ho => absurd ho (hnone key o)⟩
    rw [hempty, Finset.toList_empty]
    exact Nat.zero_le _
  | some fetch =>
    refine ⟨?_, fun key o ho => ⟨?_, ?_⟩⟩
    · rw [Finset.length_toList]
      exact hcard
    · exact Finset.mem_toList.mpr (h.mem_toFinset.mpr ⟨o, ho.within⟩)
    · rintro s rfl
      exact Nat.le_trans (hlargest ⟨.schema s, ⟨key, ho.within⟩, rfl⟩) hsize

end Source

end ApiTypes
