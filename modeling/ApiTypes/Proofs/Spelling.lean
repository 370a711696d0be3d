import ApiTypes.External.Files
import ApiTypes.Proofs.Targets

/-!
Spellings of references. A reference into another document can be spelled in several ways, with
percent escapes or without. The uniform spelling tells which spellings mean the same: it determines
the document part and the tokens, and those are all that a file is read by.
-/

namespace ApiTypes

namespace Text

theorem cutChars_append {sep : Char} {before : List Char} (h : sep ∉ before) (after : List Char) :
    cutChars sep (before ++ sep :: after) = some (before, after) := by
  induction before with
  | nil => simp [cutChars]
  | cons c rest ih =>
    rw [List.mem_cons, not_or] at h
    simp [cutChars, Ne.symm h.1, ih h.2]

theorem eq_append_of_cutChars {sep : Char} {cs before after : List Char}
    (h : cutChars sep cs = some (before, after)) : cs = before ++ sep :: after := by
  induction cs generalizing before with
  | nil => cases h
  | cons c rest ih =>
    rw [cutChars] at h
    split at h
    · rename_i hc
      cases h
      rw [hc, List.nil_append]
    · obtain ⟨⟨b, a⟩, hcut, heq⟩ := Option.map_eq_some_iff.mp h
      cases heq
      rw [ih hcut, List.cons_append]

theorem not_mem_of_cutChars {sep : Char} {cs before after : List Char}
    (h : cutChars sep cs = some (before, after)) : sep ∉ before := by
  induction cs generalizing before with
  | nil => cases h
  | cons c rest ih =>
    rw [cutChars] at h
    split at h
    · cases h
      exact List.not_mem_nil
    · rename_i hc
      obtain ⟨⟨b, a⟩, hcut, heq⟩ := Option.map_eq_some_iff.mp h
      cases heq
      simp [Ne.symm hc, ih hcut]

theorem not_mem_of_cutChars_none {sep : Char} {cs : List Char} (h : cutChars sep cs = none) :
    sep ∉ cs := by
  induction cs with
  | nil => exact List.not_mem_nil
  | cons c rest ih =>
    rw [cutChars] at h
    split at h
    · cases h
    · rename_i hc
      simp [Ne.symm hc, ih (Option.map_eq_none_iff.mp h)]

theorem cutChars_of_not_mem {sep : Char} {cs : List Char} (h : sep ∉ cs) :
    cutChars sep cs = none := by
  cases hcut : cutChars sep cs with
  | none => rfl
  | some parts =>
    rw [eq_append_of_cutChars hcut] at h
    simp at h

/-- Reading percent escapes leaves a slash in front. -/
theorem percentDecode?_slash {cs : List Char} {text : String}
    (h : percentDecode? (String.ofList ('/' :: cs)) = some text) :
    ∃ rest, text.toList = '/' :: rest := by
  unfold percentDecode? at h
  rw [String.toList_ofList] at h
  split at h
  · obtain ⟨bytes, hbytes, rfl⟩ := Option.map_eq_some_iff.mp h
    rw [percentBytes?.eq_4 _ _ (by simp) (by simp)] at hbytes
    obtain ⟨more, -, rfl⟩ := Option.map_eq_some_iff.mp hbytes
    rw [ofBytes, String.toList_ofList]
    exact ⟨(piecesWithin more.length more).flatMap Piece.kept, rfl⟩
  · cases h
    exact ⟨cs, String.toList_ofList⟩

end Text

namespace Reference

/-- The document part of a reference ends before the first hash sign. -/
theorem hash_not_mem_split (ref : String) : '#' ∉ (split ref).1.toList := by
  unfold split
  split
  · rename_i file fragment hcut
    simpa using Text.not_mem_of_cutChars hcut
  · rename_i hcut
    exact Text.not_mem_of_cutChars_none hcut

theorem split_join {file : String} (h : '#' ∉ file.toList) (tokens : List String) :
    split (file ++ join "#" tokens) = (file, String.ofList (pointerChars tokens)) := by
  unfold split
  rw [String.toList_append, toList_join_root, Text.cutChars_append h]
  simp

/-- What is written as a pointer is read as one. -/
theorem tokens?_join {file : String} (h : '#' ∉ file.toList) (tokens : List String) :
    (tokens? (file ++ join "#" tokens)).isSome = true := by
  rw [tokens?, split_join h]
  cases tokens with
  | nil => rfl
  | cons token rest =>
    have hslash : ∃ more, (decodeFragment (String.ofList (pointerChars (token :: rest)))).toList =
        '/' :: more := by
      unfold decodeFragment
      cases hdecoded : Text.percentDecode? (String.ofList (pointerChars (token :: rest))) with
      | none => exact ⟨_, String.toList_ofList⟩
      | some text => exact Text.percentDecode?_slash hdecoded
    obtain ⟨more, hmore⟩ := hslash
    unfold pointerTokens?
    rw [hmore]
    rfl

/-- References with one uniform spelling have one document part and the same tokens. -/
theorem same_of_canonical {ref ref' : String} (h : canonical ref = canonical ref') :
    (split ref).1 = (split ref').1 ∧ tokens? ref = tokens? ref' := by
  have hpointer {first second : String} (h : canonical first = canonical second)
      (hfirst : tokens? first ≠ none) : tokens? second ≠ none := by
    intro hsecond
    obtain ⟨tokens, htokens⟩ := Option.ne_none_iff_exists'.mp hfirst
    rw [canonical_of_tokens htokens, canonical_of_not_pointer hsecond] at h
    have hsome := tokens?_join (hash_not_mem_split first) tokens
    rw [h, hsecond] at hsome
    cases hsome
  cases htokens : tokens? ref with
  | none =>
    have hnone : tokens? ref' = none := by
      by_contra hsome
      exact hpointer h.symm hsome htokens
    rw [canonical_of_not_pointer htokens, canonical_of_not_pointer hnone] at h
    exact ⟨by rw [h], hnone.symm⟩
  | some tokens =>
    obtain ⟨tokens', htokens'⟩ :=
      Option.ne_none_iff_exists'.mp (hpointer h (by rw [htokens]; nofun))
    rw [canonical_of_tokens htokens, canonical_of_tokens htokens'] at h
    have hsplit := congrArg split h
    rw [split_join (hash_not_mem_split ref), split_join (hash_not_mem_split ref')] at hsplit
    obtain ⟨hfile, hpointer⟩ := Prod.mk.inj hsplit
    have hchars := String.ofList_injective hpointer
    have hread := pointerTokens_of_tokens tokens
    rw [hchars, pointerTokens_of_tokens] at hread
    exact ⟨hfile, htokens'.trans hread ▸ rfl⟩

end Reference

/-- The resolver decodes the schema behind a reference, however the reference is spelled. -/
def ExternalResolver.Uniform (e : ExternalResolver) : Prop :=
  ∀ ref ref', Reference.canonical ref = Reference.canonical ref' →
    e.fetch ref .schema = e.fetch ref' .schema

theorem Source.uniform_of_external {w : Source} (h : ∀ e, w.external = some e → e.Uniform) :
    w.Uniform := by
  rintro key key' o ⟨-, -, e, he, hfetch⟩ hlooks hexternal hsame
  exact ⟨hlooks, hexternal, e, he, (h e he key key' hsame) ▸ hfetch⟩

theorem toOption_bind {ε α β : Type} (x : Except ε α) (f : α → Except ε β) :
    (x >>= f).toOption = x.toOption.bind fun a => (f a).toOption := by
  cases x <;> rfl

theorem toOption_descend (ref ref' : String) (collections : Yaml.Collections) (node : Yaml.Node)
    (tokens : List String) : (descend ref collections node tokens).toOption =
      (descend ref' collections node tokens).toOption := by
  induction tokens generalizing node with
  | nil => rfl
  | cons token rest ih =>
    unfold descend
    split
    · split
      · exact ih _
      · rfl
    · split
      · exact ih _
      · rfl
    · rfl

theorem toOption_lookupFragment (ref : String) (tree : Yaml.Tree) (fragment : String) :
    (lookupFragment ref tree fragment).toOption =
      (Reference.pointerTokens? (Reference.decodeFragment fragment)).bind fun tokens =>
        (descend "" tree.collections tree.root tokens).toOption := by
  unfold lookupFragment
  split
  · rename_i hnone
    rw [hnone]
    rfl
  · rename_i tokens hsome
    rw [hsome]
    exact toOption_descend ref "" tree.collections tree.root tokens

/-- What is read from a file depends on the name of the file and the tokens. -/
theorem FileResolver.toOption_resolve (r : FileResolver) (ref : String) (kind : Kind) :
    (r.resolve ref kind).toOption =
      if (Reference.split ref).1 = "" then none
      else (r.load (r.locate (Reference.split ref).1)).toOption.bind fun tree =>
        (Reference.tokens? ref).bind fun tokens =>
          (descend "" tree.collections tree.root tokens).toOption.bind fun node =>
            (decodeObject kind tree node).toOption.map
              (Object.rebase (r.locate (Reference.split ref).1)) := by
  unfold FileResolver.resolve
  dsimp only
  split
  · rfl
  · rw [toOption_bind]
    refine congrArg (Option.bind _) (funext fun tree => ?_)
    rw [toOption_bind, toOption_lookupFragment, Option.bind_assoc]
    refine congrArg (Option.bind _) (funext fun tokens => congrArg (Option.bind _) ?_)
    funext node
    generalize decodeObject kind tree node = decoded
    cases decoded <;> rfl

/-- A file holds one schema behind all spellings of a reference. -/
theorem FileResolver.uniform (r : FileResolver) : r.toExternal.Uniform := by
  intro ref ref' h
  obtain ⟨hfile, htokens⟩ := Reference.same_of_canonical h
  change (r.resolve ref .schema).toOption = (r.resolve ref' .schema).toOption
  rw [r.toOption_resolve, r.toOption_resolve, hfile, htokens]

end ApiTypes
