import ApiTypes.Proofs.PercentEscapes
import ApiTypes.Proofs.ReferenceChains

/-!
Spelling a reference uniformly twice. The uniform spelling has the percent escapes of a reference
read, and no escapes put in for the percent signs that this leaves. Where such signs can be read as
escapes once more, the uniform spelling is a reference to something else. So it is spelled uniformly
itself, and names what the reference names, exactly if no such signs are left. A pointer that is
built from tokens without percent signs has none of them.
-/

namespace ApiTypes

namespace Reference

/-- A character that writing tokens as a pointer, and reading them back, neither adds nor drops. -/
structure IsInert (c : Char) : Prop where
  notSlash : c ≠ '/'
  notTilde : c ≠ '~'
  notZero : c ≠ '0'
  notOne : c ≠ '1'

instance (c : Char) : Decidable (IsInert c) :=
  decidable_of_iff (c ≠ '/' ∧ c ≠ '~' ∧ c ≠ '0' ∧ c ≠ '1')
    ⟨fun h => ⟨h.1, h.2.1, h.2.2.1, h.2.2.2⟩, fun h => ⟨h.1, h.2, h.3, h.4⟩⟩

variable {c : Char}

theorem count_escapeChar (h : IsInert c) (d : Char) : (escapeChar d).count c = [d].count c := by
  unfold escapeChar
  split
  · rename_i hd
    simp [hd, h.notTilde.symm, h.notZero.symm]
  · split
    · rename_i hd
      simp [hd, h.notSlash.symm, h.notTilde.symm, h.notOne.symm]
    · rfl

theorem count_pointerChars (h : IsInert c) (tokens : List String) :
    (pointerChars tokens).count c = (tokens.flatMap String.toList).count c := by
  have htoken (cs : List Char) : (cs.flatMap escapeChar).count c = cs.count c := by
    induction cs with
    | nil => rfl
    | cons d rest ih =>
      rw [List.flatMap_cons, List.count_append, count_escapeChar h, ih, ← List.count_append]
      rfl
  rw [pointerChars, List.count_flatMap, List.count_flatMap]
  congr 2
  funext token
  rw [Function.comp_apply, Function.comp_apply, List.count_cons_of_ne h.notSlash.symm, htoken]

theorem count_unescapeChars (h : IsInert c) (cs : List Char) :
    (unescapeChars cs).count c = cs.count c := by
  fun_induction unescapeChars cs with
  | case1 rest ih =>
    rw [List.count_cons_of_ne h.notSlash.symm, ih, List.count_cons_of_ne h.notTilde.symm,
      List.count_cons_of_ne h.notOne.symm]
  | case2 rest ih =>
    rw [List.count_cons_of_ne h.notTilde.symm, ih, List.count_cons_of_ne h.notTilde.symm,
      List.count_cons_of_ne h.notZero.symm]
  | case3 d rest _ _ ih => rw [List.count_cons, List.count_cons, ih]
  | case4 => rfl

theorem count_tokens (h : IsInert c) {pointer : String} {tokens : List String}
    (htokens : pointerTokens? pointer = some tokens) :
    (tokens.flatMap String.toList).count c = pointer.toList.count c := by
  unfold pointerTokens? at htokens
  split at htokens
  · rename_i hempty
    cases htokens
    rw [hempty]
    rfl
  · rename_i rest hrest
    cases htokens
    have hpieces : (Text.splitChars '/' rest).flatten.count c = rest.count c := by
      rw [Text.flatten_splitChars, List.count_filter (by simpa using h.notSlash)]
    rw [hrest, List.count_cons_of_ne h.notSlash.symm, ← hpieces, List.flatMap_map,
      List.count_flatMap, List.count_flatten]
    congr 2
    funext piece
    rw [Function.comp_apply, String.toList_ofList, count_unescapeChars h]
  · cases htokens

/-- A text with percent signs that can all be read as escapes. -/
def HasEscapes (text : String) : Prop :=
  '%' ∈ text.toList ∧ (Text.percentDecode? text).isSome = true

instance : DecidablePred HasEscapes := fun _ => inferInstanceAs (Decidable (_ ∧ _))

/-- A pointer is read as the tokens it was written from exactly if it has no percent escapes. -/
theorem pointerTokens_decodeFragment_iff (tokens : List String) :
    pointerTokens? (decodeFragment (String.ofList (pointerChars tokens))) = some tokens ↔
      ¬ HasEscapes (String.ofList (pointerChars tokens)) := by
  constructor
  · rintro hread ⟨hmem, hsome⟩
    obtain ⟨decoded, hdecoded⟩ := Option.isSome_iff_exists.mp hsome
    rw [decodeFragment, hdecoded, Option.getD_some] at hread
    have hcount {c : Char} (h : IsInert c) :
        decoded.toList.count c = (String.ofList (pointerChars tokens)).toList.count c := by
      rw [← count_tokens h hread, String.toList_ofList, count_pointerChars h]
    exact Text.count_percentDecode? hdecoded (hcount (by decide)) (hcount (by decide)) hmem
  · intro hnone
    have hdecode : decodeFragment (String.ofList (pointerChars tokens)) =
        String.ofList (pointerChars tokens) := by
      by_cases hmem : '%' ∈ (String.ofList (pointerChars tokens)).toList
      · have hfails : Text.percentDecode? (String.ofList (pointerChars tokens)) = none :=
          Option.not_isSome_iff_eq_none.mp fun hsome => hnone ⟨hmem, hsome⟩
        rw [decodeFragment, hfails, Option.getD_none]
      · exact decodeFragment_of_not_mem hmem
    rw [hdecode]
    exact pointerTokens_of_tokens tokens

/-- The reference is no pointer, or its tokens are written without percent escapes. -/
def IsSettled (ref : String) : Prop :=
  tokens? ref = none ∨ ¬ HasEscapes (split (canonical ref)).2

instance : DecidablePred IsSettled := fun _ => inferInstanceAs (Decidable (_ ∨ _))

/-- A reference without percent signs in its tokens is settled. -/
theorem isSettled_of_plain {ref : String} (h : ∀ tokens, tokens? ref = some tokens →
    ∀ token ∈ tokens, '%' ∉ token.toList) : IsSettled ref := by
  cases htokens : tokens? ref with
  | none => exact .inl htokens
  | some tokens =>
    refine .inr fun hescapes => ?_
    rw [canonical_of_tokens htokens, split_join (hash_not_mem_split ref)] at hescapes
    exact percent_not_mem_pointerChars (h tokens htokens) (by simpa using hescapes.1)

/-- The uniform spelling of a reference is spelled uniformly, and it names what the reference names,
exactly if the reference is settled. -/
theorem canonical_canonical_iff (ref : String) :
    (canonical (canonical ref) = canonical ref ↔ IsSettled ref) ∧
      (tokens? (canonical ref) = tokens? ref ↔ IsSettled ref) ∧
      (split (canonical ref)).1 = (split ref).1 := by
  cases htokens : tokens? ref with
  | none =>
    have hself := canonical_of_not_pointer htokens
    rw [hself, hself, htokens]
    exact ⟨iff_of_true rfl (.inl htokens), iff_of_true rfl (.inl htokens), rfl⟩
  | some tokens =>
    have hsplit : split (canonical ref) = ((split ref).1, String.ofList (pointerChars tokens)) := by
      rw [canonical_of_tokens htokens, split_join (hash_not_mem_split ref)]
    have hread : tokens? (canonical ref) = some tokens ↔ IsSettled ref := by
      rw [IsSettled, htokens, hsplit, tokens?, hsplit, pointerTokens_decodeFragment_iff]
      exact ⟨.inr, fun h => h.resolve_left (Option.some_ne_none tokens)⟩
    refine ⟨⟨fun hsame => ?_, fun hsettled => ?_⟩, hread, by rw [hsplit]⟩
    · exact hread.mp ((same_of_canonical hsame).2.trans htokens)
    · rw [canonical_of_tokens (hread.mpr hsettled), hsplit, canonical_of_tokens htokens]

/-- Building a pointer from tokens and reading it are inverse, whatever else than percent signs the
tokens hold: the pointer gives the tokens back, it is its own uniform spelling, no other tokens have
it, and going further down from it adds tokens at the end. -/
theorem join_root_inverse {tokens : List String} (h : ∀ token ∈ tokens, '%' ∉ token.toList) :
    tokens? (join "#" tokens) = some tokens ∧
      canonical (join "#" tokens) = join "#" tokens ∧
      (∀ others, join "#" others = join "#" tokens → others = tokens) ∧
      ∀ more, join (join "#" tokens) more = join "#" (tokens ++ more) := by
  have hread : tokens? (join "#" tokens) = some tokens := by
    simpa using @tokens?_of_plain "" (by simp) tokens (percent_not_mem_pointerChars h)
  have hfile : (split (join "#" tokens)).1 = "" := by
    simpa using congrArg Prod.fst (@split_join "" (by simp) tokens)
  constructor
  · exact hread
  constructor
  · rw [canonical_of_tokens hread, hfile]
    simp
  constructor
  · intro others hothers
    exact join_root_injective hothers
  · intro more
    exact join_join "#" tokens more

theorem join_root_inverse_marks :
    (∀ token ∈ ["components", "", "a/b#c", "~01"], '%' ∉ token.toList) ∧
      join "#" ["components", "", "a/b#c", "~01"] = "#/components//a~1b#c/~001" ∧
      tokens? "#/components//a~1b#c/~001" = some ["components", "", "a/b#c", "~01"] := by
  have hplain : ∀ token ∈ ["components", "", "a/b#c", "~01"], '%' ∉ token.toList := by simp
  have hjoin : join "#" ["components", "", "a/b#c", "~01"] = "#/components//a~1b#c/~001" := by
    decide +kernel
  exact ⟨hplain, hjoin, hjoin ▸ (join_root_inverse hplain).1⟩

end Reference

/-- A schema whose name has what reads as a percent escape. -/
def percentDocument : Document where
  components := some { schemas := some (.ofList [("a%25b", some { types := some ["string"] })]) }

namespace Resolver

/-- A reference to the schema finds it, and the uniform spelling of the reference does not. -/
theorem canonical_twice_lost :
    let ref := "#/components/schemas/a%2525b"
    Reference.canonical (Reference.canonical ref) ≠ Reference.canonical ref ∧
      (Resolver.ofDocument percentDocument none).exists? ref = true ∧
      (Resolver.ofDocument percentDocument none).exists? (Reference.canonical ref) = false := by
  decide +kernel

end Resolver

end ApiTypes
