import ApiTypes.Reference

/-!
Pointers and their tokens. Writing tokens as a pointer and reading them back gives the tokens, so
two places in a document have the same pointer only if they have the same tokens. The step from a
place further down is the concatenation of tokens.
-/

namespace ApiTypes.Reference

theorem unescapeChars_cons {c : Char} (h : c ≠ '~') (rest : List Char) :
    unescapeChars (c :: rest) = c :: unescapeChars rest := by
  rw [unescapeChars]
  · intro _ hc
    exact absurd hc h
  · intro _ hc
    exact absurd hc h

theorem unescapeChars_tilde (rest : List Char) :
    unescapeChars ('~' :: '0' :: rest) = '~' :: unescapeChars rest := rfl

theorem unescapeChars_slash (rest : List Char) :
    unescapeChars ('~' :: '1' :: rest) = '/' :: unescapeChars rest := rfl

theorem unescapeChars_escape (cs : List Char) :
    unescapeChars (cs.flatMap escapeChar) = cs := by
  induction cs with
  | nil => rfl
  | cons c rest ih =>
    rw [List.flatMap_cons]
    by_cases htilde : c = '~'
    · subst htilde
      change unescapeChars ('~' :: '0' :: rest.flatMap escapeChar) = _
      rw [unescapeChars_tilde, ih]
    · by_cases hslash : c = '/'
      · subst hslash
        change unescapeChars ('~' :: '1' :: rest.flatMap escapeChar) = _
        rw [unescapeChars_slash, ih]
      · have hplain : escapeChar c = [c] := by simp [escapeChar, htilde, hslash]
        rw [hplain, List.singleton_append, unescapeChars_cons htilde, ih]

theorem slash_not_mem_escape (cs : List Char) : '/' ∉ cs.flatMap escapeChar := by
  intro hmem
  obtain ⟨c, -, hc⟩ := List.mem_flatMap.mp hmem
  unfold escapeChar at hc
  split at hc
  · simp at hc
  · split at hc
    · simp at hc
    · rename_i hslash
      exact hslash (List.mem_singleton.mp hc).symm

/-- One token further: the word is left out below `depth`, but not where it was just left out. -/
theorem indexTokens_cons (depth position : Nat) (skipped : Bool) (t : TypeExpr) (token : String)
    (rest : List String) :
    indexTokens depth position skipped t (token :: rest) =
      if token = "properties" && !skipped && depth ≤ position then
        indexTokens depth (position + 1) true t rest
      else indexTokens depth (position + 1) false (.access t (.ofText token)) rest := rfl

end ApiTypes.Reference

namespace ApiTypes.Text

theorem splitChars_cons (sep c : Char) (rest : List Char) :
    splitChars sep (c :: rest) =
      if c = sep then [] :: splitChars sep rest
      else
        match splitChars sep rest with
        | [] => [[c]]
        | piece :: pieces => (c :: piece) :: pieces := rfl

theorem splitChars_of_not_mem {sep : Char} {piece : List Char} (h : sep ∉ piece) :
    splitChars sep piece = [piece] := by
  induction piece with
  | nil => rfl
  | cons c rest ih =>
    have hc : c ≠ sep := fun heq => h (heq ▸ List.mem_cons_self)
    have hrest : sep ∉ rest := fun hmem => h (List.mem_cons_of_mem c hmem)
    rw [splitChars_cons, if_neg hc, ih hrest]

theorem splitChars_ne_nil (sep : Char) (cs : List Char) : splitChars sep cs ≠ [] := by
  cases cs with
  | nil => nofun
  | cons c rest =>
    rw [splitChars_cons]
    split
    · nofun
    · split
      · nofun
      · nofun

/-- Cutting a text drops the separators. -/
theorem flatten_splitChars (sep : Char) (cs : List Char) :
    (splitChars sep cs).flatten = cs.filter (· ≠ sep) := by
  induction cs with
  | nil => rfl
  | cons c rest ih =>
    rw [splitChars_cons]
    by_cases hc : c = sep
    · rw [if_pos hc, List.filter_cons_of_neg (by simpa using hc), List.flatten_cons,
        List.nil_append, ih]
    · rw [if_neg hc, List.filter_cons_of_pos (by simpa using hc), ← ih]
      cases hpieces : splitChars sep rest with
      | nil => exact absurd hpieces (splitChars_ne_nil sep rest)
      | cons piece pieces => rfl

/-- Pieces are cut on either side of a separator. -/
theorem splitChars_append_sep (sep : Char) (before after : List Char) :
    splitChars sep (before ++ sep :: after) = splitChars sep before ++ splitChars sep after := by
  induction before with
  | nil =>
    rw [List.nil_append, splitChars_cons, if_pos rfl]
    rfl
  | cons c more ih =>
    rw [List.cons_append, splitChars_cons, splitChars_cons, ih]
    split
    · rfl
    · cases hmore : splitChars sep more with
      | nil => exact absurd hmore (splitChars_ne_nil sep more)
      | cons piece pieces => rfl

theorem splitChars_append {sep : Char} {piece : List Char} (h : sep ∉ piece)
    (rest : List Char) :
    splitChars sep (piece ++ sep :: rest) = piece :: splitChars sep rest := by
  rw [splitChars_append_sep, splitChars_of_not_mem h]
  rfl

end ApiTypes.Text

namespace ApiTypes.Reference

/-- The characters of a pointer with the given tokens. -/
def pointerChars (tokens : List String) : List Char :=
  tokens.flatMap fun t => '/' :: t.toList.flatMap escapeChar

theorem toList_join (place : String) (tokens : List String) :
    (join place tokens).toList = (join place []).toList ++ pointerChars tokens := by
  have hstep (t : String) :
      ("/" ++ escapeToken t).toList = '/' :: t.toList.flatMap escapeChar := by
    simp [escapeToken]
  unfold join
  simp [String.toList_join, List.flatMap_map, pointerChars, hstep]

theorem toList_join_root (tokens : List String) :
    (join "#" tokens).toList = '#' :: pointerChars tokens := by
  rw [toList_join]
  rfl

/-- Cutting a pointer at its slashes gives the tokens as they were written. -/
theorem splitChars_pointerChars (token : String) (tokens : List String) :
    Text.splitChars '/' (token.toList.flatMap escapeChar ++ pointerChars tokens) =
      (token :: tokens).map fun t => t.toList.flatMap escapeChar := by
  induction tokens generalizing token with
  | nil =>
    rw [pointerChars, List.flatMap_nil, List.append_nil,
      Text.splitChars_of_not_mem (slash_not_mem_escape _)]
    rfl
  | cons next rest ih =>
    change Text.splitChars '/' (token.toList.flatMap escapeChar ++
      '/' :: (next.toList.flatMap escapeChar ++ pointerChars rest)) = _
    rw [Text.splitChars_append (slash_not_mem_escape _), ih next]
    rfl

/-- A pointer is read back as the tokens it was written from. -/
theorem pointerTokens_of_tokens (tokens : List String) :
    pointerTokens? (String.ofList (pointerChars tokens)) = some tokens := by
  unfold pointerTokens?
  rw [String.toList_ofList]
  cases tokens with
  | nil => rfl
  | cons token rest =>
    change some ((Text.splitChars '/' (token.toList.flatMap escapeChar ++
      pointerChars rest)).map fun cs => String.ofList (unescapeChars cs)) = _
    rw [splitChars_pointerChars, List.map_map]
    have hback (t : String) :
        String.ofList (unescapeChars (t.toList.flatMap escapeChar)) = t := by
      rw [unescapeChars_escape, String.ofList_toList]
    simp [Function.comp_def, hback]

/-- Different lists of tokens have different pointers. -/
theorem join_root_injective {left right : List String} (h : join "#" left = join "#" right) :
    left = right := by
  have hchars : pointerChars left = pointerChars right := by
    have hlists := congrArg String.toList h
    rw [toList_join_root, toList_join_root] at hlists
    exact (List.cons.inj hlists).2
  have htokens := pointerTokens_of_tokens left
  rw [hchars, pointerTokens_of_tokens right] at htokens
  exact (Option.some.inj htokens).symm

theorem join_ne_empty (place : String) (tokens : List String) : join place tokens ≠ "" := by
  intro h
  have hchars := congrArg String.toList h
  rw [toList_join] at hchars
  by_cases hplace : place = "" <;> simp [join, hplace] at hchars

theorem join_nil {place : String} (h : place ≠ "") : join place [] = place := by
  simp [join, h]

/-- Going down in two steps is going down along both lists of tokens. -/
theorem join_join (place : String) (first second : List String) :
    join (join place first) second = join place (first ++ second) := by
  rw [← String.toList_inj, toList_join, toList_join place (first ++ second),
    join_nil (join_ne_empty place first), toList_join, List.append_assoc, pointerChars,
    pointerChars, pointerChars, List.flatMap_append]

theorem canonical_of_tokens {ref : String} {tokens : List String} (h : tokens? ref = some tokens) :
    canonical ref = (split ref).1 ++ join "#" tokens := by
  unfold canonical
  rw [h]

theorem canonical_of_not_pointer {ref : String} (h : tokens? ref = none) : canonical ref = ref := by
  unfold canonical
  rw [h]

end ApiTypes.Reference
