import ApiTypes.Proofs.Pointer
import ApiTypes.Proofs.Typing.Run

/-!
Places in what a client sends. Whether a place is one of them is read off its text, which holds the
names that a document gives to its paths, components and properties as well as the keywords between
them. A token of a pointer counts exactly if it starts with one of two words, whatever it stands
for.
-/

namespace ApiTypes

namespace Text

theorem isSome_dropStart?_iff (start cs : List Char) :
    (dropStart? start cs).isSome ↔ start <+: cs := by
  induction start generalizing cs with
  | nil => simp [dropStart?]
  | cons p start ih =>
    cases cs with
    | nil => simp [dropStart?]
    | cons c cs =>
      rw [dropStart?, List.cons_prefix_cons]
      by_cases hpc : p = c
      · rw [if_pos hpc, ih]
        simp [hpc]
      · simp [hpc]

theorem startsWith_iff (start s : String) :
    startsWith start s = true ↔ start.toList <+: s.toList :=
  isSome_dropStart?_iff _ _

theorem containsChars_iff (part cs : List Char) :
    containsChars part cs = true ↔ part <:+: cs := by
  induction cs with
  | nil => simp [containsChars]
  | cons c cs ih =>
    rw [containsChars, Bool.or_eq_true, isSome_dropStart?_iff, ih, List.infix_cons_iff]

/-- What has no separator does not go beyond one. -/
theorem prefix_append_sep {sep : Char} {word : List Char} (h : sep ∉ word)
    (cs rest : List Char) : word <+: cs ++ sep :: rest ↔ word <+: cs := by
  induction word generalizing cs with
  | nil => simp
  | cons c word ih =>
    have hword : sep ∉ word := fun hmem => h (List.mem_cons_of_mem c hmem)
    cases cs with
    | nil =>
      have hc : c ≠ sep := fun heq => h (heq ▸ List.mem_cons_self)
      simp [List.cons_prefix_cons, hc]
    | cons d cs => simp [List.cons_prefix_cons, ih hword]

/-- A separator and a word after it stand on one side of any other separator. -/
theorem infix_append_sep {sep : Char} {word : List Char} (h : sep ∉ word) (cs rest : List Char) :
    sep :: word <:+: cs ++ sep :: rest ↔ sep :: word <:+: cs ∨ sep :: word <:+: sep :: rest := by
  induction cs with
  | nil => simp
  | cons c cs ih =>
    rw [List.cons_append, List.infix_cons_iff, List.infix_cons_iff, ih, List.cons_prefix_cons,
      List.cons_prefix_cons, prefix_append_sep h, or_assoc]

theorem infix_sep_cons {sep : Char} {word piece : List Char} (h : sep ∉ piece) :
    sep :: word <:+: sep :: piece ↔ word <+: piece := by
  have hnone : ¬ sep :: word <:+: piece := fun hin => h (hin.subset List.mem_cons_self)
  rw [List.infix_cons_iff, List.cons_prefix_cons, or_iff_left hnone, and_iff_right rfl]

end Text

namespace Reference

/-- Escapes do not hide how a token starts, nor do they make it look different. -/
theorem prefix_escape {word : List Char} (htilde : '~' ∉ word) (hslash : '/' ∉ word)
    (cs : List Char) : word <+: cs.flatMap escapeChar ↔ word <+: cs := by
  induction word generalizing cs with
  | nil => simp
  | cons p word ih =>
    have hword := ih (fun h => htilde (List.mem_cons_of_mem p h))
      (fun h => hslash (List.mem_cons_of_mem p h))
    cases cs with
    | nil => simp
    | cons c cs =>
      have hp : p ≠ '~' ∧ p ≠ '/' :=
        ⟨fun heq => htilde (heq ▸ List.mem_cons_self), fun heq => hslash (heq ▸ List.mem_cons_self)⟩
      rw [List.flatMap_cons, List.cons_prefix_cons, ← hword]
      unfold escapeChar
      split
      · rename_i hc
        simp [List.cons_prefix_cons, hp.1, hc]
      · split
        · rename_i hc
          simp [List.cons_prefix_cons, hp.1, hp.2, hc]
        · simp [List.cons_prefix_cons]

theorem infix_pointerChars {word : List Char} (htilde : '~' ∉ word) (hslash : '/' ∉ word)
    (cs : List Char) (tokens : List String) :
    '/' :: word <:+: cs ++ pointerChars tokens ↔
      '/' :: word <:+: cs ∨ ∃ token ∈ tokens, word <+: token.toList := by
  induction tokens generalizing cs with
  | nil => simp [pointerChars]
  | cons token rest ih =>
    have hstep : cs ++ pointerChars (token :: rest) =
        (cs ++ '/' :: token.toList.flatMap escapeChar) ++ pointerChars rest := by
      simp [pointerChars]
    rw [hstep, ih, Text.infix_append_sep hslash, Text.infix_sep_cons (slash_not_mem_escape _),
      prefix_escape htilde hslash, or_assoc, List.exists_mem_cons_iff]

/-- A reference into another document is no empty place. -/
theorem join_canonical {ref : String} (h : isExternal ref = true) :
    join (canonical ref) [] = canonical ref := by
  apply join_nil
  intro hempty
  have hfile : (split ref).1 ≠ "" := by simpa [isExternal] using h
  unfold canonical at hempty
  split at hempty
  · have hchars := congrArg String.toList hempty
    simp at hchars
    exact hfile hchars.1
  · subst hempty
    exact hfile rfl

end Reference

namespace Typing

/-- A token that makes a place look like one in what a client sends. -/
def startsInput (token : String) : Bool :=
  Text.startsWith "parameters" token || Text.startsWith "requestBody" token

theorem contains_join (word : String) (htilde : '~' ∉ word.toList) (hslash : '/' ∉ word.toList)
    (place : String) (tokens : List String) :
    Text.contains ("/" ++ word) (Reference.join place tokens) = true ↔
      Text.contains ("/" ++ word) (Reference.join place []) = true ∨
        ∃ token ∈ tokens, Text.startsWith word token = true := by
  have hword : ("/" ++ word).toList = '/' :: word.toList := by simp
  unfold Text.contains
  simp only [Text.containsChars_iff, Text.startsWith_iff, hword]
  rw [Reference.toList_join, Reference.infix_pointerChars htilde hslash]

theorem isInput_join_nil (place : String) : isInput (Reference.join place []) = isInput place := by
  by_cases hplace : place = ""
  · subst hplace
    decide
  · simp [Reference.join, hplace]

/-- On the way down from a place, each token may turn it into one of them. -/
theorem isInput_join (place : String) (tokens : List String) :
    isInput (Reference.join place tokens) = (isInput place || tokens.any startsInput) := by
  rw [← isInput_join_nil place, Bool.eq_iff_iff]
  have hparameters := contains_join "parameters" (by decide) (by decide) place tokens
  have hbody := contains_join "requestBody" (by decide) (by decide) place tokens
  simp only [isInput, startsInput, Bool.or_eq_true, List.any_eq_true]
  rw [show "/parameters" = "/" ++ "parameters" by decide,
    show "/requestBody" = "/" ++ "requestBody" by decide, hparameters, hbody]
  constructor
  · rintro ((h | ⟨token, hmem, h⟩) | h | ⟨token, hmem, h⟩)
    · exact .inl (.inl h)
    · exact .inr ⟨token, hmem, .inl h⟩
    · exact .inl (.inr h)
    · exact .inr ⟨token, hmem, .inr h⟩
  · rintro ((h | h) | ⟨token, hmem, h | h⟩)
    · exact .inl (.inl h)
    · exact .inr (.inl h)
    · exact .inl (.inr ⟨token, hmem, h⟩)
    · exact .inr (.inr ⟨token, hmem, h⟩)

end Typing

end ApiTypes
