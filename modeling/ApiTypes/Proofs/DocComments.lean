import ApiTypes.Proofs.Pointer
import ApiTypes.TypeExpr.Printer
import Mathlib.Data.List.Infix

/-!
Documentation cannot end its own comment. The mark that ends a comment is taken apart wherever it
stands in an entry, and what the layout puts around the lines of an entry, blanks, line breaks and
the stars in front, joins no star to a slash. So the mark stands once in a comment, at its end.
-/

namespace ApiTypes

/-- The mark that ends a comment. -/
def closingMark : List Char := ['*', '/']

/-- At how many places of a text the end mark of a comment stands. -/
def closings (cs : List Char) : Nat := cs.tails.countP closingMark.isPrefixOf

variable {c : Char} {cs before after : List Char}

@[simp] theorem closings_nil : closings [] = 0 := rfl

theorem closings_cons (c : Char) (cs : List Char) :
    closings (c :: cs) = closings cs + if c = '*' ∧ cs.head? = some '/' then 1 else 0 := by
  have hmark : closingMark.isPrefixOf (c :: cs) = true ↔ c = '*' ∧ cs.head? = some '/' := by
    cases cs <;> simp [closingMark, List.isPrefixOf, @eq_comm _ '*', @eq_comm _ '/']
  simp only [closings, List.tails_cons, List.countP_cons, hmark]

/-- No mark goes across a character that is neither a star nor a slash. -/
theorem closings_append_cons (hstar : c ≠ '*') (hslash : c ≠ '/') (before after : List Char) :
    closings (before ++ c :: after) = closings before + closings after := by
  induction before with
  | nil => simp [closings_cons, hstar]
  | cons first rest ih =>
    have hhead : (rest ++ c :: after).head? = some '/' ↔ rest.head? = some '/' := by
      cases rest <;> simp [hslash]
    rw [List.cons_append, closings_cons, closings_cons, ih]
    simp only [hhead]
    omega

theorem closings_append_blank (before after : List Char) :
    closings (before ++ ' ' :: after) = closings before + closings after :=
  closings_append_cons (by decide) (by decide) before after

theorem closings_append_break (before after : List Char) :
    closings (before ++ '\n' :: after) = closings before + closings after :=
  closings_append_cons (by decide) (by decide) before after

theorem closings_le_append (before after : List Char) :
    closings before ≤ closings (before ++ after) := by
  induction before with
  | nil => simp
  | cons c rest ih =>
    rw [List.cons_append, closings_cons, closings_cons]
    by_cases hmark : c = '*' ∧ rest.head? = some '/'
    · have hlonger : c = '*' ∧ (rest ++ after).head? = some '/' :=
        ⟨hmark.1, by simp [List.head?_append, hmark.2]⟩
      rw [if_pos hmark, if_pos hlonger]
      omega
    · rw [if_neg hmark]
      omega

/-! The text of entries. -/

theorem head?_escapeCommentChars (cs : List Char) :
    (escapeCommentChars cs).head? = cs.head? := by
  fun_cases escapeCommentChars cs <;> simp

/-- No end mark is left in a text when the marks in it have been taken apart. -/
theorem closings_escapeCommentChars (cs : List Char) : closings (escapeCommentChars cs) = 0 := by
  fun_induction escapeCommentChars cs with
  | case1 => rfl
  | case2 rest ih => simp [closings_cons, ih]
  | case3 c rest hopen ih =>
    have hmark : ¬ (c = '*' ∧ rest.head? = some '/') := by
      rintro ⟨rfl, hhead⟩
      obtain ⟨more, rfl⟩ := List.head?_eq_some_iff.mp hhead
      exact hopen more rfl rfl
    rw [closings_cons, head?_escapeCommentChars, if_neg hmark, ih]

/-- The pieces of a text hold no more marks than the text. -/
theorem closings_le_of_mem_splitChars {piece : List Char} (h : piece ∈ Text.splitChars '\n' cs) :
    closings piece ≤ closings cs := by
  induction hlength : cs.length using Nat.strong_induction_on generalizing cs with
  | _ n ih =>
    by_cases hbreak : '\n' ∈ cs
    · obtain ⟨before, after, rfl, hfirst⟩ := List.eq_append_cons_of_mem hbreak
      rw [Text.splitChars_append hfirst] at h
      rw [closings_append_break]
      rcases List.mem_cons.mp h with rfl | hlater
      · omega
      · have hafter := ih after.length (by simp [← hlength]; omega) hlater rfl
        omega
    · rw [Text.splitChars_of_not_mem hbreak, List.mem_singleton] at h
      rw [h]

theorem dropEndWhile_isPrefix (p : Char → Bool) (cs : List Char) :
    Text.dropEndWhile p cs <+: cs := by
  have hsuffix := List.dropWhile_suffix p (l := cs.reverse)
  rw [Text.dropEndWhile, ← List.reverse_suffix, List.reverse_reverse]
  exact hsuffix

/-- No mark comes up where blanks are dropped from the end of a line. -/
theorem closings_trimEnd {s : String} (h : closings s.toList = 0) :
    closings (Text.trimEnd (· = ' ') s).toList = 0 := by
  obtain ⟨dropped, hdropped⟩ := dropEndWhile_isPrefix (· = ' ') s.toList
  have hle := closings_le_append (Text.dropEndWhile (· = ' ') s.toList) dropped
  rw [hdropped, h] at hle
  rw [Text.trimEnd, String.toList_ofList]
  omega

/-- The lines of an entry hold no end mark. -/
theorem closings_of_mem_docEntryLines {entry line : String} (h : line ∈ docEntryLines entry) :
    closings line.toList = 0 := by
  have hpiece (piece : String) (hmem : piece ∈ Text.split '\n' (escapeComment entry)) :
      closings piece.toList = 0 := by
    obtain ⟨chars, hchars, rfl⟩ := List.mem_map.mp hmem
    have hle := closings_le_of_mem_splitChars hchars
    rw [escapeComment, String.toList_ofList, closings_escapeCommentChars] at hle
    rw [String.toList_ofList]
    omega
  unfold docEntryLines at h
  split at h
  · cases h
  · rename_i first more hpieces
    rw [hpieces] at hpiece
    rcases List.mem_cons.mp h with rfl | hmore
    · apply closings_trimEnd
      simp [closings_cons, hpiece first]
    · obtain ⟨piece, hmem, rfl⟩ := List.mem_map.mp hmore
      apply closings_trimEnd
      simp [closings_cons, hpiece piece (List.mem_cons_of_mem _ hmem)]

/-! The layout. -/

/-- The blanks in front of a line. -/
def indentation (depth : Nat) : List Char := (Text.replicate depth "    ").toList

theorem toList_newline (depth : Nat) : (newline depth).toList = '\n' :: indentation depth := by
  simp [newline, indentation]

theorem closings_indentation_append (depth : Nat) (cs : List Char) :
    closings (indentation depth ++ cs) = closings cs := by
  induction depth with
  | zero => simp [indentation, Text.replicate]
  | succ depth ih =>
    have hdeeper : indentation (depth + 1) = ' ' :: ' ' :: ' ' :: ' ' :: indentation depth := by
      simp [indentation, Text.replicate]
    simp [hdeeper, closings_cons, ih]

theorem closings_indentation (depth : Nat) : closings (indentation depth) = 0 := by
  simpa using closings_indentation_append depth []

/-- Lines without marks bring in none, each on a new line of its own. -/
theorem closings_append_lines (depth : Nat) (before : List Char) {lines : List String}
    (h : ∀ line ∈ lines, closings line.toList = 0) :
    closings (before ++ lines.flatMap fun line => (newline depth ++ line).toList) =
      closings before := by
  induction lines generalizing before with
  | nil => simp
  | cons line more ih =>
    obtain ⟨hline, hmore⟩ := List.forall_mem_cons.mp h
    rw [List.flatMap_cons, String.toList_append, toList_newline, List.cons_append,
      List.cons_append, closings_append_break, List.append_assoc, ← List.append_assoc, ih _ hmore,
      closings_indentation_append, hline, Nat.add_zero]

/-- How every comment ends: behind a blank with the end mark, which a new line follows. -/
theorem closings_append_end (depth : Nat) (before : List Char) :
    closings (before ++ (" */" ++ newline depth).toList) = closings before + 1 := by
  have hend : (" */" ++ newline depth).toList = ' ' :: '*' :: '/' :: '\n' :: indentation depth := by
    simp [toList_newline]
  rw [hend, closings_append_blank]
  simp [closings_cons, closings_indentation]

/-- A comment is a text without end mark behind its opening, the end mark, and a new line. -/
theorem docBlock_eq (depth : Nat) (entry : String) (more : List String) :
    ∃ body, docBlock depth (entry :: more) = "/**" ++ body ++ (" */" ++ newline depth) ∧
      closings ("/**" ++ body).toList = 0 := by
  have hopening : closings "/**".toList = 0 := by simp [closings_cons]
  have hblock (entries : List String) : ∃ body, docBlock.block depth entries =
      "/**" ++ body ++ (" */" ++ newline depth) ∧ closings ("/**" ++ body).toList = 0 := by
    refine ⟨String.join ((entries.flatMap docEntryLines).map (newline depth ++ ·)) ++
      newline depth, ?_, ?_⟩
    · simp only [docBlock.block, String.append_assoc]
    · have hlines (line) (hline : line ∈ entries.flatMap docEntryLines) :
          closings line.toList = 0 := by
        obtain ⟨e, -, hmem⟩ := List.mem_flatMap.mp hline
        exact closings_of_mem_docEntryLines hmem
      have hbefore := closings_append_lines depth "/**".toList hlines
      rw [String.toList_append, String.toList_append, String.toList_join, List.flatMap_map,
        toList_newline, ← List.append_assoc, closings_append_break, hbefore, hopening,
        closings_indentation]
  cases more with
  | cons next rest => exact hblock _
  | nil =>
    by_cases hbreak : entry.toList.contains '\n' = true
    · have hlong : docBlock depth [entry] = docBlock.block depth [entry] := if_pos hbreak
      rw [hlong]
      exact hblock _
    · have hshort : docBlock depth [entry] =
          "/** " ++ escapeComment entry ++ " */" ++ newline depth := if_neg hbreak
      refine ⟨" " ++ escapeComment entry, ?_, ?_⟩
      · rw [hshort]
        simp [← String.toList_inj]
      · have htext : ("/**" ++ (" " ++ escapeComment entry)).toList =
            "/**".toList ++ ' ' :: escapeCommentChars entry.toList := by
          simp [escapeComment]
        rw [htext, closings_append_blank, hopening, closings_escapeCommentChars]

/-- Whatever the entries are, the comment opens with its mark, and the end mark stands in it once:
at its end, where only a line break and the indentation follow. -/
theorem docBlock_closes_once (depth : Nat) :
    docBlock depth [] = "" ∧ ∀ entry more,
      "/**".toList <+: (docBlock depth (entry :: more)).toList ∧
        closings (docBlock depth (entry :: more)).toList = 1 ∧
        ∃ before, docBlock depth (entry :: more) =
          before ++ "*/" ++ "\n" ++ Text.replicate depth "    " := by
  refine ⟨rfl, fun entry more => ?_⟩
  obtain ⟨body, htext, hbody⟩ := docBlock_eq depth entry more
  rw [htext]
  refine ⟨?_, ?_, "/**" ++ body ++ " ", ?_⟩
  · simp
  · rw [String.toList_append, closings_append_end, hbody]
  · simp [newline, ← String.toList_inj]

/-- A description that tries to end its comment and go on with code. -/
example : docBlock 1 ["all*/ let x = 1 /*", "*\n/"] =
    "/**\n     * all*\\/ let x = 1 /*\n     * *\n     *     /\n     */\n    " := by decide +kernel

end ApiTypes
