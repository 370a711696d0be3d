import ApiTypes.Text.Words
import Mathlib.Data.List.Basic

/-!
Where a text is cut into words. The words, put together again, are the letters and digits of the
text, none lost and none doubled, so a cut between two words is a cut of the text. Two neighbours
stand apart if one of them is neither letter nor digit, or if the second is a capital that begins a
word. A text is cut between neighbours exactly if they stand apart.
-/

namespace ApiTypes.Text

variable {a b c : Char} {after : Option Char}

/-! The classes of characters are those of the language. -/

theorem isUpperLetter_eq (c : Char) : isUpperLetter c = c.isUpper :=
  (Bool.decide_and ('A' ≤ c) (c ≤ 'Z')).symm

theorem isLowerLetter_eq (c : Char) : isLowerLetter c = c.isLower := rfl

theorem isWordChar_eq : isWordChar = Char.isAlphanum := by
  funext c
  rw [isWordChar, isUpperLetter_eq, isLowerLetter_eq]
  rfl

theorem not_isLowerLetter_of_isUpperLetter (h : isUpperLetter c = true) :
    isLowerLetter c = false := by
  simp only [isUpperLetter, isLowerLetter, Bool.and_eq_true, decide_eq_true_eq] at h ⊢
  have hlow : ¬ 'a' ≤ c := fun hlow => absurd (Char.le_trans hlow h.2) (by decide)
  simp [hlow]

/-! Neighbours. -/

/-- Whether a word that has come to `b` goes on with `c`, which `after` follows. -/
def joins (b c : Char) (after : Option Char) : Bool := isWordChar c && !startsWord b c after

/-- Whether no word has both `b` and `c`. -/
def standApart (b c : Char) (after : Option Char) : Bool := !(isWordChar b && joins b c after)

theorem standApart_eq_true_iff : standApart b c after = true ↔
    (b.isAlphanum → c.isAlphanum →
      c.isUpper ∧ (¬ b.isUpper ∨ ∃ d ∈ after, d.isLower)) := by
  simp only [standApart, joins, startsWord, ← isWordChar_eq, ← isUpperLetter_eq,
    ← isLowerLetter_eq]
  cases isWordChar b <;> cases isWordChar c <;> simp [Option.any_eq_true]

/-- What follows a character does not matter to the characters before it, if it stands apart: it is
no small letter, or the character begins no word. -/
theorem joins_of_standApart (h : standApart b c after = true) (a : Char) :
    joins a b (some c) = joins a b none := by
  cases hb : isWordChar b with
  | false => simp [joins, hb]
  | true =>
    have hlower : isLowerLetter c = false := by
      by_contra hlower
      rw [Bool.not_eq_false] at hlower
      have hupper : isUpperLetter c = false := by
        by_contra hupper
        rw [Bool.not_eq_false] at hupper
        simp [not_isLowerLetter_of_isUpperLetter hupper] at hlower
      have hc : isWordChar c = true := by simp [isWordChar, hlower]
      simp [standApart, joins, startsWord, hb, hc, hupper] at h
    simp [joins, startsWord, hlower]

/-! One character further: the word goes on, or it ends and the character may begin another. -/

theorem wordsFrom_nil (word : List Char) :
    wordsFrom word [] = if word = [] then [] else [word.reverse] := by
  cases word <;> simp [wordsFrom]

theorem wordsFrom_nil_cons (c : Char) (rest : List Char) :
    wordsFrom [] (c :: rest) = wordsFrom ([c].filter isWordChar) rest := by
  cases hc : isWordChar c <;> simp [wordsFrom, hc]

theorem wordsFrom_cons_cons (b : Char) (word : List Char) (c : Char) (rest : List Char) :
    wordsFrom (b :: word) (c :: rest) =
      if joins b c rest.head? then wordsFrom (c :: b :: word) rest
      else (b :: word).reverse :: wordsFrom [] (c :: rest) := by
  cases hc : isWordChar c <;> cases hstart : startsWord b c rest.head? <;>
    simp [wordsFrom, joins, hc, hstart]

/-- What has been read of a word stays at its front. -/
theorem wordsFrom_cons (b : Char) (word rest : List Char) :
    ∃ more words, wordsFrom (b :: word) rest = ((b :: word).reverse ++ more) :: words := by
  induction rest generalizing b word with
  | nil => exact ⟨[], [], by simp [wordsFrom_nil]⟩
  | cons c rest ih =>
    rw [wordsFrom_cons_cons]
    split
    · obtain ⟨more, words, heq⟩ := ih c (b :: word)
      exact ⟨c :: more, words, by simp [heq]⟩
    · exact ⟨[], wordsFrom [] (c :: rest), by simp⟩

/-- The words, put together, are the letters and digits. -/
theorem flatten_wordsFrom (word rest : List Char) :
    (wordsFrom word rest).flatten = word.reverse ++ rest.filter isWordChar := by
  have hbegun (c : Char) : ([c].filter isWordChar).reverse = [c].filter isWordChar := by
    cases hc : isWordChar c <;> simp [hc]
  induction rest generalizing word with
  | nil => cases word <;> simp [wordsFrom_nil]
  | cons c rest ih =>
    have hnew : (wordsFrom [] (c :: rest)).flatten = (c :: rest).filter isWordChar := by
      rw [wordsFrom_nil_cons, ih, hbegun, ← List.filter_append, List.singleton_append]
    cases word with
    | nil => simpa using hnew
    | cons b word =>
      rw [wordsFrom_cons_cons]
      split
      · rename_i hjoins
        have hc : isWordChar c = true := by simp_all [joins]
        simp [ih, hc]
      · simp [hnew]

theorem ne_nil_of_mem_wordsFrom {word rest found : List Char} (h : found ∈ wordsFrom word rest) :
    found ≠ [] := by
  induction rest generalizing word with
  | nil => cases word <;> simp_all [wordsFrom_nil]
  | cons c rest ih =>
    cases word with
    | nil => exact ih (wordsFrom_nil_cons c rest ▸ h)
    | cons b word =>
      rw [wordsFrom_cons_cons] at h
      split at h
      · exact ih h
      · rcases List.mem_cons.mp h with rfl | hlater
        · simp
        · exact ih (wordsFrom_nil_cons c rest ▸ hlater)

/-! Between neighbours that stand apart a text can be taken into two, each with words of its own. -/

theorem wordsFrom_of_standApart {right : List Char}
    (h : standApart b c right.head? = true) (word left : List Char) :
    wordsFrom word (left ++ b :: c :: right) =
      wordsFrom word (left ++ [b]) ++ wordsFrom [] (c :: right) := by
  induction left generalizing word with
  | nil =>
    have hnew : wordsFrom [] (b :: c :: right) = wordsFrom [] [b] ++ wordsFrom [] (c :: right) := by
      rw [wordsFrom_nil_cons, wordsFrom_nil_cons]
      cases hb : isWordChar b with
      | false => simp [hb, wordsFrom_nil]
      | true =>
        have hends : joins b c right.head? = false := by simpa [standApart, hb] using h
        simp [hb, wordsFrom_cons_cons, hends, wordsFrom_nil]
    cases word with
    | nil => exact hnew
    | cons a word =>
      rw [List.nil_append, List.nil_append, wordsFrom_cons_cons, wordsFrom_cons_cons a word b [],
        List.head?_cons, List.head?_nil, joins_of_standApart h a]
      split
      · rename_i hjoins
        have hb : isWordChar b = true := by simp_all [joins]
        have hends : joins b c right.head? = false := by simpa [standApart, hb] using h
        simp [wordsFrom_cons_cons, hends, wordsFrom_nil]
      · simp [hnew]
  | cons d left ih =>
    have hhead : (left ++ b :: c :: right).head? = (left ++ [b]).head? := by cases left <;> simp
    have hnew : wordsFrom [] (d :: (left ++ b :: c :: right)) =
        wordsFrom [] (d :: (left ++ [b])) ++ wordsFrom [] (c :: right) := by
      rw [wordsFrom_nil_cons, wordsFrom_nil_cons, ih]
    cases word with
    | nil => exact hnew
    | cons a word =>
      simp only [List.cons_append, wordsFrom_cons_cons a, hhead]
      split
      · exact ih _
      · simp [hnew]

/-- Neighbours that do not stand apart are in one word. -/
theorem wordsFrom_of_not_standApart {right : List Char}
    (h : standApart b c right.head? = false) (word left : List Char) :
    ∃ before front more words,
      wordsFrom word (left ++ b :: c :: right) =
        before ++ (front ++ b :: c :: more) :: words ∧
      before.flatten ++ front = word.reverse ++ left.filter isWordChar := by
  have hb : isWordChar b = true := by
    by_contra hb
    simp_all [standApart]
  have hjoins : joins b c right.head? = true := by simpa [standApart, hb] using h
  induction left generalizing word with
  | nil =>
    have hread (word : List Char) : ∃ more words, wordsFrom (b :: word) (c :: right) =
        (word.reverse ++ b :: c :: more) :: words := by
      obtain ⟨more, words, heq⟩ := wordsFrom_cons c (b :: word) right
      exact ⟨more, words, by simp [wordsFrom_cons_cons, hjoins, heq]⟩
    cases word with
    | nil =>
      obtain ⟨more, words, heq⟩ := hread []
      exact ⟨[], [], more, words, by simp [wordsFrom_nil_cons, hb, heq], by simp⟩
    | cons a word =>
      rw [List.nil_append, wordsFrom_cons_cons]
      split
      · obtain ⟨more, words, heq⟩ := hread (a :: word)
        exact ⟨[], (a :: word).reverse, more, words, by simp [heq], by simp⟩
      · obtain ⟨more, words, heq⟩ := hread []
        exact ⟨[(a :: word).reverse], [], more, words, by simp [wordsFrom_nil_cons, hb, heq],
          by simp⟩
  | cons d left ih =>
    have hnew : ∃ before front more words, wordsFrom [] (d :: (left ++ b :: c :: right)) =
        before ++ (front ++ b :: c :: more) :: words ∧
          before.flatten ++ front = (d :: left).filter isWordChar := by
      rw [wordsFrom_nil_cons]
      obtain ⟨before, front, more, words, heq, hfront⟩ := ih ([d].filter isWordChar)
      refine ⟨before, front, more, words, heq, ?_⟩
      rw [hfront]
      cases hd : isWordChar d <;> simp [hd]
    cases word with
    | nil => simpa using hnew
    | cons a word =>
      rw [List.cons_append, wordsFrom_cons_cons]
      split
      · rename_i hword
        have hd : isWordChar d = true := by simp_all [joins]
        obtain ⟨before, front, more, words, heq, hfront⟩ := ih (d :: a :: word)
        exact ⟨before, front, more, words, heq, by simp [hfront, hd]⟩
      · obtain ⟨before, front, more, words, heq, hfront⟩ := hnew
        exact ⟨(a :: word).reverse :: before, front, more, words, by simp [heq], by simp [hfront]⟩

/-! Cuts. -/

/-- The first of the words are those of `left` and the others those of `right`. -/
def IsCut (words : List (List Char)) (left right : List Char) : Prop :=
  ∃ before after, words = before ++ after ∧
    before.flatten = left.filter Char.isAlphanum ∧ after.flatten = right.filter Char.isAlphanum

theorem isCut_iff (left : List Char) (b c : Char) (right : List Char) :
    IsCut (wordsOfFolded (left ++ b :: c :: right)) (left ++ [b]) (c :: right) ↔
      standApart b c right.head? = true := by
  rw [IsCut, wordsOfFolded, ← isWordChar_eq]
  constructor
  · rintro ⟨first, second, hwords, hfirst, -⟩
    by_contra hjoined
    rw [Bool.not_eq_true] at hjoined
    have hb : isWordChar b = true := by
      by_contra hb
      simp_all [standApart]
    obtain ⟨before, front, more, words, heq, hfront⟩ := wordsFrom_of_not_standApart hjoined [] left
    -- the first words end inside the word that has both, which no list of whole words does
    have hlength : first.flatten.length = before.flatten.length + front.length + 1 := by
      rw [hfirst, ← List.length_append, hfront]
      simp [hb]
    rw [hwords] at heq
    rcases List.append_eq_append_iff.mp heq with ⟨gap, rfl, -⟩ | ⟨gap, rfl, hgap⟩
    · rw [List.flatten_append, List.length_append] at hlength
      omega
    · rw [List.flatten_append, List.length_append] at hlength
      cases gap with
      | nil =>
        rw [List.flatten_nil, List.length_nil] at hlength
        omega
      | cons word gap =>
        obtain ⟨rfl, -⟩ := List.cons.inj hgap
        rw [List.flatten_cons, List.length_append, List.length_append, List.length_cons,
          List.length_cons] at hlength
        omega
  · intro h
    exact ⟨_, _, wordsFrom_of_standApart h [] left, by simp [flatten_wordsFrom],
      by simp [flatten_wordsFrom]⟩

/-- A text is taken apart into words: nothing but separators is lost, and the cuts are between
characters that stand apart. -/
structure TakenApart (text : List Char) (words : List (List Char)) : Prop where
  nonempty : ∀ word ∈ words, word ≠ []
  plain : ∀ word ∈ words, ∀ c ∈ word, c.isAlphanum
  flatten : words.flatten = text.filter Char.isAlphanum
  cuts : ∀ left b c right, text = left ++ b :: c :: right →
    (IsCut words (left ++ [b]) (c :: right) ↔
      (b.isAlphanum → c.isAlphanum →
        c.isUpper ∧ (¬ b.isUpper ∨ ∃ d ∈ right.head?, d.isLower)))

theorem takenApart_wordsOfFolded (text : List Char) : TakenApart text (wordsOfFolded text) := by
  have hflatten : (wordsOfFolded text).flatten = text.filter Char.isAlphanum := by
    simp [wordsOfFolded, flatten_wordsFrom, isWordChar_eq]
  constructor
  · intro word hword
    exact ne_nil_of_mem_wordsFrom hword
  · intro word hword c hc
    have hmem : c ∈ text.filter Char.isAlphanum := by
      rw [← hflatten]
      exact List.mem_flatten.mpr ⟨word, hword, hc⟩
    exact (List.mem_filter.mp hmem).2
  · exact hflatten
  · rintro left b c right rfl
    rw [isCut_iff, standApart_eq_true_iff]

/-- A word with a capital at the front and small letters after it. -/
def withCapital (word : List Char) : List Char :=
  (word.take 1).map Char.toUpper ++ (word.drop 1).map Char.toLower

theorem capitalize_eq (word : List Char) : capitalize word = withCapital word := by
  cases word <;> simp [capitalize, withCapital]

/-- Whatever text the accents of a name are folded to, its words are that text taken apart, and the
declaration name is the words in one piece, each with a capital. -/
theorem words_takenApart :
    (∀ text, TakenApart text (wordsOfFolded text) ∧
      typeNameOfFolded text = (wordsOfFolded text).flatMap withCapital) ∧
    ∀ s, TakenApart (foldAccents s.toList) ((words s).map String.toList) ∧
      typeName s =
        String.join ((words s).map fun word => String.ofList (withCapital word.toList)) := by
  have hname (text : List Char) :
      typeNameOfFolded text = (wordsOfFolded text).flatMap withCapital := by
    simp [typeNameOfFolded, List.flatMap_def, funext capitalize_eq]
  constructor
  · intro text
    exact ⟨takenApart_wordsOfFolded text, hname text⟩
  · intro s
    have hwords : (words s).map String.toList = wordsOfFolded (foldAccents s.toList) := by
      simp [words, Function.comp_def]
    constructor
    · rw [hwords]
      exact takenApart_wordsOfFolded _
    · rw [← String.toList_inj, typeName, String.toList_ofList, hname, ← hwords, String.toList_join]
      simp [List.flatMap_map]

example : words "XMLHttp_request2Go" = ["XML", "Http", "request2", "Go"] := by decide +kernel

end ApiTypes.Text
