import ApiTypes.Proofs.Places
import ApiTypes.Text.Words
import ApiTypes.Typing.Enum
import Mathlib.Data.List.Nodup
import Mathlib.Data.List.Perm.Subperm
import Mathlib.Data.List.TakeWhile

/-!
The names of declarations. What a declaration is to be called is a capital letter with letters and
digits after it. If that is taken, a number is added after an underscore. So a name tells what its
declaration was to be called, and the first declaration of each kind gets its name without a number.
-/

namespace ApiTypes

namespace Text

theorem toNat_lt_of_isWordChar {c : Char} (h : isWordChar c) : c.toNat < 123 := by
  simp only [isWordChar, isUpperLetter, isLowerLetter, isDigit, Bool.or_eq_true,
    Bool.and_eq_true, decide_eq_true_eq] at h
  have hle (d : Char) (hd : c ≤ d) : c.toNat ≤ d.toNat := hd
  rcases h with (h | h) | h
  · exact Nat.lt_of_le_of_lt (hle _ h.2) (by decide)
  · exact Nat.lt_of_le_of_lt (hle _ h.2) (by decide)
  · exact Nat.lt_of_le_of_lt (hle _ h.2) (by decide)

/-- Letters and digits, with no small letter at the front. -/
structure Capitalized (cs : List Char) : Prop where
  word : ∀ c ∈ cs, isWordChar c = true
  front : ∀ c ∈ cs.head?, isLowerLetter c = false

theorem Capitalized.nil : Capitalized [] := ⟨List.forall_mem_nil _, nofun⟩

theorem Capitalized.append {left right : List Char} (hleft : Capitalized left)
    (hright : Capitalized right) : Capitalized (left ++ right) := by
  refine ⟨fun c hc => (List.mem_append.mp hc).elim (hleft.word c) (hright.word c), ?_⟩
  cases left with
  | nil => exact hright.front
  | cons c rest => exact hleft.front

theorem Capitalized.flatMap {α : Type} {f : α → List Char} {list : List α}
    (h : ∀ x ∈ list, Capitalized (f x)) : Capitalized (list.flatMap f) := by
  induction list with
  | nil => exact .nil
  | cons x rest ih =>
    obtain ⟨hfirst, hrest⟩ := List.forall_mem_cons.mp h
    exact hfirst.append (ih hrest)

theorem capitalized_capitalize {cs : List Char} (h : ∀ c ∈ cs, isWordChar c = true) :
    Capitalized (capitalize cs) := by
  have hletter : ∀ n < 123, isWordChar (Char.ofNat n) = true →
      isWordChar (Char.ofNat n).toUpper = true ∧ isLowerLetter (Char.ofNat n).toUpper = false ∧
        isWordChar (Char.ofNat n).toLower = true := by
    decide +kernel
  have hall (c : Char) (hc : isWordChar c = true) := by
    have hnumber := hletter c.toNat (toNat_lt_of_isWordChar hc)
    rw [Char.ofNat_toNat] at hnumber
    exact hnumber hc
  cases cs with
  | nil => exact .nil
  | cons first rest =>
    obtain ⟨hfirst, hrest⟩ := List.forall_mem_cons.mp h
    refine ⟨List.forall_mem_cons.mpr ⟨(hall first hfirst).1, fun c hc => ?_⟩, ?_⟩
    · obtain ⟨d, hd, rfl⟩ := List.mem_map.mp hc
      exact (hall d (hrest d hd)).2.2
    · rintro _ ⟨⟩
      exact (hall first hfirst).2.1

/-- Words are made of letters and digits. -/
theorem isWordChar_of_mem_wordsFrom {word cs : List Char}
    (hword : ∀ c ∈ word, isWordChar c = true) :
    ∀ found ∈ wordsFrom word cs, ∀ c ∈ found, isWordChar c = true := by
  have hreverse : ∀ c ∈ word.reverse, isWordChar c = true := fun c hc => hword c (by simpa using hc)
  induction cs generalizing word with
  | nil =>
    rw [wordsFrom]
    split
    · exact List.forall_mem_nil _
    · exact List.forall_mem_singleton.mpr hreverse
  | cons c rest ih =>
    have hnew {word : List Char} (h : ∀ c ∈ word, isWordChar c = true) :=
      ih h fun c hc => h c (by simpa using hc)
    unfold wordsFrom
    split
    · rename_i hc
      have hsingle := hnew (List.forall_mem_singleton.mpr hc)
      split
      · exact hsingle
      · split
        · exact List.forall_mem_cons.mpr ⟨hreverse, hsingle⟩
        · exact hnew (List.forall_mem_cons.mpr ⟨hc, hword⟩)
    · split
      · exact hnew (List.forall_mem_nil _)
      · exact List.forall_mem_cons.mpr ⟨hreverse, hnew (List.forall_mem_nil _)⟩

theorem capitalized_typeName (s : String) : Capitalized (typeName s).toList := by
  rw [typeName, String.toList_ofList, typeNameOfFolded, ← List.flatMap_def]
  exact .flatMap fun word hword =>
    capitalized_capitalize (isWordChar_of_mem_wordsFrom (List.forall_mem_nil _) word hword)

end Text

/-- A capital letter with letters and digits after it. -/
structure IsTypeName (name : String) : Prop where
  word : ∀ c ∈ name.toList, Text.isWordChar c = true
  front : ∃ c ∈ name.toList.head?, Text.isUpperLetter c = true

namespace IsTypeName

theorem capitalized {name : String} (h : IsTypeName name) : Text.Capitalized name.toList := by
  refine ⟨h.word, fun d hd => ?_⟩
  obtain ⟨c, hc, hupper⟩ := h.front
  obtain rfl := Option.mem_unique hc hd
  simp only [Text.isUpperLetter, Bool.and_eq_true, decide_eq_true_eq] at hupper
  have hsmall : ¬ 'a' ≤ c := fun hlow => absurd (Char.le_trans hlow hupper.2) (by decide)
  simp [Text.isLowerLetter, hsmall]

/-- A start is put before what could not be a name by itself. -/
theorem of_capitalized {start name : String} (hstart : IsTypeName start)
    (hname : Text.Capitalized name.toList) :
    IsTypeName (if name = "" || startsWithDigit name then start ++ name else name) := by
  split
  · obtain ⟨c, hc, hupper⟩ := hstart.front
    refine ⟨fun c hc => ?_, c, ?_, hupper⟩
    · rw [String.toList_append] at hc
      exact (List.mem_append.mp hc).elim (hstart.word c) (hname.word c)
    · rw [String.toList_append, List.head?_append, hc]
      rfl
  · rename_i hfront
    simp only [Bool.or_eq_true, decide_eq_true_eq, not_or, startsWithDigit,
      Bool.not_eq_true] at hfront
    refine ⟨hname.word, ?_⟩
    cases hlist : name.toList with
    | nil => exact absurd (String.toList_eq_nil_iff.mp hlist) hfront.1
    | cons c rest =>
      have hword := hname.word c (hlist ▸ List.mem_cons_self)
      have hlower := hname.front c (by rw [hlist]; rfl)
      have hdigit : Text.isDigit c = false := by simpa [hlist] using hfront.2
      exact ⟨c, rfl, by simpa [Text.isWordChar, hlower, hdigit] using hword⟩

theorem isIdentifier {name : String} (h : IsTypeName name) :
    Text.isIdentifier name = true := by
  obtain ⟨c, hc, hupper⟩ := h.front
  unfold Text.isIdentifier
  cases hlist : name.toList with
  | nil => simp [hlist] at hc
  | cons first rest =>
    obtain rfl : first = c := by simpa [hlist] using hc
    have hword : ∀ d ∈ rest, Text.isWordChar d = true := fun d hd =>
      h.word d (hlist ▸ List.mem_cons_of_mem _ hd)
    simp only [Text.isIdentifierChars, Bool.and_eq_true, List.all_eq_true]
    refine ⟨by simp [Text.isIdentifierStart, hupper], fun d hd => ?_⟩
    have hchar := hword d hd
    simp only [Text.isWordChar, Bool.or_eq_true] at hchar
    rcases hchar with (hd | hd) | hd <;> simp [Text.isIdentifierStart, hd]

theorem underscore_not_mem {name : String} (h : IsTypeName name) : '_' ∉ name.toList :=
  fun hmem => absurd (h.word '_' hmem) (by decide)

end IsTypeName

theorem isTypeName_enumName (place : String) : IsTypeName (enumName place) := by
  have hcapitalized (tokens : List String) :
      Text.Capitalized (String.join (tokens.map Text.typeName)).toList := by
    rw [String.toList_join, List.flatMap_map]
    exact .flatMap fun token _ => Text.capitalized_typeName token
  have hstart : IsTypeName "Enum" := ⟨List.all_eq_true.mp (by decide), 'E', rfl, rfl⟩
  unfold enumName
  extract_lets tokens name
  exact hstart.of_capitalized (hcapitalized _)

/-! Numbers after an underscore. -/

/-- The name itself or the name with a number. -/
def Numbers (name chosen : String) : Prop :=
  chosen = name ∨ ∃ n : Nat, chosen = name ++ "_" ++ toString n

theorem isIdentifierChars_append {cs more : List Char} (h : Text.isIdentifierChars cs = true)
    (hmore : ∀ c ∈ more, (Text.isIdentifierStart c || Text.isDigit c) = true) :
    Text.isIdentifierChars (cs ++ more) = true := by
  cases cs with
  | nil => cases h
  | cons c rest =>
    simp only [Text.isIdentifierChars, List.cons_append, Bool.and_eq_true, List.all_append] at h ⊢
    exact ⟨h.1, h.2, List.all_eq_true.mpr hmore⟩

/-- A number after an underscore leaves an identifier one. -/
theorem isIdentifier_of_numbers {base name : String} (hbase : Text.isIdentifier base = true)
    (h : Numbers base name) : Text.isIdentifier name = true := by
  rcases h with rfl | ⟨n, rfl⟩
  · exact hbase
  · unfold Text.isIdentifier at hbase ⊢
    rw [String.toList_append, String.toList_append, List.append_assoc]
    refine isIdentifierChars_append hbase fun c hc => ?_
    rcases List.mem_append.mp hc with hunderscore | hdigit
    · rw [List.mem_singleton.mp hunderscore]
      decide
    · have hc : Text.isDigit c = true := by
        simpa [Char.isDigit, Text.isDigit, Char.le_def] using isDigit_of_mem_toString hdigit
      rw [hc, Bool.or_true]

theorem freshName_numbers (taken : List String) (name : String) :
    Numbers name (freshName taken name) := by
  unfold freshName
  split
  · exact .inl rfl
  · cases hfound : List.find? (!taken.contains ·)
      ((List.range (taken.length + 1)).map fun i => name ++ "_" ++ toString (i + 2)) with
    | none => exact .inl rfl
    | some chosen =>
      obtain ⟨i, -, rfl⟩ := List.mem_map.mp (List.mem_of_find?_eq_some hfound)
      exact .inr ⟨i + 2, rfl⟩

theorem freshName_eq_self {taken : List String} {name : String} (h : name ∉ taken) :
    freshName taken name = name := by
  unfold freshName
  rw [if_pos (by simpa using h)]

/-- A fresh name is not taken: there are more candidates than taken names. -/
theorem freshName_not_mem (taken : List String) (name : String) : freshName taken name ∉ taken := by
  unfold freshName
  split
  · rename_i hfree
    simpa using hfree
  · cases hfound : List.find? (!taken.contains ·)
      ((List.range (taken.length + 1)).map fun i => name ++ "_" ++ toString (i + 2)) with
    | some chosen => simpa using List.find?_some hfound
    | none =>
      have hdistinct :
          ((List.range (taken.length + 1)).map fun i => name ++ "_" ++ toString (i + 2)).Nodup := by
        refine List.Nodup.map (fun i j hij => ?_) List.nodup_range
        have hnumber := toString_injective ((String.append_right_inj _).mp hij)
        omega
      have hinside : ((List.range (taken.length + 1)).map fun i =>
          name ++ "_" ++ toString (i + 2)) ⊆ taken := by
        intro chosen hchosen
        simpa using List.find?_eq_none.mp hfound chosen hchosen
      have hle := (List.subperm_of_subset hdistinct hinside).length_le
      rw [List.length_map, List.length_range] at hle
      omega

/-- What has been named after what, the last first. -/
def chosenNames : List String → List String
  | [] => []
  | name :: earlier => freshName (chosenNames earlier) name :: chosenNames earlier

theorem nodup_chosenNames (names : List String) : (chosenNames names).Nodup := by
  induction names with
  | nil => exact .nil
  | cons name earlier ih => exact List.nodup_cons.mpr ⟨freshName_not_mem _ _, ih⟩

theorem numbers_of_mem_chosenNames {names : List String} {chosen : String}
    (h : chosen ∈ chosenNames names) : ∃ name ∈ names, Numbers name chosen := by
  induction names with
  | nil => cases h
  | cons name earlier ih =>
    rcases List.mem_cons.mp h with rfl | hold
    · exact ⟨name, List.mem_cons_self, freshName_numbers _ _⟩
    · obtain ⟨other, hother, hnumbers⟩ := ih hold
      exact ⟨other, List.mem_cons_of_mem _ hother, hnumbers⟩

/-- Without an underscore, what is numbered is told by what is in front of the first one. -/
theorem takeWhile_of_numbers {name chosen : String} (hname : '_' ∉ name.toList)
    (h : Numbers name chosen) : chosen.toList.takeWhile (· ≠ '_') = name.toList := by
  have hall : ∀ c ∈ name.toList, decide (c ≠ '_') = true := by
    intro c hc
    simp only [ne_eq, decide_eq_true_eq]
    rintro rfl
    exact hname hc
  rcases h with rfl | ⟨n, rfl⟩
  · exact List.takeWhile_eq_self_iff.mpr hall
  · simp only [String.toList_append, List.append_assoc]
    rw [List.takeWhile_append_of_pos hall]
    simp

/-- A name without an underscore is chosen exactly if something is to be called that. -/
theorem mem_chosenNames_iff {names : List String} (hnames : ∀ name ∈ names, IsTypeName name)
    {name : String} (hname : '_' ∉ name.toList) : name ∈ chosenNames names ↔ name ∈ names := by
  constructor
  · intro h
    obtain ⟨other, hother, hnumbers⟩ := numbers_of_mem_chosenNames h
    have hstart := takeWhile_of_numbers (hnames other hother).underscore_not_mem hnumbers
    have hsame := hstart.symm.trans (takeWhile_of_numbers hname (.inl rfl))
    rw [← String.toList_inj.mp hsame]
    exact hother
  · intro h
    induction names with
    | nil => cases h
    | cons first earlier ih =>
      have hrest := ih fun other hother => hnames other (List.mem_cons_of_mem _ hother)
      by_cases hold : name ∈ chosenNames earlier
      · exact List.mem_cons_of_mem _ hold
      · rcases List.mem_cons.mp h with rfl | hmem
        · rw [chosenNames, freshName_eq_self hold]
          exact List.mem_cons_self
        · exact absurd (hrest hmem) hold

/-- Two kinds of declarations, each with names of its own, get a common name exactly if one of each
kind is to be called the same. -/
theorem disjoint_chosenNames_iff {left right : List String}
    (hleft : ∀ name ∈ left, IsTypeName name) (hright : ∀ name ∈ right, IsTypeName name) :
    (chosenNames left).Disjoint (chosenNames right) ↔ left.Disjoint right := by
  constructor
  · intro h name hname hname'
    have hplain := (hleft name hname).underscore_not_mem
    exact h ((mem_chosenNames_iff hleft hplain).mpr hname)
      ((mem_chosenNames_iff hright hplain).mpr hname')
  · intro h chosen hchosen hchosen'
    obtain ⟨name, hname, hnumbers⟩ := numbers_of_mem_chosenNames hchosen
    obtain ⟨name', hname', hnumbers'⟩ := numbers_of_mem_chosenNames hchosen'
    have hsame := (takeWhile_of_numbers (hleft name hname).underscore_not_mem hnumbers).symm.trans
      (takeWhile_of_numbers (hright name' hname').underscore_not_mem hnumbers')
    exact h hname (String.toList_inj.mp hsame ▸ hname')

/-- Declares enums one after another and gives their names. -/
def EnumRegistry.hoistAll (r : EnumRegistry) : List (String × Schema) → List String × EnumRegistry
  | [] => ([], r)
  | (place, s) :: rest =>
    let (name, r) := r.hoist place s
    let (names, r) := r.hoistAll rest
    (name :: names, r)

end ApiTypes
