import ApiTypes.Proofs.Reading.Reader
import ApiTypes.Proofs.Utf8
import ApiTypes.TypeExpr.Printer
import Mathlib

/-!
The words of printed types and their readers: quoted texts, whole numbers, names, and the keys of
properties. Escapes are undone, so a quoted text reads as the text that was repaired to quote it.
-/

namespace ApiTypes

namespace Text

/-! The forms in which a character stands in a quoted text: a backslash and a letter or mark, the
number of the character, or the character itself. -/

/-- The characters that are written with a backslash, and what follows it. -/
def shortEscapes : List (Char × Char) :=
  [('"', '"'), ('\\', '\\'), ('\n', 'n'), ('\r', 'r'), ('\t', 't'), (Char.ofNat 8, 'b'),
    (Char.ofNat 12, 'f'), (Char.ofNat 11, 'v')]

theorem quoteChar_cases (c : Char) :
    (∃ mark, (c, mark) ∈ shortEscapes ∧ quoteChar c = ['\\', mark]) ∨
    (c.toNat < 0x10000 ∧ quoteChar c = unicodeEscape c) ∨
    (c ≠ '"' ∧ c ≠ '\\' ∧ 32 ≤ c.toNat ∧ c.toNat ≠ 0x2028 ∧ c.toNat ≠ 0x2029 ∧
      quoteChar c = [c]) := by
  have of_number {n : Nat} (h : c.toNat = n) : c = Char.ofNat n := by rw [← h, Char.ofNat_toNat]
  by_cases hquote : c = '"'
  · exact .inl ⟨'"', by subst hquote; decide⟩
  by_cases hbackslash : c = '\\'
  · exact .inl ⟨'\\', by subst hbackslash; decide⟩
  by_cases hn : c = '\n'
  · exact .inl ⟨'n', by subst hn; decide⟩
  by_cases hr : c = '\r'
  · exact .inl ⟨'r', by subst hr; decide⟩
  by_cases ht : c = '\t'
  · exact .inl ⟨'t', by subst ht; decide⟩
  by_cases hb : c.toNat = 8
  · exact .inl ⟨'b', by rw [of_number hb]; decide⟩
  by_cases hf : c.toNat = 12
  · exact .inl ⟨'f', by rw [of_number hf]; decide⟩
  by_cases hv : c.toNat = 11
  · exact .inl ⟨'v', by rw [of_number hv]; decide⟩
  rw [quoteChar, if_neg hquote, if_neg hbackslash, if_neg hn, if_neg hr, if_neg ht, if_neg hb,
    if_neg hf, if_neg hv]
  simp only [Bool.or_eq_true, decide_eq_true_eq]
  split
  · exact .inr (.inl ⟨by omega, rfl⟩)
  · exact .inr (.inr ⟨hquote, hbackslash, by omega, by omega, by omega, rfl⟩)

end Text

namespace Reader

/-- The character that is written as a backslash and some text. -/
def escaped : Reader Char
  | 'u' :: a :: b :: c :: d :: rest => do
    let a ← Text.hexDigitValue? a
    let b ← Text.hexDigitValue? b
    let c ← Text.hexDigitValue? c
    let d ← Text.hexDigitValue? d
    some (Char.ofNat (((a * 16 + b) * 16 + c) * 16 + d), rest)
  | 'n' :: rest => some ('\n', rest)
  | 'r' :: rest => some ('\r', rest)
  | 't' :: rest => some ('\t', rest)
  | 'b' :: rest => some (Char.ofNat 8, rest)
  | 'f' :: rest => some (Char.ofNat 12, rest)
  | 'v' :: rest => some (Char.ofNat 11, rest)
  | c :: rest => some (c, rest)
  | [] => none

/-- One character of a quoted text. -/
def quotedChar : Reader Char
  | [] => none
  | c :: rest =>
    if c = '"' then none
    else if c = '\\' then escaped rest
    else some (c, rest)

/-- A text in double quotes. -/
def quoted : Reader String := between "\"" "\"" (String.ofList <$> many quotedChar)

theorem hexDigitValue?_hexDigit {n : Nat} (h : n < 16) :
    Text.hexDigitValue? (Text.hexDigit n) = some n := by
  interval_cases n <;> rfl

/-- The last hexadecimal digit of a number. -/
theorem hexDigitValue?_digit (n : Nat) :
    Text.hexDigitValue? (Text.hexDigit (n % 16)) = some (n % 16) :=
  hexDigitValue?_hexDigit (Nat.mod_lt n (by decide))

/-- Four digits make up a number of sixteen bits. -/
theorem hexDigits_value {n : Nat} (h : n < 0x10000) :
    ((n / 4096 % 16 * 16 + n / 256 % 16) * 16 + n / 16 % 16) * 16 + n % 16 = n := by
  omega

theorem escaped_number {c : Char} (h : c.toNat < 65536) (rest : List Char) :
    escaped ('u' :: [c.toNat / 4096, c.toNat / 256, c.toNat / 16, c.toNat].map
      (fun d => Text.hexDigit (d % 16)) ++ rest) = some (c, rest) := by
  simp only [List.map_cons, List.map_nil, List.cons_append, List.nil_append, escaped,
    hexDigitValue?_digit, Option.bind_eq_bind, Option.bind_some, hexDigits_value h,
    Char.ofNat_toNat]

theorem quotedChar_short {c mark : Char} (h : (c, mark) ∈ Text.shortEscapes) (rest : List Char) :
    quotedChar ('\\' :: mark :: rest) = some (c, rest) := by
  simp only [Text.shortEscapes, List.mem_cons, Prod.mk.injEq, List.not_mem_nil, or_false] at h
  rcases h with ⟨rfl, rfl⟩ | ⟨rfl, rfl⟩ | ⟨rfl, rfl⟩ | ⟨rfl, rfl⟩ | ⟨rfl, rfl⟩ | ⟨rfl, rfl⟩ |
    ⟨rfl, rfl⟩ | ⟨rfl, rfl⟩ <;> rfl

theorem reads_quotedChar (c : Char) : Reads quotedChar (Text.quoteChar c) c Anything := by
  intro rest _
  obtain ⟨mark, hmark, hc⟩ | ⟨hlt, hc⟩ | ⟨hquote, hbackslash, -, -, -, hc⟩ :=
    Text.quoteChar_cases c
  · rw [hc]
    exact quotedChar_short hmark rest
  · rw [hc]
    exact escaped_number hlt rest
  · rw [hc, List.singleton_append, quotedChar, if_neg hquote, if_neg hbackslash]

theorem quoteChar_ne_nil (c : Char) : Text.quoteChar c ≠ [] := by
  intro h
  have hread := reads_quotedChar c [] trivial
  rw [h] at hread
  cases hread

/-- A quoted text reads as the repaired text. -/
theorem reads_quoted (s : String) :
    Reads quoted (Text.quote s).toList (Text.repaired s) Anything := by
  have hchars : Reads (many quotedChar) ((Text.repaired s).toList.flatMap Text.quoteChar)
      ((Text.repaired s).toList.map id) fun rest => ∃ more, rest = '"' :: more := by
    refine .many (fun c _ => reads_quotedChar c) (fun c _ => quoteChar_ne_nil c)
      (fun _ _ _ => trivial) ?_
    rintro _ ⟨more, rfl⟩
    exact ⟨trivial, rfl⟩
  have htext := (hchars.map String.ofList).between "\"" "\"" fun rest => ⟨rest, rfl⟩
  rw [List.map_id, String.ofList_toList] at htext
  rw [Text.quote, String.toList_ofList]
  exact htext

/-! Whole numbers. -/

def isNumberChar (c : Char) : Bool := c = '-' || Text.isDigit c

/-- A whole number. -/
def integer : Reader Int := do
  let text ← word isNumberChar
  StateT.lift text.toInt?

theorem isNumberChar_repr {n : Nat} {c : Char} (h : c ∈ n.repr.toList) : isNumberChar c = true := by
  rw [Nat.repr, String.toList_ofList] at h
  have hdigit := Nat.isDigit_of_mem_toDigits (by decide) (by decide) h
  simp only [Char.isDigit, Bool.and_eq_true, decide_eq_true_eq] at hdigit
  simp only [isNumberChar, Text.isDigit, Bool.or_eq_true, Bool.and_eq_true, decide_eq_true_eq]
  exact .inr hdigit

theorem isNumberChar_toString {n : Int} {c : Char} (h : c ∈ (toString n).toList) :
    isNumberChar c = true := by
  cases n with
  | ofNat n => exact isNumberChar_repr h
  | negSucc n =>
    change c ∈ ("-" ++ (n + 1).repr).toList at h
    rw [String.toList_append] at h
    rcases List.mem_append.mp h with hsign | hdigits
    · rw [List.mem_singleton.mp hsign]
      rfl
    · exact isNumberChar_repr hdigits

theorem toString_ne_nil (n : Int) : (toString n).toList ≠ [] := by
  have hdigits (n : Nat) : n.repr.toList ≠ [] := by
    rw [Nat.repr, String.toList_ofList]
    exact Nat.toDigits_ne_nil
  cases n with
  | ofNat n => exact hdigits n
  | negSucc n =>
    change ("-" ++ (n + 1).repr).toList ≠ []
    rw [String.toList_append]
    exact fun h => hdigits _ (List.append_eq_nil_iff.mp h).2

theorem reads_integer (n : Int) :
    Reads integer (toString n).toList n fun rest => ∀ c ∈ rest.head?, isNumberChar c = false := by
  intro rest hrest
  have hvalue : (toString n).toInt? = some n := Int.toInt?_repr n
  rw [integer, bind_of_some (Reads.word (toString_ne_nil n) (fun _ => isNumberChar_toString) rest
    hrest), String.ofList_toList, hvalue]
  rfl

/-! Names. -/

def isNameChar (c : Char) : Bool := Text.isIdentifierStart c || Text.isDigit c

/-- What a name consists of. -/
theorem exists_of_isIdentifier {name : String} (h : Text.isIdentifier name = true) :
    ∃ c more, name.toList = c :: more ∧ Text.isIdentifierStart c = true ∧
      ∀ d ∈ c :: more, isNameChar d = true := by
  rw [Text.isIdentifier] at h
  cases hname : name.toList with
  | nil => rw [hname] at h; cases h
  | cons c more =>
    rw [hname, Text.isIdentifierChars, Bool.and_eq_true, List.all_eq_true] at h
    refine ⟨c, more, rfl, h.1, List.forall_mem_cons.mpr ⟨?_, h.2⟩⟩
    rw [isNameChar, h.1, Bool.true_or]

theorem reads_name {name : String} (h : Text.isIdentifier name = true) :
    Reads (word isNameChar) name.toList name
      fun rest => ∀ c ∈ rest.head?, isNameChar c = false := by
  obtain ⟨c, more, hname, -, hall⟩ := exists_of_isIdentifier h
  rw [← hname] at hall
  have hword := Reads.word (by rw [hname]; nofun) hall
  rwa [String.ofList_toList] at hword

/-! Keys. Without quotes stand names and numbers, which have no character in common with the marks
after a key. -/

def isBareKeyChar (c : Char) : Bool := isNameChar c || ['.', '+', '-'].contains c

/-- The name of a property, bare or quoted. -/
def key : Reader String := word isBareKeyChar <|> quoted

theorem isBareKeyChar_of_isDigit {c : Char} (h : DecimalText.isDigit c = true) :
    isBareKeyChar c = true := by
  have hdigit : Text.isDigit c = true := h
  rw [isBareKeyChar, isNameChar, hdigit, Bool.or_true, Bool.true_or]

theorem isBareKeyChar_of_readSign {cs : List Char}
    (h : ∀ c ∈ (DecimalText.readSign cs).2, isBareKeyChar c = true) :
    ∀ c ∈ cs, isBareKeyChar c = true := by
  unfold DecimalText.readSign at h
  split at h
  · exact List.forall_mem_cons.mpr ⟨rfl, h⟩
  · exact List.forall_mem_cons.mpr ⟨rfl, h⟩
  · exact h

theorem isBareKeyChar_of_readPower? {cs : List Char} {power : Int}
    (h : DecimalText.readPower? cs = some power) : ∀ c ∈ cs, isBareKeyChar c = true := by
  cases cs with
  | nil => exact List.forall_mem_nil _
  | cons c rest =>
    rw [DecimalText.readPower?] at h
    simp only [Option.ite_none_right_eq_some, Bool.and_eq_true, Bool.or_eq_true,
      decide_eq_true_eq, List.all_eq_true] at h
    refine List.forall_mem_cons.mpr ⟨?_, isBareKeyChar_of_readSign fun d hd => ?_⟩
    · rcases h.1.1.1 with rfl | rfl <;> rfl
    · exact isBareKeyChar_of_isDigit (h.1.2 d hd)

theorem isBareKeyChar_of_read? {cs : List Char} {d : DecimalText}
    (h : DecimalText.read? cs = some d) : ∀ c ∈ cs, isBareKeyChar c = true := by
  refine isBareKeyChar_of_readSign ?_
  unfold DecimalText.read? at h
  have hdigits (cs : List Char) : ∀ c ∈ cs.takeWhile DecimalText.isDigit, isBareKeyChar c = true :=
    fun c hc => isBareKeyChar_of_isDigit (List.mem_takeWhile_imp hc)
  rw [← List.takeWhile_append_dropWhile (p := DecimalText.isDigit)
    (l := (DecimalText.readSign cs).2)]
  refine List.forall_mem_append.mpr ⟨hdigits _, ?_⟩
  simp only [Option.ite_none_left_eq_some, Option.map_eq_some_iff] at h
  obtain ⟨-, power, hpower, -⟩ := h
  split at hpower
  · rename_i fraction hpoint
    rw [hpoint]
    refine List.forall_mem_cons.mpr ⟨rfl, ?_⟩
    rw [← List.takeWhile_append_dropWhile (p := DecimalText.isDigit) (l := fraction)]
    exact List.forall_mem_append.mpr ⟨hdigits _, isBareKeyChar_of_readPower? hpower⟩
  · exact isBareKeyChar_of_readPower? hpower

/-- What a key written without quotes consists of. -/
theorem isBareKeyChar_of_bare {name : String}
    (h : (Text.isIdentifier name || Text.isNumericKey name) = true) :
    name.toList ≠ [] ∧ ∀ c ∈ name.toList, isBareKeyChar c = true := by
  rcases Bool.or_eq_true_iff.mp h with hname | hnumber
  · obtain ⟨c, more, hc, -, hall⟩ := exists_of_isIdentifier hname
    rw [hc]
    exact ⟨List.cons_ne_nil _ _, fun d hd => by rw [isBareKeyChar, hall d hd, Bool.true_or]⟩
  · unfold Text.isNumericKey at hnumber
    split at hnumber
    · cases hnumber
    · cases hnumber
    · rename_i hnil _
      split at hnumber
      · cases hnumber
      · rename_i hread
        exact ⟨hnil, isBareKeyChar_of_read? hread⟩

theorem strayByte?_of_bare {c : Char} (h : isBareKeyChar c = true) : Text.strayByte? c = none := by
  have hlt : c.toNat < 128 := by
    simp only [isBareKeyChar, isNameChar, Text.isIdentifierStart, Text.isUpperLetter,
      Text.isLowerLetter, Text.isDigit, Bool.or_eq_true, Bool.and_eq_true, decide_eq_true_eq,
      List.contains_eq_mem, List.mem_cons, List.not_mem_nil, or_false, Char.le_def,
      UInt32.le_iff_toNat_le] at h
    change c.val.toNat < 128
    rcases h with ((((h | h) | rfl) | rfl) | h) | rfl | rfl | rfl
    · exact Nat.lt_of_le_of_lt h.2 (by decide)
    · exact Nat.lt_of_le_of_lt h.2 (by decide)
    · decide
    · decide
    · exact Nat.lt_of_le_of_lt h.2 (by decide)
    all_goals decide
  exact Text.strayByte?_of_ascii hlt

theorem repaired_of_bare {name : String} (h : ∀ c ∈ name.toList, isBareKeyChar c = true) :
    Text.repaired name = name := by
  rw [Text.repaired, if_neg]
  rw [Text.hasStray, List.any_eq_true]
  rintro ⟨c, hc, hstray⟩
  rw [strayByte?_of_bare (h c hc)] at hstray
  cases hstray

/-- The key of a property reads as the repaired name, with quotes or without. -/
theorem reads_key (name : String) : Reads key (Text.propertyKey name).toList (Text.repaired name)
    fun rest => ∀ c ∈ rest.head?, isBareKeyChar c = false := by
  unfold Text.propertyKey
  split
  · rename_i hbare
    obtain ⟨hne, hall⟩ := isBareKeyChar_of_bare hbare
    have hword := Reads.word hne hall
    rw [repaired_of_bare hall]
    rw [String.ofList_toList] at hword
    exact hword.orElse quoted
  · refine ((reads_quoted name).mono fun _ _ => trivial).orElse_of_none fun rest _ => ?_
    rw [Text.quote, String.toList_ofList]
    exact word_of_not rfl _

/-- What a key begins with. -/
theorem propertyKey_head (name : String) : ∃ c more, (Text.propertyKey name).toList = c :: more ∧
    (isBareKeyChar c = true ∨ c = '"') := by
  unfold Text.propertyKey
  split
  · rename_i hbare
    obtain ⟨hne, hall⟩ := isBareKeyChar_of_bare hbare
    obtain ⟨c, more, hname⟩ := List.exists_cons_of_ne_nil hne
    exact ⟨c, more, hname, .inl (hall c (by rw [hname]; exact List.mem_cons_self))⟩
  · rw [Text.quote, String.toList_ofList]
    exact ⟨'"', _, rfl, .inr rfl⟩

end Reader

end ApiTypes
