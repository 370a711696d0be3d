import ApiTypes.Proofs.Reading.Lexemes
import ApiTypes.Proofs.Utf8
import Mathlib.Data.List.Basic

/-!
String literals and their values. The value of a literal is a sequence of units of sixteen bits, so
a character beyond these counts as two. `StringLiteral.value?` knows all the escapes that a literal
may hold, many more than are ever written, and finds in a quoted text the units of the text.
-/

namespace ApiTypes

namespace StringLiteral

/-- The units of a character, which is given by its number. -/
def unitsOf (n : Nat) : List Nat :=
  if n < 0x10000 then [n]
  else [0xD800 + (n - 0x10000) / 0x400, 0xDC00 + (n - 0x10000) % 0x400]

def units (s : String) : List Nat := s.toList.flatMap fun c => unitsOf c.toNat

/-- The characters that end a line. -/
def isLineEnd (c : Char) : Bool :=
  c = '\n' || c = '\r' || c.toNat = 0x2028 || c.toNat = 0x2029

/-- The number that hexadecimal digits spell. -/
def hexNumber? (digits : List Char) : Option Nat :=
  digits.foldlM (fun n c => (Text.hexDigitValue? c).map (n * 16 + ·)) 0

/-- The unit that is named by so many hexadecimal digits. -/
def hexUnit (count : Nat) : Reader (List Nat) := fun cs =>
  if cs.length < count then none
  else (hexNumber? (cs.take count)).map fun n => ([n], cs.drop count)

/-- The number of a character in braces, with as many digits as it may have. -/
def bracedNumber : Reader (List Nat) := fun cs =>
  match cs.takeWhile (· ≠ '}'), cs.dropWhile (· ≠ '}') with
  | _, [] | [], _ => none
  | digits, _ :: rest => do
    let n ← hexNumber? digits
    if n ≤ 0x10FFFF then some (unitsOf n, rest) else none

/-- The letters that stand for control characters behind a backslash. -/
def controlLetters : List (Char × Nat) :=
  [('b', 8), ('t', 9), ('n', 10), ('v', 11), ('f', 12), ('r', 13)]

/-- The units that are written as a backslash and some text. A line that ends behind the backslash
goes on without a unit, and digits other than a zero of its own are no escapes. -/
def escape : Reader (List Nat)
  | [] => none
  | c :: rest =>
    if c = 'u' then
      if rest.head? = some '{' then bracedNumber rest.tail else hexUnit 4 rest
    else if c = 'x' then hexUnit 2 rest
    else if c = '0' then if rest.head?.any Text.isDigit then none else some ([0], rest)
    else if Text.isDigit c then none
    else if c = '\r' && rest.head? = some '\n' then some ([], rest.tail)
    else if isLineEnd c then some ([], rest)
    else some (unitsOf ((controlLetters.lookup c).getD c.toNat), rest)

/-- A character or an escape of a literal in double quotes. -/
def piece : Reader (List Nat)
  | [] => none
  | c :: rest =>
    if c = '"' || isLineEnd c then none
    else if c = '\\' then escape rest
    else some (unitsOf c.toNat, rest)

/-- The value of a literal by what stands between its quotes. -/
def value? (body : List Char) : Option (List Nat) :=
  match Reader.many piece body with
  | some (pieces, []) => some pieces.flatten
  | _ => none

/-- The number of backslashes that a text ends with. -/
def finalBackslashes (cs : List Char) : Nat := (cs.reverse.takeWhile (· = '\\')).length

/-- What may stand between the quotes of a literal. Backslashes in front of a quote escape one
another, so the quote is escaped when their number is odd. -/
structure IsBody (body : List Char) : Prop where
  escaped : ∀ before after, body = before ++ '"' :: after → finalBackslashes before % 2 = 1
  /-- The quote behind the body is not escaped. -/
  closed : finalBackslashes body % 2 = 0
  visible : ∀ c ∈ body, 32 ≤ c.toNat ∧ c.toNat ≠ 0x2028 ∧ c.toNat ≠ 0x2029

/-! Units determine the characters, because the halves of a pair have numbers that no character
has. -/

theorem unitsOf_append_inj {c d : Char} {more rest : List Nat}
    (h : unitsOf c.toNat ++ more = unitsOf d.toNat ++ rest) : c = d ∧ more = rest := by
  have hc : c.toNat.isValidChar := c.valid
  have hd : d.toNat.isValidChar := d.valid
  unfold Nat.isValidChar at hc hd
  suffices hn : c.toNat = d.toNat by
    rw [hn] at h
    exact ⟨Char.toNat_inj.mp hn, List.append_cancel_left h⟩
  unfold unitsOf at h
  split at h <;> split at h <;>
    simp only [List.cons_append, List.nil_append, List.cons.injEq] at h <;> omega

theorem units_injective : Function.Injective units := by
  have hchars (cs ds : List Char) (h : cs.flatMap (fun c => unitsOf c.toNat) =
      ds.flatMap fun c => unitsOf c.toNat) : cs = ds := by
    have hne (n : Nat) : unitsOf n ≠ [] := by
      unfold unitsOf
      split <;> exact List.cons_ne_nil _ _
    induction cs generalizing ds with
    | nil =>
      cases ds with
      | nil => rfl
      | cons d ds => exact absurd (List.append_eq_nil_iff.mp h.symm).1 (hne _)
    | cons c cs ih =>
      cases ds with
      | nil => exact absurd (List.append_eq_nil_iff.mp h).1 (hne _)
      | cons d ds =>
        obtain ⟨rfl, hrest⟩ := unitsOf_append_inj h
        rw [ih ds hrest]
  exact fun s t h => String.toList_inj.mp (hchars _ _ h)

/-! What is written for a character reads as its units. -/

theorem escape_short {c mark : Char} (h : (c, mark) ∈ Text.shortEscapes) (rest : List Char) :
    escape (mark :: rest) = some (unitsOf c.toNat, rest) := by
  simp only [Text.shortEscapes, List.mem_cons, Prod.mk.injEq, List.not_mem_nil, or_false] at h
  rcases h with ⟨rfl, rfl⟩ | ⟨rfl, rfl⟩ | ⟨rfl, rfl⟩ | ⟨rfl, rfl⟩ | ⟨rfl, rfl⟩ | ⟨rfl, rfl⟩ |
    ⟨rfl, rfl⟩ | ⟨rfl, rfl⟩ <;> rfl

theorem hexDigit_ne_brace (n : Nat) : Text.hexDigit (n % 16) ≠ '{' := by
  intro h
  have hvalue := Reader.hexDigitValue?_digit n
  rw [h] at hvalue
  cases hvalue

theorem piece_number {c : Char} (h : c.toNat < 0x10000) (rest : List Char) :
    piece (Text.unicodeEscape c ++ rest) = some (unitsOf c.toNat, rest) := by
  change escape ('u' :: [c.toNat / 4096, c.toNat / 256, c.toNat / 16, c.toNat].map
    (fun d => Text.hexDigit (d % 16)) ++ rest) = _
  simp [escape, hexDigit_ne_brace, hexUnit, hexNumber?, Reader.hexDigitValue?_digit,
    Reader.hexDigits_value h, unitsOf, h]

theorem reads_piece (c : Char) :
    Reader.Reads piece (Text.quoteChar c) (unitsOf c.toNat) Reader.Anything := by
  intro rest _
  obtain ⟨mark, hmark, hc⟩ | ⟨hlt, hc⟩ | ⟨hquote, hbackslash, hleast, hline, hpara, hc⟩ :=
    Text.quoteChar_cases c
  · rw [hc]
    exact escape_short hmark rest
  · rw [hc]
    exact piece_number hlt rest
  · have hend : isLineEnd c = false := by
      have hn : c ≠ '\n' := by rintro rfl; revert hleast; decide
      have hr : c ≠ '\r' := by rintro rfl; revert hleast; decide
      simp [isLineEnd, hn, hr, hline, hpara]
    rw [hc, List.singleton_append, piece, if_neg (by simp [hquote, hend]), if_neg hbackslash]

/-- The value of a body that is written for characters. -/
theorem value?_quoteChars (s : String) :
    value? (s.toList.flatMap Text.quoteChar) = some (units s) := by
  have hread : Reader.Reads (Reader.many piece) (s.toList.flatMap Text.quoteChar)
      (s.toList.map fun c => unitsOf c.toNat) (· = []) :=
    .many (fun c _ => reads_piece c) (fun c _ => Reader.quoteChar_ne_nil c)
      (fun _ _ _ => trivial) fun _ hrest => ⟨trivial, hrest ▸ rfl⟩
  have hwhole := hread [] rfl
  rw [List.append_nil] at hwhole
  rw [value?, hwhole, units, List.flatMap_def]

/-- Escapes that are never written have a value as well. -/
example : value? "\\u{1F600}\\x41\\0".toList = some [0xD83D, 0xDE00, 0x41, 0] := by decide

/-! The body of a literal. What a character is written as ends with an even number of backslashes,
so whatever precedes it is closed again behind it. -/

theorem finalBackslashes_append_singleton (cs : List Char) (c : Char) :
    finalBackslashes (cs ++ [c]) = if c = '\\' then finalBackslashes cs + 1 else 0 := by
  by_cases hc : c = '\\' <;> simp [finalBackslashes, hc]

theorem short_visible {c mark : Char} (h : (c, mark) ∈ Text.shortEscapes) :
    32 ≤ mark.toNat ∧ mark.toNat < 128 := by
  have hall : ∀ e ∈ Text.shortEscapes, 32 ≤ e.2.toNat ∧ e.2.toNat < 128 := by decide
  exact hall _ h

theorem hexDigit_visible (n : Nat) :
    32 ≤ (Text.hexDigit (n % 16)).toNat ∧ (Text.hexDigit (n % 16)).toNat < 128 ∧
      Text.hexDigit (n % 16) ≠ '\\' ∧ Text.hexDigit (n % 16) ≠ '"' := by
  have hall : ∀ d < 16, 32 ≤ (Text.hexDigit d).toNat ∧ (Text.hexDigit d).toNat < 128 ∧
      Text.hexDigit d ≠ '\\' ∧ Text.hexDigit d ≠ '"' := by decide
  exact hall _ (Nat.mod_lt n (by decide))

/-- What a character is written with: itself, if it does no harm, and visible ASCII. -/
theorem mem_quoteChar {c d : Char} (h : d ∈ Text.quoteChar c) :
    d = c ∧ 32 ≤ c.toNat ∧ c.toNat ≠ 0x2028 ∧ c.toNat ≠ 0x2029 ∨
    32 ≤ d.toNat ∧ d.toNat < 128 := by
  obtain ⟨mark, hmark, hc⟩ | ⟨-, hc⟩ | ⟨-, -, hleast, hline, hpara, hc⟩ := Text.quoteChar_cases c
  · rw [hc] at h
    obtain rfl | rfl : d = '\\' ∨ d = mark := by simpa using h
    · exact .inr (by decide)
    · exact .inr (short_visible hmark)
  · rw [hc] at h
    simp only [Text.unicodeEscape, List.map_cons, List.map_nil, List.mem_cons, List.not_mem_nil,
      or_false] at h
    obtain rfl | rfl | rfl | rfl | rfl | rfl := h
    · exact .inr (by decide)
    · exact .inr (by decide)
    all_goals exact .inr ⟨(hexDigit_visible _).1, (hexDigit_visible _).2.1⟩
  · rw [hc, List.mem_singleton] at h
    exact .inl ⟨h, hleast, hline, hpara⟩

theorem quote_not_mem_unicodeEscape (c : Char) : '"' ∉ Text.unicodeEscape c := by
  simp [Text.unicodeEscape, fun n => (hexDigit_visible n).2.2.2.symm]

theorem finalBackslashes_append_quoteChar {cs : List Char} (h : finalBackslashes cs % 2 = 0)
    (c : Char) : finalBackslashes (cs ++ Text.quoteChar c) % 2 = 0 := by
  obtain ⟨mark, -, hc⟩ | ⟨-, hc⟩ | ⟨-, hbackslash, -, -, -, hc⟩ := Text.quoteChar_cases c
  · have hcons : cs ++ ['\\', mark] = cs ++ ['\\'] ++ [mark] := by simp
    rw [hc, hcons, finalBackslashes_append_singleton, finalBackslashes_append_singleton]
    split
    · simp only [if_pos]
      omega
    · rfl
  · have hlast : ∃ front, Text.unicodeEscape c = front ++ [Text.hexDigit (c.toNat % 16)] :=
      ⟨['\\', 'u', _, _, _], rfl⟩
    obtain ⟨front, hfront⟩ := hlast
    rw [hc, hfront, ← List.append_assoc, finalBackslashes_append_singleton,
      if_neg (hexDigit_visible _).2.2.1]
  · rw [hc, finalBackslashes_append_singleton, if_neg hbackslash]

theorem finalBackslashes_append_quoteChars (front cs : List Char)
    (hfront : finalBackslashes front % 2 = 0) :
    finalBackslashes (front ++ cs.flatMap Text.quoteChar) % 2 = 0 := by
  induction cs generalizing front with
  | nil => rwa [List.flatMap_nil, List.append_nil]
  | cons c cs ih =>
    rw [List.flatMap_cons, ← List.append_assoc]
    exact ih _ (finalBackslashes_append_quoteChar hfront c)

/-- A quote is written behind a single backslash, as the last thing of its character. -/
theorem quoteChar_eq_append {c : Char} {before after : List Char}
    (h : Text.quoteChar c = before ++ '"' :: after) : before = ['\\'] ∧ after = [] := by
  have hmem : '"' ∈ Text.quoteChar c := h ▸ by simp
  obtain ⟨mark, -, hc⟩ | ⟨-, hc⟩ | ⟨hquote, -, -, -, -, hc⟩ := Text.quoteChar_cases c
  · rw [hc] at h
    match before with
    | [] => simp at h
    | [first] =>
      simp only [List.cons_append, List.nil_append, List.cons.injEq] at h
      exact ⟨by rw [← h.1], h.2.2.symm⟩
    | first :: second :: more => simp at h
  · exact absurd (hc ▸ hmem) (quote_not_mem_unicodeEscape c)
  · rw [hc, List.mem_singleton] at hmem
    exact absurd hmem.symm hquote

/-- The quotes in what is written for characters are escaped, behind anything that is closed. -/
theorem escaped_quoteChars (front cs : List Char) (hfront : finalBackslashes front % 2 = 0)
    {before after : List Char} (h : cs.flatMap Text.quoteChar = before ++ '"' :: after) :
    finalBackslashes (front ++ before) % 2 = 1 := by
  induction cs generalizing front before with
  | nil => simp at h
  | cons c cs ih =>
    have hclosed := finalBackslashes_append_quoteChar hfront c
    rw [List.flatMap_cons, List.append_eq_append_iff] at h
    obtain ⟨more, rfl, hmore⟩ | ⟨more, hc, hmore⟩ := h
    · rw [← List.append_assoc]
      exact ih _ hclosed hmore
    · cases more with
      | nil =>
        -- The quote is the first thing that is written for the characters after `c`.
        rw [List.append_nil] at hc
        have hnext : finalBackslashes (front ++ Text.quoteChar c ++ []) % 2 = 1 :=
          ih _ hclosed hmore.symm
        rwa [List.append_nil, hc] at hnext
      | cons mark more =>
        obtain ⟨rfl, -⟩ := List.cons.inj hmore
        obtain ⟨rfl, -⟩ := quoteChar_eq_append hc
        rw [finalBackslashes_append_singleton, if_pos rfl]
        omega

theorem isBody_quoteChars (cs : List Char) : IsBody (cs.flatMap Text.quoteChar) where
  escaped _ _ h := escaped_quoteChars [] cs rfl h
  closed := finalBackslashes_append_quoteChars [] cs rfl
  visible c hc := by
    obtain ⟨d, -, hd⟩ := List.mem_flatMap.mp hc
    obtain ⟨rfl, hvisible⟩ | hascii := mem_quoteChar hd
    · exact hvisible
    · omega

/-! Characters of the area for stray bytes are written as they are, and nothing that is written
for another character is of the area. -/

theorem quoteChar_of_stray {c : Char} (h : (Text.strayByte? c).isSome = true) :
    Text.quoteChar c = [c] := by
  have hlarge : 0x10000 ≤ c.toNat := Text.le_of_stray h
  obtain ⟨mark, hmark, -⟩ | ⟨hlt, -⟩ | ⟨-, -, -, -, -, hc⟩ := Text.quoteChar_cases c
  · have hsmall : ∀ e ∈ Text.shortEscapes, e.1.toNat < 128 := by decide
    have hlt : c.toNat < 128 := hsmall _ hmark
    omega
  · omega
  · exact hc

theorem flatMap_quoteChar_kept (c : Char) : (Text.Piece.char c).kept.flatMap Text.quoteChar =
    (Text.quoteChar c).flatMap fun d => (Text.Piece.char d).kept := by
  by_cases hstray : (Text.strayByte? c).isSome = true
  · have hbyte : ∀ d ∈ (Text.Piece.char c).kept, Text.quoteChar d = [d] := by
      intro d hd
      rw [Text.Piece.kept, if_pos hstray, List.mem_map] at hd
      obtain ⟨byte, hbyte, rfl⟩ := hd
      have hrange := Text.utf8Bytes_range_of_stray hstray hbyte
      exact quoteChar_of_stray (by rw [Text.strayByte?_strayByte hrange.1 hrange.2]; rfl)
    rw [List.flatMap_congr hbyte, List.flatMap_singleton', quoteChar_of_stray hstray,
      List.flatMap_singleton]
  · have hself : ∀ d ∈ Text.quoteChar c, (Text.Piece.char d).kept = [d] := by
      intro d hd
      rw [Text.Piece.kept, if_neg]
      obtain ⟨rfl, -⟩ | ⟨-, hascii⟩ := mem_quoteChar hd
      · exact hstray
      · simp [Text.strayByte?_of_ascii hascii]
    rw [List.flatMap_congr hself, List.flatMap_singleton', Text.Piece.kept, if_neg hstray,
      List.flatMap_singleton]

/-- The literal of some characters is itself made up of characters. -/
theorem quote_ofPlain (s : String) : Text.quote (Text.ofPlain s) =
    Text.ofPlain (String.ofList ('"' :: s.toList.flatMap Text.quoteChar ++ ['"'])) := by
  have hmark : (Text.Piece.char '"').kept = ['"'] := by decide
  apply String.toList_inj.mp
  rw [Text.quote, Text.repaired_eq_self_iff.mpr ⟨s, rfl⟩, String.toList_ofList,
    Text.toList_ofPlain, Text.toList_ofPlain, String.toList_ofList]
  simp only [List.cons_append, List.flatMap_cons, List.flatMap_append, List.flatMap_nil, hmark,
    List.flatMap_assoc, flatMap_quoteChar_kept, List.nil_append, List.append_nil]

theorem toPlain_quote (s : String) : (Text.toPlain (Text.quote (Text.ofPlain s))).toList =
    '"' :: s.toList.flatMap Text.quoteChar ++ ['"'] := by
  rw [quote_ofPlain, Text.toPlain_ofPlain, String.toList_ofList]

/-- A key that is written for characters is made up of characters. -/
theorem isUtf8_propertyKey (s : String) : Text.IsUtf8 (Text.propertyKey (Text.ofPlain s)) := by
  unfold Text.propertyKey
  split
  · exact ⟨s, rfl⟩
  · exact ⟨_, quote_ofPlain s⟩

/-- A key tells the name, except for bytes that are part of no character. -/
theorem repaired_eq_of_propertyKey_eq {name other : String}
    (h : Text.propertyKey name = Text.propertyKey other) :
    Text.repaired name = Text.repaired other := by
  have hread (name : String) :
      Reader.key (Text.propertyKey name).toList = some (Text.repaired name, []) := by
    simpa using Reader.reads_key name [] (by simp)
  have hname := hread name
  rw [h, hread other] at hname
  simpa [eq_comm] using hname

theorem propertyKey_injective :
    Function.Injective fun s => Text.toPlain (Text.propertyKey (Text.ofPlain s)) := by
  intro s t h
  have hnames := repaired_eq_of_propertyKey_eq
    (Text.toPlain_inj (isUtf8_propertyKey s) (isUtf8_propertyKey t) h)
  rw [Text.repaired_eq_self_iff.mpr ⟨s, rfl⟩, Text.repaired_eq_self_iff.mpr ⟨t, rfl⟩] at hnames
  rw [← Text.toPlain_ofPlain s, hnames, Text.toPlain_ofPlain]

/-- A string, quoted, is a literal that has the string as its value. So different strings are
quoted differently, and as keys of properties they differ whether quoted or bare. -/
theorem quote_reads_back :
    (∀ s : String, ∃ body, (Text.toPlain (Text.quote (Text.ofPlain s))).toList =
      '"' :: body ++ ['"'] ∧ IsBody body ∧ value? body = some (units s)) ∧
    Function.Injective (fun s => Text.toPlain (Text.quote (Text.ofPlain s))) ∧
    Function.Injective (fun s => Text.toPlain (Text.propertyKey (Text.ofPlain s))) := by
  refine ⟨fun s => ⟨_, toPlain_quote s, isBody_quoteChars _, value?_quoteChars s⟩, fun s t h => ?_,
    propertyKey_injective⟩
  have hbody : s.toList.flatMap Text.quoteChar = t.toList.flatMap Text.quoteChar := by
    have htext := congrArg String.toList h
    simp only [toPlain_quote] at htext
    simpa using htext
  apply units_injective
  rw [← Option.some.injEq, ← value?_quoteChars, ← value?_quoteChars, hbody]

end StringLiteral

end ApiTypes
