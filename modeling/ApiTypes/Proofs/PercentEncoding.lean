import ApiTypes.Location
import ApiTypes.Proofs.PercentEscapes
import Mathlib.Data.Bool.AllAny

/-!
Writing a text with percent escapes. What is written depends on the bytes of the text alone: those
of plain characters are written as these characters, and all others are escaped. Read again, the
escapes give the same bytes.
-/

namespace ApiTypes.Location

open Text

/-- What stands for itself when a text is written: characters that can be seen, but no percent
sign. -/
structure IsPlain (plain : Char → Bool) : Prop where
  visible : ∀ c, plain c = true → 32 < c.toNat ∧ c.toNat < 127
  percent : plain '%' = false

theorem isPlain_marks {marks : List Char}
    (h : ∀ c ∈ marks, (32 < c.toNat ∧ c.toNat < 127) ∧ c ≠ '%') : IsPlain fun c =>
      isUpperLetter c || isLowerLetter c || isDigit c || marks.contains c where
  visible c hc := by
    have hle (a b : Char) : a ≤ b ↔ a.toNat ≤ b.toNat := Iff.rfl
    have hnumbers : '0'.toNat = 48 ∧ '9'.toNat = 57 ∧ 'a'.toNat = 97 ∧ 'z'.toNat = 122 ∧
        'A'.toNat = 65 ∧ 'Z'.toNat = 90 := by decide
    simp only [isUpperLetter, isLowerLetter, isDigit, Bool.or_eq_true, Bool.and_eq_true,
      decide_eq_true_eq, hle, hnumbers, List.contains_iff_mem] at hc
    rcases hc with hletter | hmark
    · omega
    · exact (h c hmark).1
  percent := by
    have hmark : '%' ∉ marks := fun hmem => (h _ hmem).2 rfl
    simpa [hmark] using (by decide)

theorem isPlain_host : IsPlain isHostChar := isPlain_marks (List.all_iff_forall_prop.mp (by decide))

theorem isPlain_user : IsPlain isUserChar := isPlain_marks (List.all_iff_forall_prop.mp (by decide))

theorem isPlain_path : IsPlain isPathChar := isPlain_marks (List.all_iff_forall_prop.mp (by decide))

/-- What is written for some bytes. -/
def encodeBytes (plain : Char → Bool) (bytes : List Nat) : List Char :=
  bytes.flatMap fun byte =>
    if byte < 128 && plain (Char.ofNat byte) then [Char.ofNat byte] else percentEscape byte

theorem encodeBytes_append (plain : Char → Bool) (bytes more : List Nat) :
    encodeBytes plain (bytes ++ more) = encodeBytes plain bytes ++ encodeBytes plain more :=
  List.flatMap_append

/-- The characters that escapes are made of. -/
def escapeChars : List Char := "%0123456789ABCDEF".toList

/-- The digits of an escape. -/
theorem percentEscape_eq {byte : Nat} (h : byte < 256) : ∃ high low,
    percentEscape byte = ['%', high, low] ∧ hexDigitValue? high = some (byte / 16) ∧
      hexDigitValue? low = some (byte % 16) ∧ high ∈ escapeChars ∧ low ∈ escapeChars := by
  have hdigit : ∀ n < 16, ∀ c, c = (if n < 10 then Char.ofNat (n + 48) else Char.ofNat (n + 55)) →
      hexDigitValue? c = some n ∧ c ∈ escapeChars := by
    rintro n hn c rfl
    revert hn n
    decide
  obtain ⟨hhigh, hhigh'⟩ := hdigit (byte / 16) (by omega) _ rfl
  obtain ⟨hlow, hlow'⟩ := hdigit (byte % 16) (by omega) _ rfl
  exact ⟨_, _, rfl, hhigh, hlow, hhigh', hlow'⟩

variable {plain : Char → Bool}

theorem bytesOf_ne_nil (c : Char) : bytesOf c ≠ [] := by
  unfold bytesOf
  split
  · exact List.cons_ne_nil _ _
  · exact utf8Bytes_ne_nil c

theorem encodeBytes_bytesOf_plain (h : IsPlain plain) {c : Char} (hc : plain c = true) :
    encodeBytes plain (bytesOf c) = [c] := by
  have hvisible := h.visible c hc
  rw [bytesOf_basic (by omega)]
  simp [encodeBytes, Char.ofNat_toNat, hc]
  omega

theorem encodeBytes_cons_plain (h : IsPlain plain) {c : Char} (hc : plain c = true)
    (bytes : List Nat) : encodeBytes plain (c.toNat :: bytes) = c :: encodeBytes plain bytes := by
  have hvisible := h.visible c hc
  rw [← List.singleton_append, ← bytesOf_basic (by omega), encodeBytes_append,
    encodeBytes_bytesOf_plain h hc]
  rfl

/-- What is plain stands for itself. -/
theorem encodeBytes_of_plain (h : IsPlain plain) {cs : List Char} (hcs : ∀ c ∈ cs, plain c = true) :
    encodeBytes plain (cs.flatMap bytesOf) = cs := by
  induction cs with
  | nil => rfl
  | cons c rest ih =>
    obtain ⟨hc, hrest⟩ := List.forall_mem_cons.mp hcs
    rw [List.flatMap_cons, encodeBytes_append, encodeBytes_bytesOf_plain h hc, ih hrest]
    rfl

theorem encodeBytes_bytesOf_escaped {c : Char} (hc : plain c = false) :
    encodeBytes plain (bytesOf c) = (bytesOf c).flatMap percentEscape := by
  refine List.flatMap_congr fun byte hbyte => if_neg ?_
  by_cases hsmall : c.toNat < 128
  · rw [bytesOf_basic hsmall, List.mem_singleton] at hbyte
    rw [hbyte, Char.ofNat_toNat, hc, Bool.and_false]
    decide
  · have hlarge := (bytesOf_range (Nat.le_of_not_lt hsmall) hbyte).1
    simp
    omega

/-- What is written for a text is what is written for its bytes. -/
theorem toList_encode (h : IsPlain plain) (s : String) :
    (encode plain s).toList = encodeBytes plain (s.toList.flatMap bytesOf) := by
  rw [encode, String.toList_ofList, encodeBytes, List.flatMap_assoc]
  refine List.flatMap_congr fun c _ => ?_
  by_cases hc : plain c = true
  · rw [if_pos hc]
    exact (encodeBytes_bytesOf_plain h hc).symm
  · rw [if_neg hc]
    exact (encodeBytes_bytesOf_escaped (by simpa using hc)).symm

theorem bytes_lt (s : String) : ∀ byte ∈ s.toList.flatMap bytesOf, byte < 256 := by
  intro byte hbyte
  obtain ⟨c, -, hbyte⟩ := List.mem_flatMap.mp hbyte
  exact byte_lt hbyte

/-- The characters of what is written. -/
theorem mem_encodeBytes {bytes : List Nat} (hbytes : ∀ byte ∈ bytes, byte < 256) {c : Char}
    (h : c ∈ encodeBytes plain bytes) : (plain c = true ∧ c.toNat ∈ bytes) ∨ c ∈ escapeChars := by
  obtain ⟨byte, hbyte, hc⟩ := List.mem_flatMap.mp h
  split at hc
  · rename_i hplain
    rw [Bool.and_eq_true, decide_eq_true_eq] at hplain
    rw [List.mem_singleton.mp hc, toNat_ofNat (.inl (by omega))]
    exact .inl ⟨hplain.2, hbyte⟩
  · obtain ⟨high, low, heq, -, -, hhigh, hlow⟩ := percentEscape_eq (hbytes byte hbyte)
    rw [heq] at hc
    simp only [List.mem_cons, List.not_mem_nil, or_false] at hc
    rcases hc with rfl | rfl | rfl
    · exact .inr (by decide)
    · exact .inr hhigh
    · exact .inr hlow

theorem mem_encode (h : IsPlain plain) {s : String} {c : Char}
    (hc : c ∈ (encode plain s).toList) : plain c = true ∨ c ∈ escapeChars := by
  rw [toList_encode h] at hc
  exact (mem_encodeBytes (bytes_lt s) hc).imp_left And.left

/-- What is written can be seen. -/
theorem visible_of_mem_encode (h : IsPlain plain) {s : String} {c : Char}
    (hc : c ∈ (encode plain s).toList) : 32 < c.toNat ∧ c.toNat < 127 := by
  rcases mem_encode h hc with hplain | hescape
  · exact h.visible c hplain
  · have hall : ∀ c ∈ escapeChars, 32 < c.toNat ∧ c.toNat < 127 :=
      List.all_iff_forall_prop.mp (by decide)
    exact hall c hescape

theorem percentBytes?_cons {c : Char} (h : c ≠ '%') (rest : List Char) :
    percentBytes? (c :: rest) = (percentBytes? rest).map (bytesOf c ++ ·) := by
  rw [percentBytes?]
  · exact fun _ _ _ hc => absurd hc h
  · exact h

/-- What is written is read as the bytes it was written for. -/
theorem percentBytes?_encodeBytes (h : IsPlain plain) {bytes : List Nat}
    (hbytes : ∀ byte ∈ bytes, byte < 256) (rest : List Char) :
    percentBytes? (encodeBytes plain bytes ++ rest) = (percentBytes? rest).map (bytes ++ ·) := by
  induction bytes with
  | nil => simp [encodeBytes]
  | cons byte more ih =>
    obtain ⟨hbyte, hmore⟩ := List.forall_mem_cons.mp hbytes
    rw [encodeBytes, List.flatMap_cons, List.append_assoc, ← encodeBytes]
    split
    · rename_i hplain
      rw [Bool.and_eq_true, decide_eq_true_eq] at hplain
      have hne : Char.ofNat byte ≠ '%' := fun heq => by
        rw [heq, h.percent] at hplain
        exact nomatch hplain.2
      have hnumber : (Char.ofNat byte).toNat = byte := toNat_ofNat (.inl (by omega))
      rw [List.singleton_append, percentBytes?_cons hne, ih hmore, bytesOf_basic (by omega),
        hnumber, Option.map_map]
      rfl
    · obtain ⟨high, low, heq, hhigh, hlow, -⟩ := percentEscape_eq hbyte
      rw [heq]
      simp only [List.cons_append, List.nil_append, percentBytes?, hhigh, hlow, ih hmore]
      cases percentBytes? rest <;> simp [Nat.div_add_mod']

theorem percentBytes?_of_not_mem {cs : List Char} (h : '%' ∉ cs) :
    percentBytes? cs = some (cs.flatMap bytesOf) := by
  induction cs with
  | nil => rfl
  | cons c rest ih =>
    rw [List.mem_cons, not_or] at h
    rw [percentBytes?_cons (Ne.symm h.1), ih h.2]
    rfl

/-- The bytes of a text in which the escapes are read are those that are spelled. -/
theorem bytes_of_percentDecode? {s decoded : String} (h : percentDecode? s = some decoded) :
    percentBytes? s.toList = some (decoded.toList.flatMap bytesOf) := by
  rw [percentDecode?] at h
  split at h
  · obtain ⟨bytes, hbytes, rfl⟩ := Option.map_eq_some_iff.mp h
    rw [hbytes, flatMap_bytesOf_ofBytes (percentBytes?_lt hbytes)]
  · rename_i hpercent
    cases h
    exact percentBytes?_of_not_mem (by simpa using hpercent)

theorem ofBytes_cons_basic {byte : Nat} (h : byte < 128) (rest : List Nat) :
    (ofBytes (byte :: rest)).toList = Char.ofNat byte :: (ofBytes rest).toList := by
  have hfront : frontChar? (byte :: rest) = some (Char.ofNat byte, 1) := by simp [frontChar?, h]
  rw [ofBytes_cons_of_front hfront, Piece.kept, if_neg]
  · rfl
  · rw [strayByte?, toNat_ofNat (.inl (by omega)), if_neg]
    · decide
    · unfold strayArea
      simp
      omega

/-- The bytes of basic characters make up these characters. -/
theorem ofBytes_flatMap_bytesOf {cs : List Char} (h : ∀ c ∈ cs, c.toNat < 128) :
    (ofBytes (cs.flatMap bytesOf)).toList = cs := by
  induction cs with
  | nil => rfl
  | cons c rest ih =>
    obtain ⟨hc, hrest⟩ := List.forall_mem_cons.mp h
    rw [List.flatMap_cons, bytesOf_basic hc, List.singleton_append, ofBytes_cons_basic hc,
      Char.ofNat_toNat, ih hrest]

/-- What is written for some bytes is read as the text that they make up. -/
theorem percentDecode?_encodeBytes (h : IsPlain plain) {bytes : List Nat}
    (hbytes : ∀ byte ∈ bytes, byte < 256) :
    percentDecode? (String.ofList (encodeBytes plain bytes)) = some (ofBytes bytes) := by
  have hread := percentBytes?_encodeBytes h hbytes []
  rw [List.append_nil, percentBytes?, Option.map_some, List.append_nil] at hread
  rw [percentDecode?, String.toList_ofList]
  by_cases hpercent : '%' ∈ encodeBytes plain bytes
  · rw [if_pos (List.contains_iff_mem.mpr hpercent), hread]
    rfl
  · rw [if_neg (by simpa using hpercent)]
    rw [percentBytes?_of_not_mem hpercent] at hread
    have hbasic : ∀ c ∈ encodeBytes plain bytes, c.toNat < 128 := by
      intro c hc
      rcases mem_encodeBytes hbytes hc with ⟨hplain, -⟩ | hescape
      · have hvisible := h.visible c hplain
        omega
      · have hall : ∀ c ∈ escapeChars, c.toNat < 128 := List.all_iff_forall_prop.mp (by decide)
        exact hall c hescape
    have hsame : ofBytes bytes = String.ofList (encodeBytes plain bytes) := by
      rw [← String.toList_inj, String.toList_ofList]
      conv_lhs => rw [← Option.some.inj hread]
      exact ofBytes_flatMap_bytesOf hbasic
    rw [hsame]

/-- What is written can be read. -/
theorem exists_percentDecode?_encode (h : IsPlain plain) (s : String) :
    ∃ decoded, percentDecode? (encode plain s) = some decoded := by
  have hread := percentDecode?_encodeBytes h (bytes_lt s)
  rw [← toList_encode h, String.ofList_toList] at hread
  exact ⟨_, hread⟩

/-- A basic character in front stays in front, unless it starts an escape. -/
theorem percentDecode?_cons {c : Char} (hbasic : c.toNat < 128) (hc : c ≠ '%') (cs : List Char) :
    percentDecode? (String.ofList (c :: cs)) =
      (percentDecode? (String.ofList cs)).map fun decoded =>
        String.ofList (c :: decoded.toList) := by
  simp only [percentDecode?, String.toList_ofList, List.contains_cons,
    beq_false_of_ne hc.symm, Bool.false_or]
  split
  · rw [percentBytes?_cons hc, bytesOf_basic hbasic, Option.map_map, Option.map_map]
    congr 1
    funext bytes
    rw [← String.toList_inj, Function.comp_apply, Function.comp_apply, String.toList_ofList,
      List.singleton_append, ofBytes_cons_basic hbasic, Char.ofNat_toNat]
  · rw [Option.map_some, String.toList_ofList]

end ApiTypes.Location
