import ApiTypes.Proofs.Utf8

/-!
Percent escapes and the bytes that they spell. Some bytes make up a text that has exactly these
bytes, so nothing is lost when the escapes of a text are read. A basic character is a byte of its
own and no part of any other character: a text has it as often as its bytes have this byte. Reading
an escape replaces three characters by one byte and keeps all others.
-/

namespace ApiTypes.Text

theorem toNat_ofNat {n : Nat} (h : n.isValidChar) : (Char.ofNat n).toNat = n := by
  rw [Char.ofNat, dif_pos h]
  rfl

theorem bytesOf_basic {c : Char} (h : c.toNat < 128) : bytesOf c = [c.toNat] := by
  have hout : strayByte? c = none := by
    rw [strayByte?, if_neg]
    simp only [Bool.and_eq_true, decide_eq_true_eq]
    unfold strayArea
    omega
  rw [bytesOf, hout, utf8Bytes_eq, if_pos h]

/-- The bytes of a character that is not basic are beyond the basic ones. -/
theorem bytesOf_range {c : Char} (h : 128 ≤ c.toNat) {byte : Nat} (hbyte : byte ∈ bytesOf c) :
    128 ≤ byte ∧ byte < 256 := by
  have hlt := charNumber_lt c
  unfold bytesOf at hbyte
  split at hbyte
  · rename_i stray hstray
    obtain rfl := List.mem_singleton.mp hbyte
    rw [strayByte?, Option.ite_none_right_eq_some, Bool.and_eq_true, decide_eq_true_eq,
      decide_eq_true_eq, Option.some.injEq] at hstray
    omega
  · rw [utf8Bytes_eq, if_neg (by omega)] at hbyte
    split_ifs at hbyte <;>
      (simp only [List.mem_cons, List.not_mem_nil, or_false] at hbyte; omega)

theorem byte_lt {c : Char} {byte : Nat} (h : byte ∈ bytesOf c) : byte < 256 := by
  by_cases hc : c.toNat < 128
  · rw [bytesOf_basic hc, List.mem_singleton] at h
    omega
  · exact (bytesOf_range (Nat.le_of_not_lt hc) h).2

theorem count_bytesOf {a : Char} (ha : a.toNat < 128) (c : Char) :
    (bytesOf c).count a.toNat = [c].count a := by
  by_cases hc : c.toNat < 128
  · rw [bytesOf_basic hc, List.count_singleton, List.count_singleton]
    simp only [beq_iff_eq, Char.toNat_inj]
  · have hbytes : a.toNat ∉ bytesOf c := fun hmem =>
      absurd ha (Nat.not_lt.mpr (bytesOf_range (Nat.le_of_not_lt hc) hmem).1)
    have hchars : a ∉ [c] := fun hmem => hc (List.mem_singleton.mp hmem ▸ ha)
    rw [List.count_eq_zero.mpr hbytes, List.count_eq_zero.mpr hchars]

/-! The text that some bytes make up. -/

theorem continuation?_eq_some {byte n : Nat} (h : continuation? byte = some n) :
    byte / 64 = 2 ∧ byte % 64 = n := by
  unfold continuation? at h
  split at h
  · exact ⟨‹_›, Option.some.inj h⟩
  · cases h

theorem utf8Bytes_ofNat {n : Nat} (h : n.isValidChar) : utf8Bytes (Char.ofNat n) =
    if n < 128 then [n]
    else if n < 2048 then [192 + n / 64, 128 + n % 64]
    else if n < 65536 then [224 + n / 4096, 128 + n / 64 % 64, 128 + n % 64]
    else [240 + n / 262144, 128 + n / 4096 % 64, 128 + n / 64 % 64, 128 + n % 64] := by
  rw [utf8Bytes_eq, toNat_ofNat h]

/-- A character that is read at the front of some bytes is there with its own bytes. -/
theorem eq_of_frontChar? {bytes : List Nat} {c : Char} {length : Nat}
    (h : frontChar? bytes = some (c, length)) :
    length = (utf8Bytes c).length ∧ bytes = utf8Bytes c ++ bytes.drop length := by
  unfold frontChar? at h
  split at h
  · rename_i a rest
    split at h
    · rename_i ha
      cases h
      rw [utf8Bytes_ofNat (.inl (by omega)), if_pos ha]
      exact ⟨rfl, rfl⟩
    · split at h
      · rename_i b more
        obtain ⟨b', hb, h⟩ := Option.bind_eq_some_iff.mp h
        obtain ⟨hb, rfl⟩ := continuation?_eq_some hb
        dsimp only at h
        split at h
        · split at h
          · rename_i ha hn
            cases h
            rw [utf8Bytes_ofNat (.inl (by omega)), if_neg (by omega), if_pos (by omega)]
            simp
            omega
          · cases h
        · split at h
          · rename_i c more
            obtain ⟨c', hc, h⟩ := Option.bind_eq_some_iff.mp h
            obtain ⟨hc, rfl⟩ := continuation?_eq_some hc
            split at h
            · split at h
              · rename_i ha hn
                rw [Bool.and_eq_true, decide_eq_true_eq, decide_eq_true_eq] at hn
                cases h
                rw [utf8Bytes_ofNat hn.2, if_neg (by omega), if_neg (by omega),
                  if_pos (by omega)]
                simp
                omega
              · cases h
            · split at h
              · rename_i d _
                obtain ⟨d', hd, h⟩ := Option.bind_eq_some_iff.mp h
                obtain ⟨hd, rfl⟩ := continuation?_eq_some hd
                split at h
                · rename_i hn
                  rw [Bool.and_eq_true, Bool.and_eq_true, decide_eq_true_eq, decide_eq_true_eq,
                    decide_eq_true_eq] at hn
                  cases h
                  rw [utf8Bytes_ofNat hn.2, if_neg (by omega), if_neg (by omega),
                    if_neg (by omega)]
                  simp
                  omega
                · cases h
              · cases h
          · cases h
      · cases h
  · cases h

/-- Steps beyond the number of bytes change nothing. -/
theorem piecesWithin_eq {steps : Nat} {bytes : List Nat} (h : bytes.length ≤ steps) :
    piecesWithin steps bytes = piecesOf bytes := by
  suffices hany : ∀ steps steps' bytes, bytes.length ≤ steps → bytes.length ≤ steps' →
      piecesWithin steps bytes = piecesWithin steps' bytes from hany _ _ _ h (Nat.le_refl _)
  intro steps
  induction steps with
  | zero =>
    intro steps' bytes h h'
    rw [List.eq_nil_of_length_eq_zero (Nat.eq_zero_of_le_zero h)]
    cases steps' <;> rfl
  | succ steps ih =>
    intro steps' bytes h h'
    cases bytes with
    | nil => cases steps' <;> rfl
    | cons byte rest =>
      obtain ⟨steps', rfl⟩ := Nat.exists_eq_add_one_of_ne_zero (Nat.ne_zero_of_lt h')
      rw [List.length_cons] at h h'
      rw [piecesWithin, piecesWithin]
      cases hfront : frontChar? (byte :: rest) with
      | none =>
        dsimp only
        rw [ih steps' rest (by omega) (by omega)]
      | some front =>
        have hpos := List.length_pos_of_ne_nil (utf8Bytes_ne_nil front.1)
        have hlength := (eq_of_frontChar? hfront).1
        dsimp only
        rw [ih steps' _ (by simp; omega) (by simp; omega)]

/-- The text starts with the character at the front of the bytes. -/
theorem ofBytes_cons_of_front {byte : Nat} {rest : List Nat} {c : Char} {length : Nat}
    (h : frontChar? (byte :: rest) = some (c, length)) : (ofBytes (byte :: rest)).toList =
      (Piece.char c).kept ++ (ofBytes ((byte :: rest).drop length)).toList := by
  have hpos := List.length_pos_of_ne_nil (utf8Bytes_ne_nil c)
  have hlength := (eq_of_frontChar? h).1
  simp only [ofBytes, String.toList_ofList]
  rw [piecesOf, List.length_cons, piecesWithin, h]
  dsimp only
  rw [piecesWithin_eq (by simp; omega), List.flatMap_cons]

theorem ofBytes_cons_of_stray {byte : Nat} {rest : List Nat}
    (h : frontChar? (byte :: rest) = none) :
    (ofBytes (byte :: rest)).toList = strayByte byte :: (ofBytes rest).toList := by
  simp only [ofBytes, String.toList_ofList]
  rw [piecesOf, List.length_cons, piecesWithin, h]
  rfl

/-- The bytes of a text are those it was made up from. -/
theorem flatMap_bytesOf_ofBytes {bytes : List Nat} (h : ∀ byte ∈ bytes, byte < 256) :
    (ofBytes bytes).toList.flatMap bytesOf = bytes := by
  induction hsize : bytes.length using Nat.strongRecOn generalizing bytes with
  | ind size ih =>
  cases bytes with
  | nil => rfl
  | cons byte rest =>
    rw [List.length_cons] at hsize
    obtain ⟨hbyte, hrest⟩ := List.forall_mem_cons.mp h
    cases hfront : frontChar? (byte :: rest) with
    | none =>
      have hlarge : 128 ≤ byte := by
        by_contra hsmall
        simp [frontChar?, Nat.lt_of_not_le hsmall] at hfront
      rw [ofBytes_cons_of_stray hfront, List.flatMap_cons, ih rest.length (by omega) hrest rfl,
        bytesOf, strayByte?_strayByte hlarge hbyte]
      rfl
    | some front =>
      obtain ⟨c, length⟩ := front
      have hpos := List.length_pos_of_ne_nil (utf8Bytes_ne_nil c)
      obtain ⟨hlength, hbytes⟩ := eq_of_frontChar? hfront
      have hdropped : ∀ x ∈ (byte :: rest).drop length, x < 256 := fun x hx =>
        h x (List.mem_of_mem_drop hx)
      rw [ofBytes_cons_of_front hfront, List.flatMap_append, flatMap_bytesOf_kept,
        ih _ (by simp; omega) hdropped rfl]
      exact hbytes.symm

/-- A text has a basic character as often as its bytes have the byte. -/
theorem count_flatMap_bytesOf {a : Char} (ha : a.toNat < 128) (cs : List Char) :
    (cs.flatMap bytesOf).count a.toNat = cs.count a := by
  induction cs with
  | nil => rfl
  | cons c rest ih =>
    rw [List.flatMap_cons, List.count_append, count_bytesOf ha, ih, ← List.count_append]
    rfl

theorem count_ofBytes {a : Char} (ha : a.toNat < 128) {bytes : List Nat}
    (h : ∀ byte ∈ bytes, byte < 256) : (ofBytes bytes).toList.count a = bytes.count a.toNat := by
  rw [← count_flatMap_bytesOf ha, flatMap_bytesOf_ofBytes h]

/-! Reading the escapes of a text. -/

/-- A hexadecimal digit and what it stands for. -/
theorem hexDigitValue?_cases {c : Char} {n : Nat} (h : hexDigitValue? c = some n) :
    (48 ≤ c.toNat ∧ c.toNat ≤ 57 ∧ n = c.toNat - 48) ∨
      (97 ≤ c.toNat ∧ c.toNat ≤ 102 ∧ n = c.toNat - 97 + 10) ∨
      (65 ≤ c.toNat ∧ c.toNat ≤ 70 ∧ n = c.toNat - 65 + 10) := by
  have hle (a b : Char) : a ≤ b ↔ a.toNat ≤ b.toNat := Iff.rfl
  have hnumbers : '0'.toNat = 48 ∧ '9'.toNat = 57 ∧ 'a'.toNat = 97 ∧ 'f'.toNat = 102 ∧
      'A'.toNat = 65 ∧ 'F'.toNat = 70 := by decide
  unfold hexDigitValue? at h
  simp only [Bool.and_eq_true, decide_eq_true_eq, hle, hnumbers] at h
  split_ifs at h with hdigit hsmall hlarge
  · exact .inl ⟨hdigit.1, hdigit.2, (Option.some.inj h).symm⟩
  · exact .inr (.inl ⟨hsmall.1, hsmall.2, (Option.some.inj h).symm⟩)
  · exact .inr (.inr ⟨hlarge.1, hlarge.2, (Option.some.inj h).symm⟩)

theorem percentBytes?_lt {cs : List Char} {bytes : List Nat} (h : percentBytes? cs = some bytes) :
    ∀ byte ∈ bytes, byte < 256 := by
  fun_induction percentBytes? cs generalizing bytes with
  | case1 => cases h; exact List.forall_mem_nil _
  | case2 a b rest ih =>
    obtain ⟨high, hhigh, h⟩ := Option.bind_eq_some_iff.mp h
    obtain ⟨low, hlow, h⟩ := Option.bind_eq_some_iff.mp h
    obtain ⟨more, hmore, h⟩ := Option.bind_eq_some_iff.mp h
    cases h
    have hhigh := hexDigitValue?_cases hhigh
    have hlow := hexDigitValue?_cases hlow
    exact List.forall_mem_cons.mpr ⟨by omega, ih hmore⟩
  | case3 => cases h
  | case4 c rest _ _ ih =>
    obtain ⟨more, hmore, rfl⟩ := Option.map_eq_some_iff.mp h
    exact List.forall_mem_append.mpr ⟨fun _ => byte_lt, ih hmore⟩

/-- Each percent sign that an escape spells takes a percent sign, and a two with it. So if as many
are left as there were, no other byte was spelled. -/
theorem count_percentBytes? {cs : List Char} {bytes : List Nat}
    (h : percentBytes? cs = some bytes) : bytes.count 37 ≤ cs.count '%' ∧
      (bytes.count 37 = cs.count '%' → bytes.count 50 + cs.count '%' = cs.count '2') := by
  fun_induction percentBytes? cs generalizing bytes with
  | case1 => cases h; decide
  | case2 a b rest ih =>
    obtain ⟨high, hhigh, h⟩ := Option.bind_eq_some_iff.mp h
    obtain ⟨low, hlow, h⟩ := Option.bind_eq_some_iff.mp h
    obtain ⟨more, hmore, h⟩ := Option.bind_eq_some_iff.mp h
    cases h
    obtain ⟨hle, heq⟩ := ih hmore
    have hhigh := hexDigitValue?_cases hhigh
    have hlow := hexDigitValue?_cases hlow
    have hpercent : '%'.toNat = 37 := by decide
    have htwo : '2'.toNat = 50 := by decide
    simp only [List.count_cons, beq_iff_eq, ← Char.toNat_inj, hpercent, htwo]
    constructor
    · split_ifs <;> omega
    · intro hall
      split_ifs at hall ⊢ <;> omega
  | case3 => cases h
  | case4 c rest _ hsign ih =>
    obtain ⟨more, hmore, rfl⟩ := Option.map_eq_some_iff.mp h
    obtain ⟨hle, heq⟩ := ih hmore
    have hnone : [c].count '%' = 0 :=
      List.count_eq_zero.mpr fun hmem => hsign (List.mem_singleton.mp hmem).symm
    have hpercent : (bytesOf c).count 37 = [c].count '%' := @count_bytesOf '%' (by decide) c
    have htwo : (bytesOf c).count 50 = [c].count '2' := @count_bytesOf '2' (by decide) c
    rw [← List.singleton_append, List.count_append, List.count_append, List.count_append,
      List.count_append, hpercent, htwo]
    omega

/-- Reading the escapes of a text leaves fewer percent signs or fewer twos than the text has. -/
theorem count_percentDecode? {text decoded : String} (h : percentDecode? text = some decoded)
    (hpercent : decoded.toList.count '%' = text.toList.count '%')
    (htwo : decoded.toList.count '2' = text.toList.count '2') : '%' ∉ text.toList := by
  intro hmem
  rw [percentDecode?, if_pos (List.contains_iff_mem.mpr hmem)] at h
  obtain ⟨bytes, hbytes, rfl⟩ := Option.map_eq_some_iff.mp h
  have hlt := percentBytes?_lt hbytes
  rw [count_ofBytes (by decide) hlt] at hpercent htwo
  have hnone := (count_percentBytes? hbytes).2 hpercent
  have hpos := List.count_pos_iff.mpr hmem
  change bytes.count 50 = _ at htwo
  omega

end ApiTypes.Text
