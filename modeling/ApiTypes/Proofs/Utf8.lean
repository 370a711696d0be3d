import ApiTypes.Text.Bytes
import Mathlib.Data.List.Basic
import Mathlib.Tactic.SplitIfs

/-!
Characters and bytes. The bytes of a character read back as this character, so a text that is made
up of characters has nothing to repair.
-/

namespace ApiTypes.Text

/-- A text whose bytes are those of some characters. -/
def IsUtf8 (s : String) : Prop := ∃ plain, s = ofPlain plain

/-! A character takes up to four bytes, and the first byte tells how many. -/

section Front

variable {a b c d n : Nat} (rest : List Nat)

theorem frontChar?_two (ha : a / 32 = 6) (hb : b / 64 = 2) (hn : a % 32 * 64 + b % 64 = n)
    (h : 128 ≤ n) : frontChar? (a :: b :: rest) = some (Char.ofNat n, 2) := by
  have hascii : ¬ a < 128 := by omega
  simp [frontChar?, continuation?, hascii, ha, hb, hn, h]

theorem frontChar?_three (ha : a / 16 = 14) (hb : b / 64 = 2) (hc : c / 64 = 2)
    (hn : (a % 16 * 64 + b % 64) * 64 + c % 64 = n) (h : 2048 ≤ n) (hvalid : n.isValidChar) :
    frontChar? (a :: b :: c :: rest) = some (Char.ofNat n, 3) := by
  have hascii : ¬ a < 128 := by omega
  have hlong : ¬ a / 32 = 6 := by omega
  simp [frontChar?, continuation?, hascii, hlong, ha, hb, hc, hn, h, hvalid]

theorem frontChar?_four (ha : a / 8 = 30) (hb : b / 64 = 2) (hc : c / 64 = 2) (hd : d / 64 = 2)
    (hn : ((a % 8 * 64 + b % 64) * 64 + c % 64) * 64 + d % 64 = n) (h : 65536 ≤ n)
    (hvalid : n.isValidChar) :
    frontChar? (a :: b :: c :: d :: rest) = some (Char.ofNat n, 4) := by
  have hascii : ¬ a < 128 := by omega
  have hlong : ¬ a / 32 = 6 := by omega
  have hlonger : ¬ a / 16 = 14 := by omega
  simp [frontChar?, continuation?, hascii, hlong, hlonger, ha, hb, hc, hd, hn, h, hvalid]

end Front

theorem charNumber_lt (c : Char) : c.toNat < 0x110000 := by
  have hvalid := c.valid
  simp only [UInt32.isValidChar, Nat.isValidChar] at hvalid
  change c.val.toNat < _
  omega

/-- The bytes of a character, by the length they need. -/
theorem utf8Bytes_eq (c : Char) : utf8Bytes c =
    if c.toNat < 128 then [c.toNat]
    else if c.toNat < 2048 then [192 + c.toNat / 64, 128 + c.toNat % 64]
    else if c.toNat < 65536 then
      [224 + c.toNat / 4096, 128 + c.toNat / 64 % 64, 128 + c.toNat % 64]
    else
      [240 + c.toNat / 262144, 128 + c.toNat / 4096 % 64, 128 + c.toNat / 64 % 64,
        128 + c.toNat % 64] := by
  have hlt := charNumber_lt c
  unfold utf8Bytes String.utf8EncodeChar
  simp only [show c.val.toNat = c.toNat from rfl]
  split_ifs <;> simp <;> omega

/-- The bytes of a character read as this character. -/
theorem frontChar?_utf8Bytes (c : Char) (rest : List Nat) :
    frontChar? (utf8Bytes c ++ rest) = some (c, (utf8Bytes c).length) := by
  have hlt := charNumber_lt c
  have hvalid : c.toNat.isValidChar := c.valid
  have hc : Char.ofNat c.toNat = c := Char.ofNat_toNat c
  rw [utf8Bytes_eq]
  split_ifs with hone htwo hthree
  · simp [frontChar?, hone, hc]
  · simp only [List.cons_append]
    rw [frontChar?_two (n := c.toNat) _ (by omega) (by omega) (by omega) (by omega), hc]
    rfl
  · simp only [List.cons_append]
    rw [frontChar?_three (n := c.toNat) _ (by omega) (by omega) (by omega) (by omega) (by omega)
      hvalid, hc]
    rfl
  · simp only [List.cons_append]
    rw [frontChar?_four (n := c.toNat) _ (by omega) (by omega) (by omega) (by omega) (by omega)
      (by omega) hvalid, hc]
    rfl

theorem utf8Bytes_ne_nil (c : Char) : utf8Bytes c ≠ [] := by
  rw [utf8Bytes_eq]
  split_ifs <;> nofun

/-- The bytes of some characters read as these characters. -/
theorem piecesWithin_utf8Bytes (cs : List Char) {steps : Nat}
    (h : (cs.flatMap utf8Bytes).length ≤ steps) :
    piecesWithin steps (cs.flatMap utf8Bytes) = cs.map .char := by
  induction cs generalizing steps with
  | nil => cases steps <;> rfl
  | cons c rest ih =>
    obtain ⟨byte, more, hbytes⟩ := List.exists_cons_of_ne_nil (utf8Bytes_ne_nil c)
    have hfront := frontChar?_utf8Bytes c (rest.flatMap utf8Bytes)
    rw [List.flatMap_cons] at h ⊢
    rw [hbytes] at hfront h ⊢
    rw [List.length_append, List.length_cons] at h
    obtain ⟨steps, rfl⟩ : ∃ k, steps = k + 1 := ⟨steps - 1, by omega⟩
    rw [List.cons_append] at hfront ⊢
    rw [piecesWithin, hfront]
    simp only [List.map_cons]
    rw [← List.cons_append, List.drop_left, ih (by omega)]

/-- The area for stray bytes lies far beyond ASCII. -/
theorem strayByte?_of_ascii {c : Char} (h : c.toNat < 128) : strayByte? c = none := by
  rw [strayByte?, if_neg]
  intro hin
  have hleast := of_decide_eq_true (Bool.and_eq_true_iff.mp hin).1
  unfold strayArea at hleast
  omega

theorem strayByte?_strayByte {byte : Nat} (hleast : 128 ≤ byte) (hgreatest : byte < 256) :
    strayByte? (strayByte byte) = some byte := by
  have hvalid : (strayArea + byte).isValidChar := by
    unfold strayArea Nat.isValidChar
    omega
  have hn : (strayByte byte).toNat = strayArea + byte := by
    rw [strayByte, Char.ofNat, dif_pos hvalid]
    rfl
  simp [strayByte?, hn, hleast, hgreatest]

/-- A character of the area is one of those that take four bytes. -/
theorem le_of_stray {c : Char} (hstray : (strayByte? c).isSome = true) : 0x10000 ≤ c.toNat := by
  unfold strayByte? strayArea at hstray
  split at hstray
  · rename_i hin
    simp only [Bool.and_eq_true, decide_eq_true_eq] at hin
    omega
  · cases hstray

theorem utf8Bytes_range_of_stray {c : Char} (hstray : (strayByte? c).isSome = true) {byte : Nat}
    (h : byte ∈ utf8Bytes c) : 128 ≤ byte ∧ byte < 256 := by
  have hlt := charNumber_lt c
  have hc := le_of_stray hstray
  rw [utf8Bytes_eq, if_neg (by omega), if_neg (by omega), if_neg (by omega)] at h
  simp only [List.mem_cons, List.not_mem_nil, or_false] at h
  omega

/-- The bytes of what keeps a character are those of the character. -/
theorem flatMap_bytesOf_kept (c : Char) : (Piece.char c).kept.flatMap bytesOf = utf8Bytes c := by
  by_cases hstray : (strayByte? c).isSome = true
  · have hbyte (byte) (h : byte ∈ utf8Bytes c) : bytesOf (strayByte byte) = [byte] := by
      have hrange := utf8Bytes_range_of_stray hstray h
      rw [bytesOf, strayByte?_strayByte hrange.1 hrange.2]
    rw [Piece.kept, if_pos hstray, List.flatMap_map, List.flatMap_congr hbyte,
      List.flatMap_singleton']
  · rw [Piece.kept, if_neg hstray, List.flatMap_singleton, bytesOf,
      Option.not_isSome_iff_eq_none.mp hstray]

theorem hasStray_ofPlain {plain : String} (h : hasStray plain = true) :
    hasStray (ofPlain plain) = true := by
  obtain ⟨c, hc, hstray⟩ := List.any_eq_true.mp h
  obtain ⟨byte, hbyte⟩ := List.exists_mem_of_ne_nil _ (utf8Bytes_ne_nil c)
  have hrange := utf8Bytes_range_of_stray hstray hbyte
  rw [ofPlain, if_pos h, hasStray, String.toList_ofList, List.any_flatMap, List.any_eq_true]
  refine ⟨c, hc, List.any_eq_true.mpr ⟨strayByte byte, ?_, ?_⟩⟩
  · rw [Piece.kept, if_pos hstray]
    exact List.mem_map_of_mem hbyte
  · rw [strayByte?_strayByte hrange.1 hrange.2]
    rfl

theorem toList_ofPlain (plain : String) :
    (ofPlain plain).toList = plain.toList.flatMap fun c => (Piece.char c).kept := by
  rw [ofPlain]
  split
  · rw [String.toList_ofList]
  · rename_i hnone
    have hkept : ∀ c ∈ plain.toList, (Piece.char c).kept = [c] := by
      intro c hc
      rw [Piece.kept, if_neg]
      exact fun hstray => hnone (List.any_eq_true.mpr ⟨c, hc, hstray⟩)
    rw [List.flatMap_congr hkept, List.flatMap_singleton']

/-- A text that keeps characters shows as these characters. -/
theorem toPlain_ofPlain (plain : String) : toPlain (ofPlain plain) = plain := by
  by_cases h : hasStray plain = true
  · have hpieces : pieces (ofPlain plain) = plain.toList.map .char := by
      rw [pieces, if_pos (hasStray_ofPlain h), ofPlain, if_pos h, String.toList_ofList,
        List.flatMap_assoc, List.flatMap_congr fun c _ => flatMap_bytesOf_kept c]
      exact piecesWithin_utf8Bytes _ (Nat.le_refl _)
    rw [toPlain, if_pos (hasStray_ofPlain h), hpieces, List.map_map]
    exact (congrArg _ (List.map_id _)).trans String.ofList_toList
  · have hplain : ofPlain plain = plain := if_neg h
    rw [hplain, toPlain, if_neg h]

/-- Texts that are made up of the same characters are the same. -/
theorem toPlain_inj {s t : String} (hs : IsUtf8 s) (ht : IsUtf8 t) (h : toPlain s = toPlain t) :
    s = t := by
  obtain ⟨plain, rfl⟩ := hs
  obtain ⟨other, rfl⟩ := ht
  rw [toPlain_ofPlain, toPlain_ofPlain] at h
  rw [h]

/-- Repairing leaves alone exactly the texts that are made up of characters. -/
theorem repaired_eq_self_iff {s : String} : repaired s = s ↔ IsUtf8 s := by
  constructor
  · intro h
    by_cases hstray : hasStray s = true
    · rw [repaired, if_pos hstray] at h
      exact ⟨toPlain s, h.symm⟩
    · exact ⟨s, (if_neg hstray).symm⟩
  · rintro ⟨plain, rfl⟩
    rw [repaired, toPlain_ofPlain, ite_self]

end ApiTypes.Text
