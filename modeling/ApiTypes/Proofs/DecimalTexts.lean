import ApiTypes.Document.Decode
import ApiTypes.Proofs.Places

/-!
Numbers in decimal digits. A number is read back as it was written, and a text without sign and
without a zero in front is what its number is written as.
-/

namespace ApiTypes

open Yaml

theorem digitValue?_of_isDigit {c : Char} (h : c.isDigit) :
    digitValue? 10 c = some (c.toNat - '0'.toNat) := by
  have hbounds : '0' ≤ c ∧ c ≤ '9' := by
    simpa [Char.isDigit, Char.le_def] using h
  have hsmall : c.toNat - '0'.toNat < 10 := by
    have := hbounds.2
    rw [Char.le_def, UInt32.le_iff_toNat_le] at this
    change c.toNat ≤ 57 at this
    change c.toNat - 48 < 10
    omega
  simp only [digitValue?, hbounds, decide_true, Bool.and_self, if_true, Option.filter, hsmall]

/-- Digits are read from left to right. -/
theorem foldlM_digitValue? {cs : List Char} (h : ∀ c ∈ cs, c.isDigit) (n : Nat) :
    cs.foldlM (fun n c => (digitValue? 10 c).map (n * 10 + ·)) n =
      some (Nat.ofDigitChars 10 cs n) := by
  induction cs generalizing n with
  | nil => rfl
  | cons c rest ih =>
    obtain ⟨hc, hrest⟩ := List.forall_mem_cons.mp h
    rw [List.foldlM_cons, digitValue?_of_isDigit hc, Nat.ofDigitChars_cons, Nat.mul_comm 10 n]
    exact ih hrest _

theorem readSign_of_isDigit {cs : List Char} (h : ∀ c ∈ cs, c.isDigit) :
    DecimalText.readSign cs = (false, cs) := by
  unfold DecimalText.readSign
  split
  · exact absurd (h '-' List.mem_cons_self) (by decide)
  · exact absurd (h '+' List.mem_cons_self) (by decide)
  · rfl

/-- A position is read back as it was written. -/
theorem decimalInt?_toString {n : Nat} (h : n < twoTo 63) :
    decimalInt? (toString n).toList = some (n : Int) := by
  have hdigits : digitsIn? 10 (toString n).toList = some n := by
    have hne : (toString n).toList.isEmpty = false := by
      simp [Nat.toString_eq_repr]
    rw [digitsIn?, hne, if_neg (by decide),
      foldlM_digitValue? (fun _ => isDigit_of_mem_toString), Nat.toString_eq_repr, Nat.toList_repr,
      Nat.ofDigitChars_ten_toDigits]
  have hsign := readSign_of_isDigit fun c => isDigit_of_mem_toString (n := n) (c := c)
  have hfits : fitsInt64 n := by
    simp [fitsInt64]
    omega
  simp only [decimalInt?, signed?, hsign, hdigits]
  simp [Option.filter, hfits]

/-! What is read as a number. -/

theorem toNat_of_isDigit {c : Char} (h : c.isDigit) : 48 ≤ c.toNat ∧ c.toNat ≤ 57 := by
  simpa [Char.isDigit, UInt32.le_iff_toNat_le] using h

theorem digitChar_of_isDigit {c : Char} (h : c.isDigit) :
    Nat.digitChar (c.toNat - 48) = c := by
  have hbounds := toNat_of_isDigit h
  apply Char.toNat_inj.mp
  rw [Nat.toNat_digitChar_of_lt_ten (by omega)]
  omega

theorem isDigit_of_digitValue? {c : Char} {n : Nat} (h : digitValue? 10 c = some n) :
    c.isDigit := by
  simp only [digitValue?, Option.filter_eq_some_iff, decide_eq_true_eq] at h
  obtain ⟨hvalue, hsmall⟩ := h
  split at hvalue
  · rename_i hdigit
    simpa [Char.isDigit, Char.le_def] using hdigit
  · split at hvalue
    · cases hvalue
      omega
    · split at hvalue
      · cases hvalue
        omega
      · cases hvalue

theorem digitsIn?_eq_some {cs : List Char} {n : Nat} (h : digitsIn? 10 cs = some n) :
    (∀ c ∈ cs, c.isDigit) ∧ n = Nat.ofDigitChars 10 cs 0 := by
  have hall (cs : List Char) (start : Nat) (n : Nat)
      (h : cs.foldlM (fun n c => (digitValue? 10 c).map (n * 10 + ·)) start = some n) :
      ∀ c ∈ cs, c.isDigit := by
    induction cs generalizing start with
    | nil => simp
    | cons c rest ih =>
      rw [List.foldlM_cons, Option.bind_eq_bind, Option.bind_eq_some_iff] at h
      obtain ⟨next, hnext, hrest⟩ := h
      obtain ⟨value, hvalue, -⟩ := Option.map_eq_some_iff.mp hnext
      exact List.forall_mem_cons.mpr ⟨isDigit_of_digitValue? hvalue, ih next hrest⟩
  rw [digitsIn?] at h
  split at h
  · cases h
  · have hdigits := hall cs 0 n h
    rw [foldlM_digitValue? hdigits] at h
    exact ⟨hdigits, (Option.some.inj h).symm⟩

/-- A sign takes one character. -/
theorem readSign_cases (cs : List Char) :
    DecimalText.readSign cs = (false, cs) ∨ (DecimalText.readSign cs).2.length + 1 = cs.length := by
  unfold DecimalText.readSign
  split
  · exact .inr rfl
  · exact .inr rfl
  · exact .inl rfl

/-- A number is read from digits behind an optional sign. -/
theorem decimalInt?_eq_some {cs : List Char} {code : Int} (h : decimalInt? cs = some code) :
    (∀ c ∈ (DecimalText.readSign cs).2, c.isDigit) ∧
      code = if (DecimalText.readSign cs).1
        then -(Nat.ofDigitChars 10 (DecimalText.readSign cs).2 0 : Int)
        else Nat.ofDigitChars 10 (DecimalText.readSign cs).2 0 := by
  simp only [decimalInt?, signed?, Option.filter_eq_some_iff, Option.map_eq_some_iff,
    Option.bind_eq_bind, Option.bind_eq_some_iff, Option.pure_def, Option.some.injEq] at h
  obtain ⟨⟨_, ⟨n, hdigits, rfl⟩, rfl⟩, -⟩ := h
  obtain ⟨hall, rfl⟩ := digitsIn?_eq_some hdigits
  exact ⟨hall, rfl⟩

theorem ofDigitChars_cons (c : Char) (rest : List Char) (n : Nat) :
    Nat.ofDigitChars 10 (c :: rest) n = Nat.ofDigitChars 10 rest (10 * n + (c.toNat - 48)) :=
  Nat.ofDigitChars_cons

/-- Further digits behind a number that is not zero. -/
theorem toDigits_append {cs : List Char} (h : ∀ c ∈ cs, c.isDigit) {n : Nat} (hn : 0 < n) :
    Nat.toDigits 10 n ++ cs = Nat.toDigits 10 (Nat.ofDigitChars 10 cs n) := by
  induction cs generalizing n with
  | nil => simp
  | cons c rest ih =>
    obtain ⟨hc, hrest⟩ := List.forall_mem_cons.mp h
    have hbounds := toNat_of_isDigit hc
    have hsmall : c.toNat - 48 < 10 := by omega
    have hlonger := Nat.toDigits_append_toDigits (by decide : 1 < 10) hn hsmall
    rw [Nat.toDigits_of_lt_base hsmall, digitChar_of_isDigit hc] at hlonger
    calc
      Nat.toDigits 10 n ++ c :: rest = (Nat.toDigits 10 n ++ [c]) ++ rest := by simp
      _ = Nat.toDigits 10 (10 * n + (c.toNat - 48)) ++ rest := by rw [hlonger]
      _ = Nat.toDigits 10 (Nat.ofDigitChars 10 (c :: rest) n) := by
        rw [ih hrest (by omega), ofDigitChars_cons]

/-- Digits without a zero in front are those of their number. -/
theorem toString_ofDigitChars {c : Char} {rest : List Char} (h : ∀ d ∈ c :: rest, d.isDigit)
    (hzero : c ≠ '0') : (toString (Nat.ofDigitChars 10 (c :: rest) 0)).toList = c :: rest := by
  obtain ⟨hc, hrest⟩ := List.forall_mem_cons.mp h
  have hbounds := toNat_of_isDigit hc
  have hne : c.toNat ≠ 48 := fun heq => hzero (Char.toNat_inj.mp heq)
  have hsmall : c.toNat - 48 < 10 := by omega
  rw [Nat.toString_eq_repr, Nat.toList_repr, ofDigitChars_cons, Nat.mul_zero, Nat.zero_add,
    ← toDigits_append hrest (by omega), Nat.toDigits_of_lt_base hsmall, digitChar_of_isDigit hc]
  rfl

end ApiTypes
