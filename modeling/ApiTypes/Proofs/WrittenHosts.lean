import ApiTypes.Proofs.PercentEncoding
import ApiTypes.Proofs.Spelling

/-!
Hosts that are read from an address and written again. Only bytes beyond the basic characters and
percent signs can be escaped in the name of a host, so all that decides whether a text names a host
stays where it is when the name is written: brackets, colons, the digits after the last of them, and
the groups of a numerical address.
-/

namespace ApiTypes.Location

open Text

/-! The last place of a character. -/

section Last

variable {c : Char} {before after : List Char}

theorem exists_last {cs : List Char} (h : c ∈ cs) :
    ∃ before after, cs = before ++ c :: after ∧ c ∉ after := by
  obtain ⟨after, before, heq, hafter⟩ := List.eq_append_cons_of_mem (List.mem_reverse.mpr h)
  refine ⟨before.reverse, after.reverse, ?_, by simpa using hafter⟩
  rw [← List.reverse_reverse cs, heq]
  simp

theorem takeWhile_last (h : c ∉ after) :
    ((before ++ c :: after).reverse.takeWhile (· ≠ c)).reverse = after := by
  have hall : ∀ d ∈ after.reverse, (decide (d ≠ c)) = true := fun d hd =>
    decide_eq_true fun heq => h (heq ▸ List.mem_reverse.mp hd)
  rw [List.reverse_append, List.reverse_cons, List.append_assoc, List.takeWhile_append_of_pos hall]
  simp

theorem dropWhile_last (h : c ∉ after) :
    (((before ++ c :: after).reverse.dropWhile (· ≠ c)).drop 1).reverse = before := by
  have hall : ∀ d ∈ after.reverse, (decide (d ≠ c)) = true := fun d hd =>
    decide_eq_true fun heq => h (heq ▸ List.mem_reverse.mp hd)
  rw [List.reverse_append, List.reverse_cons, List.append_assoc, List.dropWhile_append_of_pos hall]
  simp

end Last

/-! The bytes of a host. -/

/-- The bytes that are read from the name of a host, of which those of an escape are beyond the
basic characters or a percent sign. -/
inductive ReadsHost : List Char → List Nat → Prop where
  | nil : ReadsHost [] []
  | escape {a b : Char} {high low : Nat} {rest : List Char} {bytes : List Nat} :
    hexDigitValue? a = some high → hexDigitValue? b = some low →
    128 ≤ high * 16 + low ∨ high * 16 + low = 37 → ReadsHost rest bytes →
    ReadsHost ('%' :: a :: b :: rest) ((high * 16 + low) :: bytes)
  | char {c : Char} {rest : List Char} {bytes : List Nat} :
    c ≠ '%' → 128 ≤ c.toNat ∨ isHostChar c = true → ReadsHost rest bytes →
    ReadsHost (c :: rest) (bytesOf c ++ bytes)

theorem exists_readsHost {cs : List Char} (h : isHost cs = true) : ∃ bytes, ReadsHost cs bytes := by
  fun_induction isHost cs with
  | case1 => exact ⟨[], .nil⟩
  | case2 a b rest high low hb ha ih =>
    simp only [Bool.and_eq_true, Bool.or_eq_true, decide_eq_true_eq] at h
    obtain ⟨bytes, hrest⟩ := ih h.2
    exact ⟨_, .escape ha hb (by omega) hrest⟩
  | case3 => cases h
  | case4 c rest hshort ih =>
    rw [Bool.and_eq_true, Bool.or_eq_true, decide_eq_true_eq] at h
    have hc : c ≠ '%' := by
      rintro rfl
      exact absurd h.1 (by decide)
    obtain ⟨bytes, hrest⟩ := ih h.2
    exact ⟨_, .char hc h.1 hrest⟩

namespace ReadsHost

variable {cs : List Char} {bytes : List Nat}

theorem percentBytes?_eq (h : ReadsHost cs bytes) : percentBytes? cs = some bytes := by
  induction h with
  | nil => rfl
  | escape ha hb _ _ ih =>
    rw [percentBytes?, ha, hb, ih]
    rfl
  | char hc _ _ ih =>
    rw [percentBytes?_cons hc, ih]
    rfl

/-- The escapes spell no basic characters but percent signs. -/
theorem byte_cases (h : ReadsHost cs bytes) {byte : Nat} (hbyte : byte ∈ bytes) : byte < 256 ∧
    (128 ≤ byte ∨ byte = 37 ∨
      ∃ c ∈ cs, c.toNat = byte ∧ c.toNat < 128 ∧ isHostChar c = true) := by
  induction h with
  | nil => cases hbyte
  | @escape a b high low rest bytes ha hb hvalue hrest ih =>
    rcases List.mem_cons.mp hbyte with rfl | hmem
    · have ha := hexDigitValue?_cases ha
      have hb := hexDigitValue?_cases hb
      exact ⟨by omega, hvalue.imp_right .inl⟩
    · obtain ⟨hlt, hcases⟩ := ih hmem
      refine ⟨hlt, hcases.imp_right (.imp_right fun ⟨c, hc, hrest⟩ => ⟨c, ?_, hrest⟩)⟩
      simp [hc]
  | @char c rest bytes hc hvalue hrest ih =>
    rcases List.mem_append.mp hbyte with hfirst | hmem
    · refine ⟨byte_lt hfirst, ?_⟩
      by_cases hbasic : c.toNat < 128
      · rw [bytesOf_basic hbasic, List.mem_singleton] at hfirst
        exact .inr (.inr ⟨c, List.mem_cons_self, hfirst.symm, hbasic,
          hvalue.resolve_left (Nat.not_le.mpr hbasic)⟩)
      · exact .inl (bytesOf_range (Nat.le_of_not_lt hbasic) hfirst).1
    · obtain ⟨hlt, hcases⟩ := ih hmem
      exact ⟨hlt, hcases.imp_right (.imp_right fun ⟨c, hc, hrest⟩ =>
        ⟨c, List.mem_cons_of_mem _ hc, hrest⟩)⟩

theorem byte_mem (h : ReadsHost cs bytes) {c : Char} (hbasic : c.toNat < 128) (hc : c ≠ '%')
    (hmem : c.toNat ∈ bytes) : c ∈ cs := by
  rcases (h.byte_cases hmem).2 with hlarge | hpercent | ⟨d, hd, heq, -⟩
  · omega
  · exact absurd (Char.toNat_inj.mp (hpercent.trans (by decide : 37 = '%'.toNat))) hc
  · rwa [← Char.toNat_inj.mp heq]

/-- A basic character that is no part of an escape is where its byte is. -/
theorem split (h : ReadsHost cs bytes) {c : Char} (hbasic : c.toNat < 128) (hc : c ≠ '%')
    (hdigit : hexDigitValue? c = none) {before after : List Char}
    (heq : cs = before ++ c :: after) :
    ∃ first last, bytes = first ++ c.toNat :: last ∧ ReadsHost before first ∧
      ReadsHost after last := by
  induction h generalizing before with
  | nil => simp at heq
  | @escape a b high low rest bytes ha hb hvalue hrest ih =>
    rcases before with _ | ⟨d, _ | ⟨d', _ | ⟨d'', before⟩⟩⟩
    · exact absurd (List.cons.inj heq).1.symm hc
    · obtain ⟨rfl, rfl, -⟩ : '%' = d ∧ a = c ∧ _ := by simpa using heq
      cases hdigit.symm.trans ha
    · obtain ⟨rfl, rfl, rfl, -⟩ : '%' = d ∧ a = d' ∧ b = c ∧ _ := by simpa using heq
      cases hdigit.symm.trans hb
    · obtain ⟨rfl, rfl, rfl, hcut⟩ : '%' = d ∧ a = d' ∧ b = d'' ∧ rest = before ++ c :: after := by
        simpa using heq
      obtain ⟨first, last, rfl, hfirst, hlast⟩ := ih hcut
      exact ⟨_, last, rfl, .escape ha hb hvalue hfirst, hlast⟩
  | @char d rest bytes hd hvalue hrest ih =>
    rcases before with _ | ⟨d', before⟩
    · obtain ⟨rfl, rfl⟩ := List.cons.inj heq
      rw [bytesOf_basic hbasic]
      exact ⟨[], bytes, rfl, .nil, hrest⟩
    · obtain ⟨rfl, hcut⟩ := List.cons.inj heq
      obtain ⟨first, last, rfl, hfirst, hlast⟩ := ih hcut
      exact ⟨_, last, (List.append_assoc _ _ _).symm, .char hd hvalue hfirst, hlast⟩

theorem isHost_written (h : ReadsHost cs bytes) : isHost (encodeBytes isHostChar bytes) = true := by
  have hall : ∀ byte ∈ bytes, byte < 256 ∧
      (128 ≤ byte ∨ byte = 37 ∨ byte < 128 ∧ isHostChar (Char.ofNat byte) = true) := by
    intro byte hbyte
    refine (h.byte_cases hbyte).imp_right (.imp_right (.imp_right ?_))
    rintro ⟨c, -, rfl, hbasic, hplain⟩
    exact ⟨hbasic, by rwa [Char.ofNat_toNat]⟩
  clear h
  induction bytes with
  | nil => rfl
  | cons byte rest ih =>
    obtain ⟨⟨hlt, hbyte⟩, hrest⟩ := List.forall_mem_cons.mp hall
    rw [encodeBytes, List.flatMap_cons, ← encodeBytes]
    split
    · rename_i hplain
      rw [Bool.and_eq_true] at hplain
      rw [List.singleton_append, isHost]
      · rw [hplain.2, ih hrest, Bool.or_true, Bool.and_true]
      · intro a b more hpercent
        rw [hpercent] at hplain
        exact absurd hplain.2 (by decide)
    · rename_i hplain
      obtain ⟨high, low, heq, hhigh, hlow, -⟩ := percentEscape_eq hlt
      rw [heq, List.cons_append, List.cons_append, List.cons_append, List.nil_append, isHost, hhigh,
        hlow]
      have hvalue : 128 ≤ byte ∨ byte = 37 :=
        hbyte.imp_right fun h => h.resolve_right fun hbasic =>
          hplain (by rw [hbasic.2, decide_eq_true hbasic.1]; rfl)
      simp only [ih hrest, Bool.and_true, Bool.or_eq_true, Bool.and_eq_true, decide_eq_true_eq]
      omega

theorem not_mem_written (h : ReadsHost cs bytes) {c : Char} (hbasic : c.toNat < 128)
    (hescape : c ∉ escapeChars) (hc : c ∉ cs) : c ∉ encodeBytes isHostChar bytes := by
  intro hmem
  rcases mem_encodeBytes (fun _ hbyte => (h.byte_cases hbyte).1) hmem with ⟨-, hbyte⟩ | hmem
  · exact hc (h.byte_mem hbasic (fun heq => hescape (by rw [heq]; decide)) hbyte)
  · exact hescape hmem

end ReadsHost

/-! Names and numerical addresses. -/

/-- What a name of a host ends with, from its last colon on. -/
def serviceOf (cs : List Char) : List Char :=
  if cs.contains ':' then ':' :: (cs.reverse.takeWhile (· ≠ ':')).reverse else []

theorem host?_of_name {cs : List Char} (hhost : isHost cs = true) (hbracket : '[' ∉ cs) :
    host? cs =
      if isServiceNumber (serviceOf cs) then percentDecode? (String.ofList cs) else none := by
  unfold host?
  rw [if_neg (by simp [hhost]), if_neg (by simpa using hbracket)]
  rfl

theorem host?_of_brackets {inner service : List Char}
    (hhost : isHost ('[' :: (inner ++ ']' :: service)) = true) (hservice : ']' ∉ service) :
    host? ('[' :: (inner ++ ']' :: service)) =
      (percentDecode? (String.ofList inner)).bind fun name =>
        if isServiceNumber service && !inner.contains '[' && isNumericalHost name.toList then
          some ("[" ++ name ++ "]" ++ String.ofList service)
        else none := by
  unfold host?
  rw [if_neg (by simp [hhost]), if_pos (by simp)]
  split
  · rename_i rest heq
    obtain rfl := (List.cons.inj heq).2
    rw [if_neg (by simp)]
    dsimp only
    rw [takeWhile_last hservice, dropWhile_last hservice]
  · rename_i hother
    exact absurd rfl (hother _)

theorem host?_shape {cs : List Char} {host : String} (h : host? cs = some host) :
    isHost cs = true ∧ ('[' ∉ cs ∨
      ∃ inner service, cs = '[' :: (inner ++ ']' :: service) ∧ ']' ∉ service) := by
  unfold host? at h
  split at h
  · cases h
  · rename_i hhost
    refine ⟨by simpa using hhost, ?_⟩
    split at h
    · split at h
      · split at h
        · cases h
        · rename_i hbracket
          obtain ⟨inner, service, rfl, hservice⟩ := exists_last (c := ']') (by simpa using hbracket)
          exact .inr ⟨inner, service, rfl, hservice⟩
      · cases h
    · rename_i hbracket
      exact .inl (by simpa using hbracket)

theorem isHostChar_of_isServiceNumber {cs : List Char} (h : isServiceNumber cs = true) :
    ∀ c ∈ cs, isHostChar c = true := by
  cases cs with
  | nil => exact List.forall_mem_nil _
  | cons c digits =>
    rw [isServiceNumber, Bool.and_eq_true, decide_eq_true_eq, List.all_eq_true] at h
    refine List.forall_mem_cons.mpr ⟨h.1 ▸ by decide, fun d hd => ?_⟩
    rw [isHostChar, h.2 d hd, Bool.or_true, Bool.true_or]

theorem serviceOf_append {before after : List Char} (h : ':' ∉ after) :
    serviceOf (before ++ ':' :: after) = ':' :: after := by
  rw [serviceOf, if_pos (by simp), takeWhile_last h]

theorem serviceOf_of_not_mem {cs : List Char} (h : ':' ∉ cs) : serviceOf cs = [] :=
  if_neg (by simpa using h)

/-- The digits at the end of a name stay when it is written. -/
theorem ReadsHost.isServiceNumber_written {cs : List Char} {bytes : List Nat}
    (h : ReadsHost cs bytes) (hservice : isServiceNumber (serviceOf cs) = true) :
    isServiceNumber (serviceOf (encodeBytes isHostChar bytes)) = true := by
  by_cases hcolon : ':' ∈ cs
  · obtain ⟨before, after, rfl, hafter⟩ := exists_last hcolon
    obtain ⟨first, last, rfl, -, hlast⟩ := h.split (by decide) (by decide) (by decide) rfl
    rw [serviceOf_append hafter] at hservice
    have hplain := isHostChar_of_isServiceNumber hservice
    have hpercent : '%' ∉ after := fun hmem =>
      absurd (hplain '%' (List.mem_cons_of_mem _ hmem)) (by decide)
    have hdigits : encodeBytes isHostChar last = after := by
      have heq := hlast.percentBytes?_eq
      rw [percentBytes?_of_not_mem hpercent] at heq
      rw [← Option.some.inj heq]
      exact encodeBytes_of_plain isPlain_host (List.forall_mem_cons.mp hplain).2
    have hwritten : encodeBytes isHostChar (first ++ ':'.toNat :: last) =
        encodeBytes isHostChar first ++ ':' :: after := by
      rw [encodeBytes_append, ← hdigits]
      rfl
    rw [hwritten, serviceOf_append hafter]
    exact hservice
  · rw [serviceOf_of_not_mem (h.not_mem_written (by decide) (by decide) hcolon)]
    rfl

/-! Numerical addresses. -/

theorem all_basic_of_split {sep : Char} (hsep : sep.toNat < 128) {cs : List Char}
    (h : ∀ piece ∈ splitChars sep cs, ∀ c ∈ piece, c.toNat < 128) : ∀ c ∈ cs, c.toNat < 128 := by
  intro c hc
  by_cases heq : c = sep
  · rwa [heq]
  · have hmem : c ∈ (splitChars sep cs).flatten := by
      rw [flatten_splitChars]
      exact List.mem_filter.mpr ⟨hc, decide_eq_true heq⟩
    obtain ⟨piece, hpiece, hc⟩ := List.mem_flatten.mp hmem
    exact h piece hpiece c hc

theorem basic_of_isHexGroup {cs : List Char} (h : isHexGroup cs = true) :
    ∀ c ∈ cs, c.toNat < 128 := by
  intro c hc
  rw [isHexGroup, Bool.and_eq_true, List.all_eq_true] at h
  obtain ⟨n, hn⟩ := Option.isSome_iff_exists.mp (h.2 c hc)
  have hcases := hexDigitValue?_cases hn
  omega

theorem basic_of_isDottedQuad {cs : List Char} (h : isDottedQuad cs = true) :
    ∀ c ∈ cs, c.toNat < 128 := by
  refine all_basic_of_split (show '.'.toNat < 128 by decide) fun piece hpiece c hc => ?_
  simp only [isDottedQuad, Bool.and_eq_true, List.all_eq_true] at h
  have hdigit : isDigit c = true := (h.2 piece hpiece).1.1.2 c hc
  rw [isDigit, Bool.and_eq_true, decide_eq_true_eq, decide_eq_true_eq] at hdigit
  exact Nat.lt_of_le_of_lt (show c.toNat ≤ '9'.toNat from hdigit.2) (by decide)

theorem basic_of_groupCount? {isLast : Bool} {cs : List Char} {count : Nat}
    (h : groupCount? isLast cs = some count) : ∀ c ∈ cs, c.toNat < 128 := by
  rw [groupCount?] at h
  split at h
  · rename_i hempty
    rw [List.isEmpty_iff.mp hempty]
    exact List.forall_mem_nil _
  · refine all_basic_of_split (show ':'.toNat < 128 by decide) fun piece hpiece => ?_
    dsimp only at h
    split at h
    · rename_i hall
      exact basic_of_isHexGroup (List.all_eq_true.mp hall piece hpiece)
    · split at h
      · rename_i hlast
        simp only [Bool.and_eq_true] at hlast
        have hne := splitChars_ne_nil ':' cs
        rw [← List.dropLast_append_getLast hne, List.mem_append, List.mem_singleton] at hpiece
        rcases hpiece with hfirst | rfl
        · exact basic_of_isHexGroup (List.all_eq_true.mp hlast.1.2 piece hfirst)
        · rw [List.getLastD_eq_getLast?, List.getLast?_eq_some_getLast hne] at hlast
          exact basic_of_isDottedQuad hlast.2
      · cases h

theorem eq_append_of_cutDoubleColon {cs before after : List Char}
    (h : cutDoubleColon cs = some (before, after)) : cs = before ++ ':' :: ':' :: after := by
  fun_induction cutDoubleColon cs generalizing before with
  | case1 => cases h
  | case2 => cases h; rfl
  | case3 c rest _ ih =>
    obtain ⟨⟨b, a⟩, hcut, heq⟩ := Option.map_eq_some_iff.mp h
    cases heq
    rw [ih hcut, List.cons_append]

/-- Without a zone a numerical address has basic characters only. -/
theorem basic_of_isNumericalHost {cs : List Char} (h : isNumericalHost cs = true)
    (hzone : '%' ∉ cs) : ∀ c ∈ cs, c.toNat < 128 := by
  rw [isNumericalHost, cutChars_of_not_mem hzone] at h
  simp only [Bool.and_eq_true] at h
  obtain ⟨-, h⟩ := h
  cases hdouble : cutDoubleColon cs with
  | none =>
    rw [hdouble] at h
    exact basic_of_groupCount? (of_decide_eq_true h)
  | some parts =>
    obtain ⟨before, after⟩ := parts
    rw [hdouble] at h
    dsimp only at h
    split at h
    · rename_i m n hm hn
      rw [eq_append_of_cutDoubleColon hdouble]
      simp only [List.forall_mem_append, List.forall_mem_cons]
      exact ⟨basic_of_groupCount? hm, by decide, by decide, basic_of_groupCount? hn⟩
    · cases h

/-- Reading the escapes in a numerical address makes up a text from their bytes. -/
theorem ofBytes_of_isNumericalHost {inner : List Char} {bytes : List Nat}
    (hbytes : percentBytes? inner = some bytes) {name : String}
    (hname : percentDecode? (String.ofList inner) = some name)
    (hnumerical : isNumericalHost name.toList = true) : ofBytes bytes = name := by
  rw [percentDecode?, String.toList_ofList] at hname
  split at hname
  · rw [hbytes] at hname
    exact Option.some.inj hname
  · rename_i hpercent
    rw [List.contains_iff_mem] at hpercent
    rw [percentBytes?_of_not_mem hpercent] at hbytes
    cases hname
    rw [String.toList_ofList] at hnumerical
    rw [← Option.some.inj hbytes, ← String.toList_inj, String.toList_ofList,
      ofBytes_flatMap_bytesOf (basic_of_isNumericalHost hnumerical hpercent)]

/-- A host that was read can be read again when it is written. -/
theorem exists_host?_encode {cs : List Char} {host : String} (h : host? cs = some host) :
    ∃ host', host? (encode isHostChar host).toList = some host' := by
  obtain ⟨hhost, hname | ⟨inner, service, rfl, hservice⟩⟩ := host?_shape h
  · rw [host?_of_name hhost hname] at h
    split at h
    · rename_i hnumber
      obtain ⟨bytes, hbytes⟩ := exists_readsHost hhost
      have hread := bytes_of_percentDecode? h
      rw [String.toList_ofList, hbytes.percentBytes?_eq] at hread
      rw [toList_encode isPlain_host, ← Option.some.inj hread,
        host?_of_name hbytes.isHost_written (hbytes.not_mem_written (by decide) (by decide) hname),
        if_pos (hbytes.isServiceNumber_written hnumber)]
      exact ⟨_, percentDecode?_encodeBytes isPlain_host fun _ hbyte => (hbytes.byte_cases hbyte).1⟩
    · cases h
  · rw [host?_of_brackets hhost hservice] at h
    obtain ⟨name, hname, h⟩ := Option.bind_eq_some_iff.mp h
    split at h
    · rename_i hchecked
      cases h
      simp only [Bool.and_eq_true, Bool.not_eq_true', List.contains_eq_mem,
        decide_eq_false_iff_not] at hchecked
      obtain ⟨⟨hnumber, hinner⟩, hnumerical⟩ := hchecked
      obtain ⟨_, hbytes⟩ := exists_readsHost hhost
      obtain ⟨_, last, rfl, hfirst, hlast⟩ := hbytes.split (c := ']') (by decide) (by decide)
        (by decide) (List.cons_append ..).symm
      obtain ⟨_, nameBytes, rfl, hnil, hinside⟩ := hfirst.split (c := '[') (by decide) (by decide)
        (by decide) (List.nil_append _).symm
      cases hnil
      have hplain := isHostChar_of_isServiceNumber hnumber
      have hpercent : '%' ∉ service := fun hmem => absurd (hplain '%' hmem) (by decide)
      have hlastBytes := hlast.percentBytes?_eq
      rw [percentBytes?_of_not_mem hpercent, Option.some.injEq] at hlastBytes
      have hnameBytes := bytes_of_percentDecode? hname
      rw [String.toList_ofList, hinside.percentBytes?_eq, Option.some.injEq] at hnameBytes
      have hbracketed : encodeBytes isHostChar ('['.toNat :: nameBytes ++ ']'.toNat :: last) =
          '[' :: (encodeBytes isHostChar nameBytes ++ ']' :: service) := by
        rw [List.cons_append, encodeBytes_cons_plain isPlain_host (by decide), encodeBytes_append,
          encodeBytes_cons_plain isPlain_host (by decide), ← hlastBytes,
          encodeBytes_of_plain isPlain_host hplain]
      have hwritten : (encode isHostChar ("[" ++ name ++ "]" ++ String.ofList service)).toList =
          '[' :: (encodeBytes isHostChar nameBytes ++ ']' :: service) := by
        rw [toList_encode isPlain_host, ← hbracketed, hnameBytes, ← hlastBytes]
        simp [bytesOf_basic (show '['.toNat < 128 by decide),
          bytesOf_basic (show ']'.toNat < 128 by decide)]
      have hagain : isHost ('[' :: (encodeBytes isHostChar nameBytes ++ ']' :: service)) = true :=
        hbracketed ▸ hbytes.isHost_written
      rw [hwritten, host?_of_brackets hagain hservice, percentDecode?_encodeBytes isPlain_host
        fun _ hbyte => (hinside.byte_cases hbyte).1, Option.bind_some,
        ofBytes_of_isNumericalHost hinside.percentBytes?_eq hname hnumerical, if_pos]
      · exact ⟨_, rfl⟩
      · simp [hnumber, hnumerical,
          hinside.not_mem_written (by decide) (by decide) hinner]
    · cases h

end ApiTypes.Location
