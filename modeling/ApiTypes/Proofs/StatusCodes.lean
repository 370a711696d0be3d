import ApiTypes.Proofs.DecimalTexts
import ApiTypes.Proofs.Utf8
import ApiTypes.StatusCode
import ApiTypes.Text.CaseFold
import Mathlib.Data.List.Nodup
import Mathlib.Data.List.Perm.Basic

/-!
Which status codes of a response map come first. The codes of a class are the numbers of three
digits that start with the digit of the class, and they come in ascending order; the spellings of
the wildcards in either case come behind them. No code is listed twice, and the order in which the
codes stand in the map decides only between spellings of one wildcard.
-/

namespace ApiTypes

/-! Letters in either case. -/

namespace Text

/-- The number of the small letter that goes with a character of ASCII. -/
def lowerNumber (n : Nat) : Nat := if 65 ≤ n ∧ n ≤ 90 then n + 32 else n

/-- The number of the capital that goes with a character of ASCII. -/
def upperNumber (n : Nat) : Nat := if 97 ≤ n ∧ n ≤ 122 then n - 32 else n

theorem toNat_toLower (c : Char) : c.toLower.toNat = lowerNumber c.toNat := by
  have hcapital : (c.val ≥ 'A'.val ∧ c.val ≤ 'Z'.val) ↔ (65 ≤ c.toNat ∧ c.toNat ≤ 90) := by
    simp only [ge_iff_le, UInt32.le_iff_toNat_le]
    exact Iff.rfl
  unfold Char.toLower lowerNumber
  by_cases h : 65 ≤ c.toNat ∧ c.toNat ≤ 90
  · rw [dif_pos (hcapital.mpr h), if_pos h]
    change (c.val + ('a'.val - 'A'.val)).toNat = c.val.toNat + 32
    have hlast : c.val.toNat ≤ 90 := h.2
    rw [UInt32.toNat_add]
    change (c.val.toNat + 32) % 4294967296 = _
    omega
  · rw [dif_neg (mt hcapital.mp h), if_neg h]

/-- The characters of the wildcards, in either case. Ignoring case, none of them is equal to a
character beyond ASCII, as some other letters are. -/
def wildcardChars : List Char := "245XDEFAULTxdefault".toList

theorem orbit_eq {c : Char} (h : c ∈ wildcardChars) :
    orbit c = [c.toNat, lowerNumber c.toNat, upperNumber c.toNat] := by
  have hall : wildcardChars.all (fun c =>
      orbit c = [c.toNat, lowerNumber c.toNat, upperNumber c.toNat]) = true := by decide +kernel
  exact of_decide_eq_true (List.all_eq_true.mp hall c h)

theorem mem_orbit_iff {c d : Char} (h : c ∈ wildcardChars) :
    d.toNat ∈ orbit c ↔ c.toLower = d.toLower := by
  rw [orbit_eq h, ← Char.toNat_inj, toNat_toLower, toNat_toLower]
  simp only [List.mem_cons, List.not_mem_nil, or_false, lowerNumber, upperNumber]
  split_ifs <;> omega

theorem cases_mem_wildcardChars {c : Char} (h : c ∈ wildcardChars) :
    ∀ n ∈ [c.toNat, lowerNumber c.toNat, upperNumber c.toNat], Char.ofNat n ∈ wildcardChars := by
  have hall : wildcardChars.all (fun c =>
      ∀ n ∈ [c.toNat, lowerNumber c.toNat, upperNumber c.toNat], Char.ofNat n ∈ wildcardChars) =
        true := by decide +kernel
  exact of_decide_eq_true (List.all_eq_true.mp hall c h)

theorem toLower_mem_wildcardChars {c : Char} :
    c.toLower ∈ wildcardChars ↔ c ∈ wildcardChars := by
  have htwice : c.toLower.toLower = c.toLower := by
    rw [← Char.toNat_inj, toNat_toLower, toNat_toLower]
    unfold lowerNumber
    split_ifs <;> omega
  constructor
  · intro h
    have horbit := (mem_orbit_iff h).mpr htwice
    rw [orbit_eq h] at horbit
    have hcase := cases_mem_wildcardChars h _ horbit
    rwa [Char.ofNat_toNat] at hcase
  · intro h
    have hcase := cases_mem_wildcardChars h (lowerNumber c.toNat) (by simp)
    rwa [← toNat_toLower, Char.ofNat_toNat] at hcase

/-- Of texts with such characters, those are equal that have the same small letters. -/
theorem equalIgnoringCase_iff {s t : String} (h : ∀ c ∈ s.toList, c ∈ wildcardChars) :
    equalIgnoringCase s t = true ↔ s.toList.map Char.toLower = t.toList.map Char.toLower := by
  have hlists (cs ds : List Char) (h : ∀ c ∈ cs, c ∈ wildcardChars) :
      equalIgnoringCase (String.ofList cs) (String.ofList ds) = true ↔
        cs.map Char.toLower = ds.map Char.toLower := by
    induction cs generalizing ds with
    | nil => cases ds <;> simp [equalIgnoringCase, Nat.add_comm 1]
    | cons c rest ih =>
      obtain ⟨hc, hrest⟩ := List.forall_mem_cons.mp h
      cases ds with
      | nil => simp [equalIgnoringCase]
      | cons d more =>
        have hmore := ih more hrest
        have hfirst := mem_orbit_iff (d := d) hc
        simp only [equalIgnoringCase, String.length_ofList, String.toList_ofList,
          List.length_cons, List.zip_cons_cons, List.all_cons, List.map_cons, List.cons.injEq,
          List.contains_iff_mem, Bool.and_eq_true, decide_eq_true_eq] at hmore ⊢
        rw [← hmore, ← hfirst]
        grind
  have hwhole := hlists s.toList t.toList h
  rwa [String.ofList_toList, String.ofList_toList] at hwhole

end Text

/-! The codes of a class. -/

/-- The codes of a class in ascending order, as they are written. -/
def codesOfClass (statusClass : Nat) : List String :=
  (List.range' (100 * statusClass) 100).map toString

variable {statusClass : Nat} {key : String}

theorem mem_codesOfClass : key ∈ codesOfClass statusClass ↔
    ∃ n : Nat, n / 100 = statusClass ∧ key = toString n := by
  simp only [codesOfClass, List.mem_map, List.mem_range'_1]
  constructor
  · rintro ⟨n, hrange, rfl⟩
    exact ⟨n, by omega, rfl⟩
  · rintro ⟨n, hclass, rfl⟩
    exact ⟨n, by omega, rfl⟩

theorem nodup_codesOfClass (statusClass : Nat) : (codesOfClass statusClass).Nodup :=
  List.Nodup.map (fun _ _ => toString_injective) (List.nodup_range' ..)

/-- Digits take one byte each. -/
theorem byteCount_of_isDigit {cs : List Char} (h : ∀ c ∈ cs, c.isDigit) :
    Text.byteCount cs = cs.length := by
  induction cs with
  | nil => rfl
  | cons c rest ih =>
    obtain ⟨hc, hrest⟩ := List.forall_mem_cons.mp h
    have hbounds := toNat_of_isDigit hc
    have hstray : Text.strayByte? c = none := Text.strayByte?_of_ascii (by omega)
    have hsize : c.utf8Size = 1 := by
      rw [Char.utf8Size, if_pos]
      rw [UInt32.le_iff_toNat_le]
      change c.toNat ≤ 127
      omega
    simp [Text.byteCount, hstray, hsize, ih hrest, Nat.add_comm]

theorem length_le_byteCount (cs : List Char) : cs.length ≤ Text.byteCount cs := by
  induction cs with
  | nil => simp
  | cons c rest ih =>
    have hsize := c.utf8Size_pos
    rw [Text.byteCount, List.length_cons]
    split <;> omega

/-- Numbers of three digits. -/
theorem length_toString_eq_three_iff {n : Nat} :
    (toString n).toList.length = 3 ↔ 100 ≤ n ∧ n < 1000 := by
  have htwo := Nat.length_toDigits_le_iff (n := n) (b := 10) (k := 2) (by decide) (by decide)
  have hthree := Nat.length_toDigits_le_iff (n := n) (b := 10) (k := 3) (by decide) (by decide)
  rw [Nat.toString_eq_repr, Nat.toList_repr]
  omega

/-- Dividing by a hundred leaves the class, which no number without three digits has. -/
theorem tdiv_hundred_eq_iff {code : Int} (hpos : 0 < statusClass) :
    code.tdiv 100 = statusClass ↔ 100 ≤ code ∧ code / 100 = statusClass := by
  have hsign : Int.sign 100 = 1 := rfl
  rw [Int.tdiv_eq_ediv]
  split <;> omega

theorem ofDigitChars_lt_hundred {digits : List Char} (h : ∀ c ∈ digits, c.isDigit)
    (hlength : digits.length ≤ 2) : Nat.ofDigitChars 10 digits 0 < 100 := by
  match digits with
  | [] => simp
  | [a] =>
    have ha := toNat_of_isDigit (h a (by simp))
    simp only [ofDigitChars_cons, Nat.ofDigitChars_nil]
    omega
  | [a, b] =>
    have ha := toNat_of_isDigit (h a (by simp))
    have hb := toNat_of_isDigit (h b (by simp))
    simp only [ofDigitChars_cons, Nat.ofDigitChars_nil]
    omega
  | _ :: _ :: _ :: _ => simp at hlength

/-- A text of three characters at most that is read as a number of three digits is this number as it
is written: a sign or a zero in front would take one of the characters. -/
theorem eq_toString_of_decimalInt? {cs : List Char} {code : Int} (h : decimalInt? cs = some code)
    (hlength : cs.length ≤ 3) (hcode : 100 ≤ code) :
    ∃ n : Nat, code = n ∧ cs = (toString n).toList := by
  obtain ⟨hall, hvalue⟩ := decimalInt?_eq_some h
  have hlong : 2 < (DecimalText.readSign cs).2.length := by
    by_contra hshort
    have hlt := ofDigitChars_lt_hundred hall (by omega)
    split at hvalue <;> omega
  have hunsigned : DecimalText.readSign cs = (false, cs) :=
    (readSign_cases cs).resolve_right (by omega)
  rw [hunsigned] at hall hvalue hlong
  cases cs with
  | nil => simp at hlong
  | cons c rest =>
    have hzero : c ≠ '0' := by
      rintro rfl
      have hrest : rest.length ≤ 2 := Nat.le_of_succ_le_succ hlength
      have hlt := ofDigitChars_lt_hundred (fun d hd => hall d (List.mem_cons_of_mem _ hd)) hrest
      have hskip : Nat.ofDigitChars 10 ('0' :: rest) 0 = Nat.ofDigitChars 10 rest 0 :=
        ofDigitChars_cons '0' rest 0
      simp only [Bool.false_eq_true, if_false, hskip] at hvalue
      omega
    exact ⟨_, hvalue, (toString_ofDigitChars hall hzero).symm⟩

/-- A key is read as a code of a class exactly if it is this code as it is written: without a sign,
without a zero in front and with no digit more or less. -/
theorem statusCode?_eq_some_iff {code : Int} (hpos : 0 < statusClass) (hlt : statusClass < 10) :
    statusCode? statusClass key = some code ↔
      ∃ n : Nat, code = n ∧ n / 100 = statusClass ∧ key = toString n := by
  constructor
  · intro h
    unfold statusCode? at h
    split at h
    · rename_i n hread
      split at h
      · rename_i hcode
        obtain rfl := Option.some.inj h
        rw [Bool.and_eq_true, decide_eq_true_eq, decide_eq_true_eq, tdiv_hundred_eq_iff hpos]
          at hcode
        obtain ⟨hbytes, hlow, hclass⟩ := hcode
        have hlength := length_le_byteCount key.toList
        rw [Text.byteLength] at hbytes
        obtain ⟨m, rfl, hdigits⟩ := eq_toString_of_decimalInt? hread (by omega) hlow
        exact ⟨m, rfl, by omega, String.toList_inj.mp hdigits⟩
      · cases h
    · cases h
  · rintro ⟨n, rfl, hclass, rfl⟩
    have hread := decimalInt?_toString (n := n) (by
      have : (1000 : Nat) < twoTo 63 := by decide
      omega)
    have hbytes : Text.byteLength (toString n) = 3 := by
      rw [Text.byteLength, byteCount_of_isDigit fun _ => isDigit_of_mem_toString,
        length_toString_eq_three_iff]
      omega
    have hhundreds : (n : Int).tdiv 100 = statusClass := (tdiv_hundred_eq_iff hpos).mpr (by omega)
    rw [statusCode?, hread]
    simp only [hbytes, hhundreds, decide_true, Bool.and_self, if_true]

/-- The keys of a response map that are codes of a class, in ascending order. -/
def codesIn (responses : Responses) (statusClass : Nat) : List String :=
  (codesOfClass statusClass).filter (responses.keys.contains ·)

/-- The keys of a response map that spell a wildcard, in the order of the map. -/
def spellingsIn (responses : Responses) (wildcard : String) : List String :=
  responses.keys.filter (Text.equalIgnoringCase wildcard)

variable {responses : Responses} {wildcard : String}

/-- Sorting the numbers and writing them gives the codes in their order. -/
theorem map_mergeSort_codes (responses : Responses) (statusClass : Nat)
    (hpos : 0 < statusClass) (hlt : statusClass < 10) :
    ((responses.keys.filterMap (statusCode? statusClass)).mergeSort (· ≤ ·)).map toString =
      codesIn responses statusClass := by
  let codes : List Nat :=
    (List.range' (100 * statusClass) 100).filter fun n => responses.keys.contains (toString n)
  have hread (code : Int) : code ∈ responses.keys.filterMap (statusCode? statusClass) ↔
      code ∈ codes.map Int.ofNat := by
    simp only [List.mem_filterMap, statusCode?_eq_some_iff hpos hlt, codes, List.mem_map,
      List.mem_filter, List.mem_range'_1, List.contains_iff_mem]
    constructor
    · rintro ⟨_, hkey, n, rfl, hclass, rfl⟩
      exact ⟨n, ⟨by omega, hkey⟩, rfl⟩
    · rintro ⟨n, ⟨hrange, hkey⟩, rfl⟩
      exact ⟨_, hkey, n, rfl, by omega, rfl⟩
  have hfound : (responses.keys.filterMap (statusCode? statusClass)).Nodup := by
    refine responses.nodup_keys.filterMap fun key key' code hcode hcode' => ?_
    obtain ⟨n, rfl, -, rfl⟩ := (statusCode?_eq_some_iff hpos hlt).mp hcode
    obtain ⟨m, hm, -, rfl⟩ := (statusCode?_eq_some_iff hpos hlt).mp hcode'
    rw [Int.ofNat_inj.mp hm]
  have hrising : (codes.map Int.ofNat).Pairwise (· ≤ ·) := by
    rw [List.pairwise_map]
    refine ((List.pairwise_lt_range' ..).filter _).imp fun hlt => ?_
    exact Int.ofNat_le.mpr (Nat.le_of_lt hlt)
  have hcodes : (codes.map Int.ofNat).Nodup :=
    List.Nodup.map (fun _ _ => Int.ofNat_inj.mp) ((List.nodup_range' ..).filter _)
  have hsorted : (responses.keys.filterMap (statusCode? statusClass)).mergeSort (· ≤ ·) =
      codes.map Int.ofNat := by
    refine List.Perm.eq_of_pairwise (fun _ _ _ _ => Int.le_antisymm) ?_ hrising
      ((List.mergeSort_perm _ _).trans ((List.perm_ext_iff_of_nodup hfound hcodes).mpr hread))
    have hascending : ((responses.keys.filterMap (statusCode? statusClass)).mergeSort
        (· ≤ ·)).Pairwise fun a b => decide (a ≤ b) = true :=
      List.pairwise_mergeSort (fun a b c => by simpa using Int.le_trans)
        (fun a b => by simpa using Int.le_total a b) _
    exact hascending.imp of_decide_eq_true
  rw [hsorted, codesIn, codesOfClass, List.filter_map, List.map_map]
  rfl

/-! The wildcards. -/

def wildcards : List String := ["2XX", "4XX", "5XX", "default"]

theorem wildcardChars_of_mem (h : wildcard ∈ wildcards) :
    ∀ c ∈ wildcard.toList, c ∈ Text.wildcardChars := by
  have hall : ∀ w ∈ wildcards, w.toList.all (· ∈ Text.wildcardChars) := by decide
  simpa using hall _ h

/-- The spellings of a wildcard are equal to it when the case of its letters is ignored. -/
theorem spellingsIn_eq (h : wildcard ∈ wildcards) :
    responses.keys.filter (equalsIgnoringCase wildcard) = spellingsIn responses wildcard := by
  refine List.filter_congr fun key _ => ?_
  rw [Bool.eq_iff_iff, Text.equalIgnoringCase_iff (wildcardChars_of_mem h), equalsIgnoringCase,
    beq_iff_eq]

theorem successCodes_eq (responses : Responses) :
    successCodes responses = codesIn responses 2 ++ spellingsIn responses "2XX" := by
  have htwo := map_mergeSort_codes responses 2 (by decide) (by decide)
  rw [← htwo, ← spellingsIn_eq (by decide)]
  simp [successCodes, rankCodes]

theorem errorCodes_eq (responses : Responses) :
    errorCodes responses = codesIn responses 4 ++ codesIn responses 5 ++
      (spellingsIn responses "4XX" ++ spellingsIn responses "5XX" ++
        spellingsIn responses "default") := by
  have hfour := map_mergeSort_codes responses 4 (by decide) (by decide)
  have hfive := map_mergeSort_codes responses 5 (by decide) (by decide)
  rw [← hfour, ← hfive, ← spellingsIn_eq (by decide), ← spellingsIn_eq (by decide),
    ← spellingsIn_eq (by decide)]
  simp [errorCodes, rankCodes]

/-! No code is listed twice. -/

theorem mem_spellingsIn (h : wildcard ∈ wildcards) :
    key ∈ spellingsIn responses wildcard ↔ key ∈ responses.keys ∧
      wildcard.toList.map Char.toLower = key.toList.map Char.toLower := by
  rw [spellingsIn, List.mem_filter, Text.equalIgnoringCase_iff (wildcardChars_of_mem h)]

theorem nodup_codesIn (statusClass : Nat) : (codesIn responses statusClass).Nodup :=
  (nodup_codesOfClass statusClass).filter _

theorem nodup_spellingsIn (responses : Responses) (wildcard : String) :
    (spellingsIn responses wildcard).Nodup := responses.nodup_keys.filter _

theorem disjoint_codesIn {other : Nat} (h : statusClass ≠ other) :
    (codesIn responses statusClass).Disjoint (codesIn responses other) := by
  intro key hkey hother
  obtain ⟨n, hn, rfl⟩ := mem_codesOfClass.mp (List.mem_of_mem_filter hkey)
  obtain ⟨m, hm, hsame⟩ := mem_codesOfClass.mp (List.mem_of_mem_filter hother)
  have heq := toString_injective hsame
  omega

/-- A wildcard has a letter, and a code has digits only. -/
theorem disjoint_codesIn_spellingsIn (h : wildcard ∈ wildcards) :
    (codesIn responses statusClass).Disjoint (spellingsIn responses wildcard) := by
  intro key hkey hspelled
  obtain ⟨n, -, rfl⟩ := mem_codesOfClass.mp (List.mem_of_mem_filter hkey)
  obtain ⟨-, hlower⟩ := (mem_spellingsIn h).mp hspelled
  have hletter : ∀ w ∈ wildcards, ¬ (w.toList.map Char.toLower).all Char.isDigit := by decide
  apply hletter _ h
  rw [hlower, List.all_map, List.all_eq_true]
  intro c hc
  have hdigit := isDigit_of_mem_toString hc
  have hbounds := toNat_of_isDigit hdigit
  have hsame : c.toLower = c := by
    rw [← Char.toNat_inj, Text.toNat_toLower, Text.lowerNumber, if_neg (by omega)]
  rwa [Function.comp_apply, hsame]

theorem disjoint_spellingsIn {other : String} (h : wildcard ∈ wildcards)
    (hother : other ∈ wildcards) (hne : wildcard ≠ other) :
    (spellingsIn responses wildcard).Disjoint (spellingsIn responses other) := by
  intro key hkey hspelled
  obtain ⟨-, hlower⟩ := (mem_spellingsIn h).mp hkey
  obtain ⟨-, hlower'⟩ := (mem_spellingsIn hother).mp hspelled
  have hdistinct : ∀ v ∈ wildcards, ∀ w ∈ wildcards,
      v.toList.map Char.toLower = w.toList.map Char.toLower → v = w := by decide
  exact hne (hdistinct _ h _ hother (hlower.trans hlower'.symm))

theorem nodup_codes (responses : Responses) :
    (successCodes responses ++ errorCodes responses).Nodup := by
  rw [successCodes_eq, errorCodes_eq]
  simp (disch := decide) only [List.nodup_append', List.disjoint_append_left,
    List.disjoint_append_right, nodup_codesIn, nodup_spellingsIn, disjoint_codesIn,
    disjoint_codesIn_spellingsIn, disjoint_spellingsIn, and_self, true_and]
  have hapart (statusClass : Nat) :
      (spellingsIn responses "2XX").Disjoint (codesIn responses statusClass) :=
    fun _ hspelled hcode => disjoint_codesIn_spellingsIn (by decide) hcode hspelled
  exact ⟨⟨hapart 4, hapart 5⟩, trivial⟩

theorem mem_keys_of_mem_codes (h : key ∈ successCodes responses ++ errorCodes responses) :
    key ∈ responses.keys := by
  have hcodes {statusClass : Nat} (hmem : key ∈ codesIn responses statusClass) :
      key ∈ responses.keys := by
    simpa using (List.mem_filter.mp hmem).2
  have hspelled {wildcard : String} (hmem : key ∈ spellingsIn responses wildcard) :
      key ∈ responses.keys := (List.mem_filter.mp hmem).1
  rw [successCodes_eq, errorCodes_eq] at h
  simp only [List.mem_append] at h
  grind

/-! The order of the map. -/

variable {other : Responses}

theorem codesIn_congr (h : ∀ key, key ∈ other.keys ↔ key ∈ responses.keys) (statusClass : Nat) :
    codesIn other statusClass = codesIn responses statusClass := by
  simp [codesIn, h]

/-- No two keys differ only in the case of their letters. -/
def CaseDistinct (responses : Responses) : Prop :=
  ∀ a ∈ responses.keys, ∀ b ∈ responses.keys, Text.equalIgnoringCase a b = true → a = b

/-- Then a wildcard has one spelling at most, whose place in the map does not matter. -/
theorem spellingsIn_congr (hcase : CaseDistinct responses)
    (h : ∀ key, key ∈ other.keys ↔ key ∈ responses.keys)
    (hwildcard : wildcard ∈ wildcards) :
    spellingsIn other wildcard = spellingsIn responses wildcard := by
  have hmem (key) : key ∈ spellingsIn other wildcard ↔ key ∈ spellingsIn responses wildcard := by
    rw [mem_spellingsIn hwildcard, mem_spellingsIn hwildcard, h]
  have hperm := (List.perm_ext_iff_of_nodup (nodup_spellingsIn other wildcard)
    (nodup_spellingsIn responses wildcard)).mpr hmem
  have hall (l : List String) : l.Pairwise fun _ _ => True :=
    List.pairwise_of_forall fun _ _ => trivial
  refine List.Perm.eq_of_pairwise (fun a b ha hb _ _ => ?_) (hall _) (hall _) hperm
  obtain ⟨hakey, ha⟩ := (mem_spellingsIn hwildcard).mp ((hmem a).mp ha)
  obtain ⟨hbkey, hb⟩ := (mem_spellingsIn hwildcard).mp hb
  apply hcase a hakey b hbkey
  have hplain (c) (hc : c ∈ a.toList) : c ∈ Text.wildcardChars := by
    have hlower : c.toLower ∈ wildcard.toList.map Char.toLower :=
      ha ▸ List.mem_map_of_mem hc
    obtain ⟨d, hd, hsame⟩ := List.mem_map.mp hlower
    rw [← Text.toLower_mem_wildcardChars, ← hsame, Text.toLower_mem_wildcardChars]
    exact wildcardChars_of_mem hwildcard d hd
  rw [Text.equalIgnoringCase_iff hplain, ← ha, hb]

/-- What the lists of codes of a response map are. -/
structure RanksCodes (responses : Responses) : Prop where
  success_eq : successCodes responses = codesIn responses 2 ++ spellingsIn responses "2XX"
  errors_eq : errorCodes responses = codesIn responses 4 ++ codesIn responses 5 ++
    (spellingsIn responses "4XX" ++ spellingsIn responses "5XX" ++ spellingsIn responses "default")
  /-- No code stands twice in a list, and none in both. -/
  nodup : (successCodes responses ++ errorCodes responses).Nodup
  mem_keys : ∀ key ∈ successCodes responses ++ errorCodes responses, key ∈ responses.keys
  /-- The order of the map makes no difference. -/
  any_order : CaseDistinct responses → ∀ other : Responses, other.keys.Perm responses.keys →
    successCodes other = successCodes responses ∧ errorCodes other = errorCodes responses ∧
      firstSuccess? other = firstSuccess? responses ∧ firstError? other = firstError? responses

/-- Codes in disorder, two wildcards and keys that only look like codes. -/
def mixedResponses : Responses :=
  .ofList (["default", "4xx", "500", "404", "+20", "2XX", "0200", "201", "200"].map (·, none))

example : successCodes mixedResponses = ["200", "201", "2XX"] := by
  rw [successCodes_eq]
  decide +kernel

end ApiTypes
