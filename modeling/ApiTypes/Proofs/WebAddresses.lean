import ApiTypes.Proofs.Paths
import ApiTypes.Proofs.WrittenHosts

/-!
Addresses on the web in which the path is replaced. What is written for such an address is an
address of the same scheme again, with the host and the query that it had.
-/

namespace ApiTypes.Location

open Text

/-! Reading an address. -/

/-- A text up to its first question mark, and what stands after that. -/
def cutQuery (rest : List Char) : List Char × Option String :=
  match cutChars '?' rest with
  | some (before, after) => (before, some (String.ofList after))
  | none => (rest, none)

/-- Reads what stands between a scheme and a query. -/
def hierarchy? (a : Address) (body : List Char) : Option Address :=
  match body with
  | '/' :: '/' :: more =>
    if a.scheme = "" && more.head? = some '/' then withPath? a body
    else
      (withAuthority? a (more.takeWhile (· ≠ '/'))).bind fun a =>
        withPath? a (more.dropWhile (· ≠ '/'))
  | '/' :: _ => withPath? { a with isHostless := true } body
  | _ =>
    if a.scheme ≠ "" then some { a with opaquePart := String.ofList body }
    else if (body.takeWhile (· ≠ '/')).contains ':' then none
    else withPath? a body

theorem hierarchy?_of_path {a : Address} {more : List Char} (h : ¬ more.head? = some '/') :
    hierarchy? a ('/' :: more) = withPath? { a with isHostless := true } ('/' :: more) := by
  rw [hierarchy?]
  rintro more rfl
  exact h rfl

theorem hierarchy?_of_opaque {a : Address} {body : List Char} (hscheme : a.scheme ≠ "")
    (h : ¬ body.head? = some '/') :
    hierarchy? a body = some { a with opaquePart := String.ofList body } := by
  rw [hierarchy?, if_pos hscheme]
  · rintro more rfl
    exact h rfl
  · rintro more rfl
    exact h rfl

/-- Characters that can stand in an address and are not part of a fragment. -/
def IsPrinted (cs : List Char) : Prop := ∀ c ∈ cs, 32 ≤ c.toNat ∧ c.toNat ≠ 127 ∧ c ≠ '#'

instance : DecidablePred IsPrinted := List.decidableBAll _

/-- An address without a fragment is a scheme, what stands after it, and a query. -/
theorem address?_eq {s : String} (h : IsPrinted s.toList) : address? s =
    match schemeOf s.toList with
    | .absent => hierarchy? { scheme := "", query := (cutQuery s.toList).2 } (cutQuery s.toList).1
    | .present name rest =>
      hierarchy? { scheme := name, query := (cutQuery rest).2 } (cutQuery rest).1
    | .malformed => none := by
  have hall : ∀ c ∈ s.toList, decide (c ≠ '#') = true := fun c hc => decide_eq_true (h c hc).2.2
  have hcontrol : s.toList.any (fun c => c.toNat < 32 || c.toNat = 127) = false := by
    rw [List.any_eq_false]
    intro c hc
    have hprinted := h c hc
    simp only [Bool.or_eq_true, decide_eq_true_eq]
    omega
  unfold address?
  simp only [List.takeWhile_eq_self_iff.mpr hall, List.dropWhile_eq_nil_iff.mpr hall]
  rw [hcontrol, if_neg (by decide), if_neg (by decide)]
  unfold cutQuery hierarchy?
  cases schemeOf s.toList with
  | absent =>
    dsimp only
    cases cutChars '?' s.toList <;> rfl
  | present name rest =>
    dsimp only
    cases cutChars '?' rest <;> rfl
  | malformed => rfl

theorem isPrinted_of_address? {s : String} {a : Address} (h : address? s = some a)
    (hhash : '#' ∉ s.toList) : IsPrinted s.toList := by
  have hall : s.toList.takeWhile (· ≠ '#') = s.toList :=
    List.takeWhile_eq_self_iff.mpr fun c hc => decide_eq_true fun heq => hhash (heq ▸ hc)
  unfold address? at h
  simp only [hall] at h
  split at h
  · cases h
  · rename_i hcontrol
    intro c hc
    rw [List.any_eq_true, not_exists] at hcontrol
    have hc' := hcontrol c
    simp only [hc, true_and, Bool.or_eq_true, decide_eq_true_eq] at hc'
    exact ⟨by omega, by omega, fun heq => hhash (heq ▸ hc)⟩

theorem scheme_of_withPath? {a a' : Address} {cs : List Char} (h : withPath? a cs = some a') :
    a'.scheme = a.scheme := by
  obtain ⟨path, -, rfl⟩ := Option.map_eq_some_iff.mp h
  rfl

theorem scheme_of_withAuthority? {a a' : Address} {cs : List Char}
    (h : withAuthority? a cs = some a') : a'.scheme = a.scheme := by
  obtain ⟨host, -, h⟩ := Option.bind_eq_some_iff.mp h
  split at h
  · obtain ⟨user, -, h⟩ := Option.bind_eq_some_iff.mp h
    cases h
    rfl
  · cases h
    rfl

theorem scheme_of_hierarchy? {a a' : Address} {body : List Char}
    (h : hierarchy? a body = some a') : a'.scheme = a.scheme := by
  unfold hierarchy? at h
  split at h
  · split at h
    · exact scheme_of_withPath? h
    · obtain ⟨a₁, hauthority, hpath⟩ := Option.bind_eq_some_iff.mp h
      exact (scheme_of_withPath? hpath).trans (scheme_of_withAuthority? hauthority)
  · exact (scheme_of_withPath? h).trans rfl
  · split at h
    · cases h
      rfl
    · split at h
      · cases h
      · exact scheme_of_withPath? h

/-- What is read after the scheme. -/
theorem hierarchy?_of_address? {s : String} {a : Address} (h : address? s = some a)
    (hscheme : a.scheme ≠ "") (hhash : '#' ∉ s.toList) :
    ∃ rest, schemeOf s.toList = .present a.scheme rest ∧
      hierarchy? { scheme := a.scheme, query := (cutQuery rest).2 } (cutQuery rest).1 = some a := by
  rw [address?_eq (isPrinted_of_address? h hhash)] at h
  cases hread : schemeOf s.toList with
  | absent =>
    rw [hread] at h
    exact absurd (scheme_of_hierarchy? h) hscheme
  | present name rest =>
    rw [hread] at h
    obtain rfl : a.scheme = name := scheme_of_hierarchy? h
    exact ⟨rest, rfl, h⟩
  | malformed =>
    rw [hread] at h
    cases h

theorem schemeOf_suffix {cs rest : List Char} {name : String}
    (h : schemeOf cs = .present name rest) : rest <:+ cs := by
  have hgo : ∀ read cs, schemeOf.go read cs = .present name rest → rest <:+ cs := by
    intro read cs h
    fun_induction schemeOf.go read cs with
    | case1 => cases h
    | case2 read c more _ ih => exact (ih h).trans (List.suffix_cons c more)
    | case3 => cases h
    | case4 read c more _ _ _ ih => exact (ih h).trans (List.suffix_cons c more)
    | case5 => cases h
    | case6 =>
      obtain ⟨-, rfl⟩ := Scheme.present.inj h
      exact List.suffix_cons _ _
    | case7 => cases h
  exact hgo [] cs h

theorem isWebScheme_iff {scheme : String} :
    isWebScheme scheme = true ↔ scheme = "http" ∨ scheme = "https" := by
  simp [isWebScheme]

theorem ne_empty_of_isWebScheme {scheme : String} (h : isWebScheme scheme = true) :
    scheme ≠ "" := by
  rintro rfl
  exact absurd h (by decide)

theorem schemeOf_web {scheme : String} (h : isWebScheme scheme = true) (rest : List Char) :
    schemeOf (scheme.toList ++ ':' :: rest) = .present scheme rest := by
  rcases isWebScheme_iff.mp h with rfl | rfl
  · rfl
  · rfl

/-- A query with the question mark in front of it. -/
def queryChars : Option String → List Char
  | none => []
  | some query => '?' :: query.toList

theorem cutQuery_append {body : List Char} (h : '?' ∉ body) (query : Option String) :
    cutQuery (body ++ queryChars query) = (body, query) := by
  unfold cutQuery
  cases query with
  | none =>
    rw [queryChars, List.append_nil, cutChars_of_not_mem h]
  | some query =>
    rw [queryChars, cutChars_append h]
    simp

theorem eq_append_of_cutQuery (rest : List Char) :
    rest = (cutQuery rest).1 ++ queryChars (cutQuery rest).2 ∧ '?' ∉ (cutQuery rest).1 := by
  unfold cutQuery
  cases hcut : cutChars '?' rest with
  | none => exact ⟨(List.append_nil _).symm, not_mem_of_cutChars_none hcut⟩
  | some parts =>
    refine ⟨?_, not_mem_of_cutChars hcut⟩
    dsimp only [queryChars]
    rw [String.toList_ofList]
    exact eq_append_of_cutChars hcut

/-- What can stand between the scheme and the query. -/
structure IsBody (body : List Char) : Prop where
  printed : IsPrinted body
  noQuery : '?' ∉ body

theorem IsBody.nil : IsBody [] := ⟨by decide, by decide⟩

theorem IsBody.append {body body' : List Char} (h : IsBody body) (h' : IsBody body') :
    IsBody (body ++ body') where
  printed := List.forall_mem_append.mpr ⟨h.printed, h'.printed⟩
  noQuery := by simp [h.noQuery, h'.noQuery]

/-- What is read from an address on the web that is made up of its parts. -/
theorem address?_of_parts {scheme : String} (hweb : isWebScheme scheme = true) {body : List Char}
    (hbody : IsBody body) {query : Option String} (hquery : IsPrinted (queryChars query)) :
    IsPrinted (scheme.toList ++ ':' :: (body ++ queryChars query)) ∧
      address? (String.ofList (scheme.toList ++ ':' :: (body ++ queryChars query))) =
        hierarchy? { scheme, query } body := by
  have hscheme : IsPrinted scheme.toList := by
    rcases isWebScheme_iff.mp hweb with rfl | rfl <;> decide
  have hall : IsPrinted (scheme.toList ++ ':' :: (body ++ queryChars query)) :=
    List.forall_mem_append.mpr ⟨hscheme, List.forall_mem_cons.mpr ⟨by decide,
      List.forall_mem_append.mpr ⟨hbody.printed, hquery⟩⟩⟩
  refine ⟨hall, ?_⟩
  rw [address?_eq (by rwa [String.toList_ofList]), String.toList_ofList, schemeOf_web hweb]
  dsimp only
  rw [cutQuery_append hbody.noQuery]

/-! The parts of an address. -/

def IsRooted (cs : List Char) : Prop := cs.head? = some '/'

/-- What stands after the scheme: something that means nothing here, a path, or a host and a path
that may be absent. -/
inductive HasParts (a : Address) : Prop where
  | opaquePart : IsBody a.opaquePart.toList → a.opaquePart.toList ≠ [] →
    ¬ IsRooted a.opaquePart.toList → HasParts a
  | path : a.opaquePart = "" → a.isHostless = true → a.host = "" → a.user = none →
    IsRooted a.path.toList → IsRooted a.writtenPath.toList → HasParts a
  | host {cs : List Char} : a.opaquePart = "" → a.isHostless = false → host? cs = some a.host →
    a.path = "" ∧ a.writtenPath = "" ∨ IsRooted a.path.toList ∧ IsRooted a.writtenPath.toList →
    HasParts a

theorem withPath?_eq_some {a a' : Address} {cs : List Char} (hcs : cs = [] ∨ IsRooted cs)
    (h : withPath? a cs = some a') : ∃ path, a' = { a with path, writtenPath := String.ofList cs } ∧
      (path = "" ∧ cs = [] ∨ IsRooted path.toList ∧ IsRooted cs) := by
  obtain ⟨path, hdecoded, rfl⟩ := Option.map_eq_some_iff.mp h
  refine ⟨path, rfl, ?_⟩
  rcases hcs with rfl | hrooted
  · cases hdecoded
    exact .inl ⟨rfl, rfl⟩
  · obtain ⟨more, rfl⟩ := List.head?_eq_some_iff.mp hrooted
    obtain ⟨rest, hrest⟩ := percentDecode?_slash hdecoded
    exact .inr ⟨List.head?_eq_some_iff.mpr ⟨rest, hrest⟩, hrooted⟩

theorem withAuthority?_eq_some {a a' : Address} {cs : List Char}
    (h : withAuthority? a cs = some a') :
    ∃ user host named, host? named = some host ∧ a' = { a with user, host } := by
  obtain ⟨host, hhost, h⟩ := Option.bind_eq_some_iff.mp h
  split at h
  · obtain ⟨user, -, h⟩ := Option.bind_eq_some_iff.mp h
    cases h
    exact ⟨some user, host, _, hhost, rfl⟩
  · cases h
    exact ⟨a.user, host, _, hhost, rfl⟩

theorem dropWhile_slash (cs : List Char) :
    cs.dropWhile (· ≠ '/') = [] ∨ IsRooted (cs.dropWhile (· ≠ '/')) := by
  cases hdrop : cs.dropWhile (· ≠ '/') with
  | nil => exact .inl rfl
  | cons c rest =>
    have hhead := List.head?_dropWhile_not (fun c => decide (c ≠ '/')) cs
    rw [hdrop] at hhead
    simp only [List.head?_cons, decide_eq_false_iff_not, not_not] at hhead
    rw [hhead]
    exact .inr rfl

theorem hasParts_of_hierarchy? {scheme : String} {query : Option String} (hscheme : scheme ≠ "")
    {body : List Char} (hbody : IsBody body) {a : Address}
    (h : hierarchy? { scheme, query } body = some a) :
    HasParts a ∧ a.scheme = scheme ∧ a.query = query ∧ a.fragment = "" := by
  unfold hierarchy? at h
  split at h
  · rename_i more
    rw [if_neg (by simp [hscheme])] at h
    obtain ⟨_, hauthority, hpath⟩ := Option.bind_eq_some_iff.mp h
    obtain ⟨user, host, named, hhost, rfl⟩ := withAuthority?_eq_some hauthority
    obtain ⟨path, rfl, hcases⟩ := withPath?_eq_some (dropWhile_slash more) hpath
    refine ⟨.host rfl rfl hhost (hcases.imp ?_ ?_), rfl, rfl, rfl⟩
    · exact fun ⟨hnone, hcs⟩ => ⟨hnone, by rw [hcs]⟩
    · exact fun ⟨hrooted, hcs⟩ => ⟨hrooted, by rwa [String.toList_ofList]⟩
  · obtain ⟨path, rfl, hcases⟩ := withPath?_eq_some (.inr List.head?_cons) h
    obtain ⟨hrooted, hcs⟩ := hcases.resolve_left nofun
    exact ⟨.path rfl rfl rfl rfl hrooted (by rwa [String.toList_ofList]), rfl, rfl, rfl⟩
  · rename_i hpath
    rw [if_pos hscheme] at h
    cases h
    refine ⟨?_, rfl, rfl, rfl⟩
    by_cases hempty : body = []
    · rw [hempty]
      exact @HasParts.host _ [] rfl rfl rfl (.inl ⟨rfl, rfl⟩)
    · refine .opaquePart ?_ ?_ ?_
      · rwa [String.toList_ofList]
      · rwa [String.toList_ofList]
      · rw [String.toList_ofList]
        intro hrooted
        obtain ⟨more, hmore⟩ := List.head?_eq_some_iff.mp hrooted
        exact hpath more hmore

/-! The parts in their written form. -/

theorem isBody_of_path {cs : List Char}
    (h : ∀ c ∈ cs, isPathChar c = true ∨ isToleratedChar c = true) : IsBody cs := by
  have htolerated : ∀ c ∈ ['!', '\'', '(', ')', '*', '[', ']', '%'],
      32 ≤ c.toNat ∧ c.toNat ≠ 127 ∧ c ≠ '#' ∧ c ≠ '?' := List.all_iff_forall_prop.mp (by decide)
  have hall : ∀ c ∈ cs, 32 ≤ c.toNat ∧ c.toNat ≠ 127 ∧ c ≠ '#' ∧ c ≠ '?' := by
    intro c hc
    rcases h c hc with hpath | hother
    · have hvisible := isPlain_path.visible c hpath
      refine ⟨by omega, by omega, ?_, ?_⟩ <;>
      · rintro rfl
        exact absurd hpath (by decide)
    · exact htolerated c (List.contains_iff_mem.mp hother)
  exact ⟨fun c hc => ⟨(hall c hc).1, (hall c hc).2.1, (hall c hc).2.2.1⟩,
    fun hmem => (hall _ hmem).2.2.2 rfl⟩

/-- What is written with escapes can stand in front of a query. -/
theorem isBody_encode {plain : Char → Bool} (h : IsPlain plain) (hhash : plain '#' = false)
    (hquery : plain '?' = false) (s : String) : IsBody (encode plain s).toList where
  printed c hc := by
    have hvisible := visible_of_mem_encode h hc
    refine ⟨by omega, by omega, ?_⟩
    rintro rfl
    rcases mem_encode h hc with hplain | hescape
    · rw [hhash] at hplain
      cases hplain
    · revert hescape
      decide
  noQuery hc := by
    rcases mem_encode h hc with hplain | hescape
    · rw [hquery] at hplain
      cases hplain
    · revert hescape
      decide

theorem isRooted_encode {s : String} (h : IsRooted s.toList) :
    IsRooted (encode isPathChar s).toList := by
  obtain ⟨rest, hrest⟩ := List.head?_eq_some_iff.mp h
  rw [toList_encode isPlain_path, hrest, List.flatMap_cons, encodeBytes_append,
    encodeBytes_bytesOf_plain isPlain_path (by decide)]
  rfl

theorem encode_ne_empty {s : String} (h : s ≠ "") : encode isPathChar s ≠ "" := by
  intro hnone
  have hread := percentBytes?_encodeBytes isPlain_path (bytes_lt s) []
  rw [← toList_encode isPlain_path, hnone] at hread
  have hbytes : s.toList.flatMap bytesOf = [] := by simpa [percentBytes?] using hread.symm
  obtain ⟨c, rest, hcs⟩ := List.exists_cons_of_ne_nil (l := s.toList) (by simpa using h)
  rw [List.flatMap_eq_nil_iff] at hbytes
  exact bytesOf_ne_nil c (hbytes c (hcs ▸ List.mem_cons_self))

variable {a : Address}

theorem encodedPath_chars (a : Address) :
    ∀ c ∈ a.encodedPath.toList, isPathChar c = true ∨ isToleratedChar c = true := by
  intro c hc
  unfold Address.encodedPath at hc
  split at hc
  · rename_i hwritten
    rw [Bool.and_eq_true, List.all_eq_true] at hwritten
    exact Bool.or_eq_true _ _ ▸ hwritten.1 c hc
  · split at hc
    · rw [List.mem_singleton.mp hc]
      exact .inr (by decide)
    · have hescape : ∀ c ∈ escapeChars, isPathChar c = true ∨ isToleratedChar c = true :=
        List.all_iff_forall_prop.mp (by decide)
      exact (mem_encode isPlain_path hc).elim .inl (hescape c)

/-- The written form of a path can be read. -/
theorem exists_percentDecode?_encodedPath (a : Address) :
    ∃ decoded, percentDecode? a.encodedPath = some decoded := by
  unfold Address.encodedPath
  split
  · rename_i hwritten
    rw [Bool.and_eq_true, decide_eq_true_eq] at hwritten
    exact ⟨_, hwritten.2⟩
  · split
    · exact ⟨_, rfl⟩
    · exact exists_percentDecode?_encode isPlain_path a.path

theorem isRooted_encodedPath (hpath : IsRooted a.path.toList)
    (hwritten : a.writtenPath = "" ∨ IsRooted a.writtenPath.toList) :
    IsRooted a.encodedPath.toList := by
  unfold Address.encodedPath
  split
  · rename_i h
    rw [Bool.and_eq_true, decide_eq_true_eq] at h
    refine hwritten.resolve_left fun hempty => ?_
    have hnone := h.2
    rw [hempty] at hnone
    rw [← Option.some.inj hnone] at hpath
    cases hpath
  · split
    · rename_i hstar
      rw [hstar] at hpath
      cases hpath
    · exact isRooted_encode hpath

theorem encodedPath_ne_empty (h : a.path ≠ "") : a.encodedPath ≠ "" := by
  unfold Address.encodedPath
  split
  · rename_i hwritten
    rw [Bool.and_eq_true, decide_eq_true_eq] at hwritten
    intro hnone
    have hdecoded := hwritten.2
    rw [hnone] at hdecoded
    exact h (Option.some.inj hdecoded).symm
  · split
    · decide
    · exact encode_ne_empty h

/-- The slash that is put between a host and a path where none stands. -/
def slashBefore (a : Address) : String :=
  if a.encodedPath ≠ "" && !startsWith "/" a.encodedPath && a.host ≠ "" then "/" else ""

theorem slashBefore_of_rooted (h : IsRooted a.encodedPath.toList) : slashBefore a = "" := by
  have hstart : startsWith "/" a.encodedPath = true := isAbsolutePath_iff_head.mpr h
  rw [slashBefore, if_neg (by simp [hstart])]

theorem slashBefore_of_host (h : ¬ IsRooted a.encodedPath.toList) (hpath : a.path ≠ "")
    (hhost : a.host ≠ "") : slashBefore a = "/" := by
  have hstart : startsWith "/" a.encodedPath = false :=
    Bool.eq_false_iff.mpr fun hstart => h (isAbsolutePath_iff_head.mp hstart)
  rw [slashBefore, if_pos (by simp [hstart, encodedPath_ne_empty hpath, hhost])]

/-- A path as it stands in an address. -/
structure IsPathText (cs : List Char) : Prop where
  rooted : IsRooted cs
  body : IsBody cs
  readable : ∃ decoded, percentDecode? (String.ofList cs) = some decoded

/-- The path that is written is one from the root, or follows a host. -/
theorem isPathText_written
    (h : IsRooted a.encodedPath.toList ∨ a.path ≠ "" ∧ a.host ≠ "") :
    IsPathText (slashBefore a ++ a.encodedPath).toList := by
  have hbody := isBody_of_path (encodedPath_chars a)
  obtain ⟨decoded, hdecoded⟩ := exists_percentDecode?_encodedPath a
  by_cases hrooted : IsRooted a.encodedPath.toList
  · rw [slashBefore_of_rooted hrooted, String.empty_append]
    exact ⟨hrooted, hbody, decoded, by rwa [String.ofList_toList]⟩
  · obtain ⟨hpath, hhost⟩ := h.resolve_left hrooted
    rw [slashBefore_of_host hrooted hpath hhost, String.toList_append]
    refine ⟨rfl, .append ⟨by decide, by decide⟩ hbody, ?_⟩
    rw [show "/".toList ++ a.encodedPath.toList = '/' :: a.encodedPath.toList from rfl,
      percentDecode?_cons (by decide) (by decide), String.ofList_toList, hdecoded]
    exact ⟨_, rfl⟩

/-! The host and the user in front of it. -/

/-- What is written for a user. -/
inductive IsUserText : List Char → Prop where
  | none : IsUserText []
  | some {cs : List Char} {user : String × Option String} : user? cs = some user → IsBody cs →
    '/' ∉ cs → IsUserText (cs ++ ['@'])

theorem IsUserText.slash_not_mem {cs : List Char} (h : IsUserText cs) : '/' ∉ cs := by
  cases h with
  | none => exact List.not_mem_nil
  | some _ _ hslash => simp [hslash]

theorem IsUserText.isBody {cs : List Char} (h : IsUserText cs) : IsBody cs := by
  cases h with
  | none => exact .nil
  | some _ hbody _ => exact hbody.append ⟨by decide, by decide⟩

theorem not_mem_encode {plain : Char → Bool} (h : IsPlain plain) {c : Char}
    (hplain : plain c = false) (hescape : c ∉ escapeChars) (s : String) :
    c ∉ (encode plain s).toList := by
  intro hc
  rcases mem_encode h hc with hmem | hmem
  · rw [hplain] at hmem
    cases hmem
  · exact hescape hmem

theorem isUser_append (cs cs' : List Char) : isUser (cs ++ cs') = (isUser cs && isUser cs') :=
  List.all_append

theorem isUser_encode (s : String) : isUser (encode isUserChar s).toList = true := by
  have hescape : ∀ c ∈ escapeChars, isUser [c] = true := List.all_iff_forall_prop.mp (by decide)
  have hmarks : ∀ c ∈ ['-', '_', '.', '~', '$', '&', '+', ',', ';', '='], isUser [c] = true :=
    List.all_iff_forall_prop.mp (by decide)
  refine List.all_eq_true.mpr fun c hc => ?_
  have hsingle : isUser [c] = true := by
    rcases mem_encode isPlain_user hc with hplain | hmem
    · rw [isUserChar, Bool.or_eq_true] at hplain
      rcases hplain with hletter | hmark
      · simp [isUser, hletter]
      · exact hmarks c (List.contains_iff_mem.mp hmark)
    · exact hescape c hmem
  exact List.all_eq_true.mp hsingle c List.mem_cons_self

theorem isUserText_encoded (a : Address) : IsUserText a.encodedUser.toList := by
  have hbody (s : String) := isBody_encode isPlain_user (by decide) (by decide) s
  have hslash (s : String) := not_mem_encode isPlain_user (c := '/') (by decide) (by decide) s
  have hcolon (s : String) := not_mem_encode isPlain_user (c := ':') (by decide) (by decide) s
  unfold Address.encodedUser
  split
  · exact .none
  · rename_i name _
    obtain ⟨decoded, hdecoded⟩ := exists_percentDecode?_encode isPlain_user name
    refine (String.toList_append ..) ▸
      @IsUserText.some _ (decoded, none) ?_ (hbody name) (hslash name)
    rw [user?, if_neg (by simp [isUser_encode]), cutChars_of_not_mem (hcolon name)]
    dsimp only
    rw [String.ofList_toList, hdecoded]
    rfl
  · rename_i name password _
    obtain ⟨decoded, hdecoded⟩ := exists_percentDecode?_encode isPlain_user name
    obtain ⟨secret, hsecret⟩ := exists_percentDecode?_encode isPlain_user password
    have hseparator : IsBody [':'] := ⟨by decide, by decide⟩
    have htext : (encode isUserChar name ++ ":" ++ encode isUserChar password ++ "@").toList =
        (encode isUserChar name).toList ++ ':' :: (encode isUserChar password).toList ++ ['@'] := by
      simp
    rw [htext]
    refine @IsUserText.some _ (decoded, some secret) ?_
      ((hbody name).append (hseparator.append (hbody password))) (by simp [hslash])
    have huser : isUser ((encode isUserChar name).toList ++
        ':' :: (encode isUserChar password).toList) = true := by
      rw [isUser_append, ← List.singleton_append, isUser_append, isUser_encode, isUser_encode]
      decide
    rw [user?, if_neg (by simp [huser]), cutChars_append (hcolon name)]
    dsimp only
    rw [String.ofList_toList, String.ofList_toList, hdecoded, hsecret]
    rfl

/-- A user and a host that are written are read as an authority. -/
theorem exists_withAuthority? {user hostText : List Char} (huser : IsUserText user)
    (hhost : ∃ host, host? hostText = some host) (hsign : '@' ∉ hostText) (b : Address) :
    ∃ user' host',
      withAuthority? b (user ++ hostText) = some { b with user := user', host := host' } := by
  obtain ⟨host, hhost⟩ := hhost
  cases huser with
  | none =>
    have hall : ∀ c ∈ hostText.reverse, decide (c ≠ '@') = true := fun c hc =>
      decide_eq_true fun heq => hsign (heq ▸ List.mem_reverse.mp hc)
    refine ⟨b.user, host, ?_⟩
    rw [withAuthority?, List.nil_append, List.takeWhile_eq_self_iff.mpr hall, List.reverse_reverse,
      hhost]
    simp [hsign]
  | @some cs user huser _ _ =>
    refine ⟨some user, host, ?_⟩
    rw [withAuthority?, List.append_assoc, List.singleton_append, takeWhile_last hsign,
      dropWhile_last hsign, hhost]
    simp [huser]

/-! The whole address. -/

/-- The slashes that a host follows. -/
def slashes (a : Address) : String :=
  if (a.host = "" && a.user.isNone) && (a.isHostless || a.path = "") then "" else "//"

/-- What is written between the scheme and the query. -/
def writtenBody (a : Address) : List Char :=
  if a.opaquePart ≠ "" then a.opaquePart.toList
  else (slashes a).toList ++ (a.encodedUser.toList ++ (encode isHostChar a.host).toList) ++
    (slashBefore a ++ a.encodedPath).toList

theorem toList_render (h : a.fragment = "") :
    a.render.toList = a.scheme.toList ++ ':' :: (writtenBody a ++ queryChars a.query) := by
  unfold Address.render writtenBody
  simp only [String.toList_append]
  rw [if_pos h]
  cases a.query <;> split <;> simp [slashes, slashBefore, queryChars]

theorem isBody_writtenBody (h : IsBody a.opaquePart.toList) : IsBody (writtenBody a) := by
  have hslashes : IsBody (slashes a).toList := by
    unfold slashes
    split <;> exact ⟨by decide, by decide⟩
  have hslash : IsBody (slashBefore a).toList := by
    unfold slashBefore
    split <;> exact ⟨by decide, by decide⟩
  unfold writtenBody
  split
  · exact h
  · rw [String.toList_append]
    exact (hslashes.append ((isUserText_encoded a).isBody.append
      (isBody_encode isPlain_host (by decide) (by decide) a.host))).append
        (hslash.append (isBody_of_path (encodedPath_chars a)))

/-- What is written for an address on the web, and what is read from that. -/
theorem address?_render (hweb : isWebScheme a.scheme = true) (hpart : IsBody a.opaquePart.toList)
    (hfragment : a.fragment = "") (hquery : IsPrinted (queryChars a.query)) :
    IsPrinted a.render.toList ∧ address? a.render =
      hierarchy? { scheme := a.scheme, query := a.query } (writtenBody a) := by
  obtain ⟨hprinted, haddress⟩ := address?_of_parts hweb (isBody_writtenBody hpart) hquery
  rw [← toList_render hfragment] at hprinted haddress
  rw [String.ofList_toList] at haddress
  exact ⟨hprinted, haddress⟩

/-- The address has a host, a path, or something that means nothing here. -/
def HasPlace (a : Address) : Prop := a.host ≠ "" ∨ a.path ≠ "" ∨ a.opaquePart ≠ ""

theorem ne_empty_of_isRooted {s : String} (h : IsRooted s.toList) : s ≠ "" := by
  rintro rfl
  cases h

/-- What can be written and read again: something that means nothing here, a path that does not look
like a host, or a host and a path that can be told from it. -/
inductive IsWritable (a : Address) : Prop where
  | opaquePart : IsBody a.opaquePart.toList → a.opaquePart ≠ "" → ¬ IsRooted a.opaquePart.toList →
    IsWritable a
  | path {more : List Char} : a.opaquePart = "" → a.isHostless = true → a.host = "" →
    a.user = none → a.encodedPath.toList = '/' :: more → ¬ IsRooted more → IsWritable a
  | host {cs : List Char} : a.opaquePart = "" → a.isHostless = false → host? cs = some a.host →
    a.path ≠ "" → IsRooted a.encodedPath.toList ∨ a.host ≠ "" → IsWritable a

/-- What is written can be read. -/
theorem IsWritable.exists_hierarchy? (h : IsWritable a) (hscheme : a.scheme ≠ "") : ∃ a',
    hierarchy? { scheme := a.scheme, query := a.query } (writtenBody a) = some a' ∧
      HasPlace a' := by
  cases h with
  | opaquePart _ hne hunrooted =>
    rw [writtenBody, if_pos hne]
    refine ⟨_, hierarchy?_of_opaque hscheme hunrooted, .inr (.inr ?_)⟩
    rwa [String.ofList_toList]
  | @path more hpart hhostless hhost huser hencoded hmore =>
    have hrooted : IsRooted a.encodedPath.toList := hencoded ▸ List.head?_cons
    have hslash := slashBefore_of_rooted hrooted
    have hwritten : writtenBody a = a.encodedPath.toList := by
      simp [writtenBody, hpart, slashes, hhost, huser, hhostless, Address.encodedUser, encode,
        hslash]
    have htext := isPathText_written (.inl hrooted)
    rw [hslash, String.empty_append] at htext
    obtain ⟨decoded, hdecoded⟩ := htext.readable
    rw [hencoded] at hdecoded
    rw [hwritten, hencoded, hierarchy?_of_path hmore, withPath?, hdecoded]
    obtain ⟨rest, hrest⟩ := percentDecode?_slash hdecoded
    exact ⟨_, rfl, .inr (.inl (ne_empty_of_isRooted (hrest ▸ List.head?_cons)))⟩
  | @host cs hpart hhostless hhost hpath hplace =>
    have htext := isPathText_written (hplace.imp_right fun hhost => ⟨hpath, hhost⟩)
    have huser := isUserText_encoded a
    have hslash := not_mem_encode isPlain_host (c := '/') (by decide) (by decide) a.host
    have hsign := not_mem_encode isPlain_host (c := '@') (by decide) (by decide) a.host
    have hwritten : writtenBody a = '/' :: '/' :: (a.encodedUser.toList ++
        (encode isHostChar a.host).toList ++ (slashBefore a ++ a.encodedPath).toList) := by
      simp [writtenBody, hpart, slashes, hhostless, hpath]
    generalize (slashBefore a ++ a.encodedPath).toList = path at htext hwritten
    generalize a.encodedUser.toList = user at huser hwritten
    have hauthority : ∀ c ∈ user ++ (encode isHostChar a.host).toList, decide (c ≠ '/') = true := by
      intro c hc
      refine decide_eq_true fun heq => ?_
      rw [heq, List.mem_append] at hc
      exact hc.elim huser.slash_not_mem hslash
    obtain ⟨more, rfl⟩ := List.head?_eq_some_iff.mp htext.rooted
    obtain ⟨decoded, hdecoded⟩ := htext.readable
    obtain ⟨user', host', hread⟩ := exists_withAuthority? huser (exists_host?_encode hhost) hsign
      { scheme := a.scheme, query := a.query }
    obtain ⟨rest, hrest⟩ := percentDecode?_slash hdecoded
    have hplace' : decoded ≠ "" := ne_empty_of_isRooted (hrest ▸ List.head?_cons)
    rw [hwritten]
    refine ⟨
      { scheme := a.scheme, query := a.query, user := user', host := host', path := decoded,
        writtenPath := String.ofList ('/' :: more) }, ?_, .inr (.inl hplace')⟩
    have hend : ('/' :: more).takeWhile (· ≠ '/') = [] := by simp
    have hstart : ('/' :: more).dropWhile (· ≠ '/') = '/' :: more := by simp
    rw [hierarchy?, if_neg (by simp [hscheme]), List.takeWhile_append_of_pos hauthority,
      List.dropWhile_append_of_pos hauthority, hend, hstart, List.append_nil, hread,
      Option.bind_some, withPath?, hdecoded]
    rfl

theorem IsWritable.isBody_opaquePart (h : IsWritable a) : IsBody a.opaquePart.toList := by
  cases h with
  | opaquePart hbody => exact hbody
  | path hpart => exact hpart ▸ .nil
  | host hpart => exact hpart ▸ .nil

theorem exists_address?_render (h : IsWritable a) (hweb : isWebScheme a.scheme = true)
    (hfragment : a.fragment = "") (hquery : IsPrinted (queryChars a.query)) :
    ∃ a', address? a.render = some a' ∧ a'.scheme = a.scheme ∧ HasPlace a' := by
  obtain ⟨a', hread, hplace⟩ := h.exists_hierarchy? (ne_empty_of_isWebScheme hweb)
  obtain ⟨-, haddress⟩ := address?_render hweb h.isBody_opaquePart hfragment hquery
  exact ⟨a', haddress.trans hread, (scheme_of_hierarchy? hread).trans rfl, hplace⟩

/-! Another path in place of the one of an address. -/

/-- A slash is written for no other character. -/
theorem eq_slash_of_encode {s : String} {more : List Char}
    (h : (encode isPathChar s).toList = '/' :: more) :
    ∃ rest, s.toList = '/' :: rest ∧ (encode isPathChar (String.ofList rest)).toList = more := by
  rw [encode, String.toList_ofList] at h
  cases hs : s.toList with
  | nil =>
    rw [hs] at h
    cases h
  | cons c rest =>
    rw [hs, List.flatMap_cons] at h
    split at h
    · obtain ⟨rfl, hrest⟩ := List.cons.inj h
      exact ⟨rest, rfl, by rwa [encode, String.toList_ofList, String.toList_ofList]⟩
    · obtain ⟨byte, bytes, hbytes⟩ := List.exists_cons_of_ne_nil (bytesOf_ne_nil c)
      rw [hbytes] at h
      exact absurd (List.cons.inj h).1 (by decide)

/-- A path that is written starts with two slashes only if the path does. -/
theorem isRooted_of_encodedPath {more : List Char} (h : a.encodedPath.toList = '/' :: more)
    (hmore : IsRooted more) : ∃ rest, a.path.toList = '/' :: rest ∧ IsRooted rest := by
  obtain ⟨more, rfl⟩ := List.head?_eq_some_iff.mp hmore
  unfold Address.encodedPath at h
  split at h
  · rename_i hwritten
    rw [Bool.and_eq_true, decide_eq_true_eq] at hwritten
    have hdecoded := hwritten.2
    rw [← String.ofList_toList (s := a.writtenPath), h,
      percentDecode?_cons (by decide) (by decide)] at hdecoded
    obtain ⟨decoded, hrest, heq⟩ := Option.map_eq_some_iff.mp hdecoded
    obtain ⟨rest, hrest⟩ := percentDecode?_slash hrest
    exact ⟨decoded.toList, by rw [← heq, String.toList_ofList], hrest ▸ List.head?_cons⟩
  · split at h
    · cases h
    · obtain ⟨rest, hrest, hencoded⟩ := eq_slash_of_encode h
      obtain ⟨rest', hrest', -⟩ := eq_slash_of_encode hencoded
      rw [String.toList_ofList] at hrest'
      exact ⟨rest, hrest, hrest' ▸ List.head?_cons⟩

/-- An address with another path can be written, if the path is from the root where the path before
was. -/
theorem HasParts.isWritable (h : HasParts a) (hplace : HasPlace a) {path : String}
    (hpath : path ≠ "") (hrooted : IsRooted a.path.toList →
      ∃ rest, path.toList = '/' :: rest ∧ ¬ IsRooted rest) :
    IsWritable { a with path } := by
  cases h with
  | opaquePart hbody hne hunrooted =>
    exact .opaquePart hbody (fun hnone => hne (by rw [hnone]; rfl)) hunrooted
  | path hpart hhostless hhost huser hpathRooted hwritten =>
    obtain ⟨rest, hrest, hunrooted⟩ := hrooted hpathRooted
    have hencoded := isRooted_encodedPath (a := { a with path })
      (hrest ▸ List.head?_cons) (.inr hwritten)
    obtain ⟨more, hmore⟩ := List.head?_eq_some_iff.mp hencoded
    refine .path hpart hhostless hhost huser hmore fun hslash => ?_
    obtain ⟨rest', hrest', hslash'⟩ := isRooted_of_encodedPath hmore hslash
    cases hrest.symm.trans hrest'
    exact hunrooted hslash'
  | host hpart hhostless hhost hpaths =>
    refine .host hpart hhostless hhost hpath ?_
    rcases hpaths with ⟨hnone, -⟩ | ⟨hpathRooted, hwritten⟩
    · exact .inr (hplace.resolve_right (by simp [hnone, hpart]))
    · obtain ⟨rest, hrest, -⟩ := hrooted hpathRooted
      exact .inl (isRooted_encodedPath (a := { a with path })
        (hrest ▸ List.head?_cons) (.inr hwritten))

end ApiTypes.Location
