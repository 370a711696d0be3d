import ApiTypes.PathsEnum
import ApiTypes.Proofs.FreshNames
import ApiTypes.Proofs.Spelling

/-!
The names of enum members. Texts that differ can be written as one name, so the second and later
occurrences of a name are numbered. But a name is numbered without a look at the others: what comes
out can be the name of another member, and a name in quotes gets its number after the closing quote.
Apart from these two cases the names are different and can stand in an enum.
-/

namespace ApiTypes

variable {seen names texts : List String}

/-! Names that are numbered by how often they have come before. -/

/-- Each name with how often it has come before. -/
def occurrences (seen : List String) : List String → List (String × Nat)
  | [] => []
  | name :: rest => (name, seen.count name) :: occurrences (name :: seen) rest

/-- A name as it is written after some earlier occurrences. -/
def numbered (entry : String × Nat) : String :=
  if entry.2 = 0 then entry.1 else entry.1 ++ "_" ++ toString (entry.2 + 1)

@[simp] theorem numbered_zero (name : String) : numbered (name, 0) = name := rfl

theorem numbered_of_pos {name : String} {earlier : Nat} (h : 0 < earlier) :
    numbered (name, earlier) = name ++ "_" ++ toString (earlier + 1) := if_neg (Nat.ne_of_gt h)

theorem numbered_numbers (name : String) (earlier : Nat) :
    Numbers name (numbered (name, earlier)) := by
  rcases Nat.eq_zero_or_pos earlier with rfl | hpos
  · exact .inl rfl
  · exact .inr ⟨_, numbered_of_pos hpos⟩

theorem numberRepeats_eq (seen names : List String) :
    numberRepeats seen names = (occurrences seen names).map numbered := by
  induction names generalizing seen with
  | nil => rfl
  | cons name rest ih => rw [numberRepeats, occurrences, List.map_cons, ih]; rfl

theorem mem_occurrences {name : String} {earlier : Nat} :
    (name, earlier) ∈ occurrences seen names ↔
      seen.count name ≤ earlier ∧ earlier < seen.count name + names.count name := by
  induction names generalizing seen with
  | nil => simp [occurrences]
  | cons first rest ih =>
    rw [occurrences, List.mem_cons, Prod.mk.injEq, ih]
    by_cases hsame : first = name
    · subst hsame
      simp only [List.count_cons_self, true_and]
      omega
    · simp only [List.count_cons_of_ne hsame, Ne.symm hsame, false_and, false_or]

theorem nodup_occurrences (seen names : List String) : (occurrences seen names).Nodup := by
  induction names generalizing seen with
  | nil => exact List.nodup_nil
  | cons name rest ih =>
    refine List.nodup_cons.mpr ⟨fun hmem => ?_, ih _⟩
    have hlater := (mem_occurrences.mp hmem).1
    rw [List.count_cons_self] at hlater
    omega

/-- A number after an underscore can be told from what is in front. -/
theorem numbered_inj {name name' : String} {n n' : Nat}
    (h : name ++ "_" ++ toString n = name' ++ "_" ++ toString n') : name = name' ∧ n = n' := by
  have hreversed := congrArg (fun text => text.toList.reverse) h
  simp only [String.toList_append, List.reverse_append, List.append_assoc] at hreversed
  have hcut (name : String) (n : Nat) : Text.cutChars '_'
      ((toString n).toList.reverse ++ ("_".toList.reverse ++ name.toList.reverse)) =
        some ((toString n).toList.reverse, name.toList.reverse) :=
    Text.cutChars_append (by simp) _
  have hsome := congrArg (Text.cutChars '_') hreversed
  rw [hcut name n, hcut name' n'] at hsome
  obtain ⟨hnumber, hname⟩ := Prod.mk.inj (Option.some.inj hsome)
  exact ⟨String.toList_inj.mp (List.reverse_injective hname),
    toString_injective (String.toList_inj.mp (List.reverse_injective hnumber))⟩

/-- Numbered names are different exactly if none of the names is one that a number gives. -/
theorem nodup_numberRepeats_iff (names : List String) :
    (numberRepeats [] names).Nodup ↔
      ∀ name ∈ names, ∀ n, 2 ≤ n → n ≤ names.count name → name ++ "_" ++ toString n ∉ names := by
  have hmem {name : String} {earlier : Nat} :
      (name, earlier) ∈ occurrences [] names ↔ earlier < names.count name := by
    rw [mem_occurrences, List.count_nil, Nat.zero_add]
    exact and_iff_right (Nat.zero_le _)
  have hin {name : String} {earlier : Nat} (h : earlier < names.count name) : name ∈ names :=
    List.count_pos_iff.mp (Nat.zero_lt_of_lt h)
  rw [numberRepeats_eq, List.nodup_map_iff_inj_on (nodup_occurrences [] names)]
  constructor
  · intro h name hname n hn hle hnumber
    have hsame := h (name, n - 1) (hmem.mpr (by omega)) (name ++ "_" ++ toString n, 0)
      (hmem.mpr (List.count_pos_iff.mpr hnumber)) (by
        rw [numbered_of_pos (by omega), numbered_zero, Nat.sub_add_cancel (by omega)])
    have hzero : n - 1 = 0 := congrArg Prod.snd hsame
    omega
  · rintro h ⟨name, earlier⟩ hfirst ⟨name', earlier'⟩ hsecond hsame
    rw [hmem] at hfirst hsecond
    -- A name without a number is met by none with a number, and those by no other.
    have hfree {name name' : String} {earlier : Nat} (hpos : 0 < earlier)
        (hfirst : earlier < names.count name) (hsecond : name' ∈ names) :
        name' ≠ name ++ "_" ++ toString (earlier + 1) := by
      rintro rfl
      exact h name (hin hfirst) (earlier + 1) (by omega) (by omega) hsecond
    rcases Nat.eq_zero_or_pos earlier with rfl | hpos <;>
      rcases Nat.eq_zero_or_pos earlier' with rfl | hpos'
    · rw [numbered_zero, numbered_zero] at hsame
      rw [hsame]
    · rw [numbered_zero, numbered_of_pos hpos'] at hsame
      exact absurd hsame (hfree hpos' hsecond (hin hfirst))
    · rw [numbered_zero, numbered_of_pos hpos] at hsame
      exact absurd hsame.symm (hfree hpos hfirst (hin hsecond))
    · rw [numbered_of_pos hpos, numbered_of_pos hpos'] at hsame
      obtain ⟨rfl, heq⟩ := numbered_inj hsame
      rw [Nat.succ.inj heq]

/-! Names of members. -/

/-- What can stand in an enum as the name of a member: an identifier or one string literal. -/
def IsMemberName (name : String) : Prop :=
  Text.isIdentifier name = true ∨ ∃ text, name = Text.quote text

/-- Where the first character is no digit, replacing what cannot stand in a name makes an
identifier. -/
theorem isIdentifierChars_replaced {c : Char} (hc : Text.isDigit c = false) (rest : List Char) :
    Text.isIdentifierChars (((c :: rest).flatMap fun c =>
      if c = '+' then "Plus".toList else [c]).map fun c =>
        if isMemberChar c then c else '_') = true := by
  have hreplaced (d : Char) : isMemberChar (if isMemberChar d then d else '_') = true := by
    split
    · assumption
    · decide
  rw [List.flatMap_cons, List.map_append]
  refine isIdentifierChars_append ?_ fun d hd => ?_
  · split
    · decide
    · have hstart : Text.isIdentifierStart (if isMemberChar c then c else '_') = true := by
        split
        · rename_i hmember
          simpa [isMemberChar, hc] using hmember
        · decide
      simp [Text.isIdentifierChars, hstart]
  · obtain ⟨e, -, rfl⟩ := List.mem_map.mp hd
    exact hreplaced e

theorem isMemberName_enumMemberName (text : String) : IsMemberName (enumMemberName text) := by
  unfold enumMemberName
  split
  · exact .inl (by decide)
  · rename_i hne
    split
    · exact .inl (by assumption)
    · extract_lets cs
      split
      · have hcs : ∃ c rest, cs = c :: rest ∧ Text.isDigit c = false := by
          unfold cs
          split
          · exact ⟨'V', _, rfl, by decide⟩
          · split
            · exact ⟨'V', _, rfl, by decide⟩
            · rename_i hdigit
              exact ⟨_, _, rfl, Bool.eq_false_iff.mpr hdigit⟩
          · rename_i hempty
            exact absurd (String.toList_eq_nil_iff.mp hempty) hne
        obtain ⟨c, rest, hcs, hc⟩ := hcs
        left
        rw [Text.isIdentifier, String.toList_ofList, hcs]
        exact isIdentifierChars_replaced hc rest
      · exact .inr ⟨text, rfl⟩

/-- A number after a name in quotes makes something else of it. -/
theorem not_isMemberName_quote (text : String) (n : Nat) :
    ¬ IsMemberName (Text.quote text ++ "_" ++ toString n) := by
  have hfront : (Text.quote text ++ "_" ++ toString n).toList.head? = some '"' := by
    simp [Text.quote]
  rintro (hidentifier | ⟨text', hquote⟩)
  · unfold Text.isIdentifier at hidentifier
    cases hlist : (Text.quote text ++ "_" ++ toString n).toList with
    | nil => rw [hlist] at hfront; cases hfront
    | cons c rest =>
      rw [hlist] at hfront hidentifier
      cases hfront
      rw [Text.isIdentifierChars, Bool.and_eq_true] at hidentifier
      exact absurd hidentifier.1 (by decide)
  · have hlast := congrArg (fun text => text.toList.getLast?) hquote
    have hdigits : (toString n).toList ≠ [] := by simp
    simp only [String.toList_append, List.getLast?_append_of_ne_nil _ hdigits] at hlast
    have hquoted : (Text.quote text').toList.getLast? = some '"' := by
      rw [Text.quote, String.toList_ofList]
      exact List.getLast?_concat
    rw [hquoted] at hlast
    exact absurd (isDigit_of_mem_toString (List.mem_of_getLast? hlast)) (by decide)

/-- What is to be said on the names of members that are made from texts. The names are different
exactly if no name is what another one gets with a number, and all of them can stand in an enum
exactly if no name in quotes is repeated. -/
structure NamedFrom (texts names : List String) : Prop where
  distinct : names.Nodup ↔ ∀ name ∈ texts.map enumMemberName, ∀ n, 2 ≤ n →
    n ≤ (texts.map enumMemberName).count name →
      name ++ "_" ++ toString n ∉ texts.map enumMemberName
  written : (∀ name ∈ names, IsMemberName name) ↔ ∀ name ∈ texts.map enumMemberName,
    Text.isIdentifier name = true ∨ (texts.map enumMemberName).count name = 1

theorem namedFrom_numberRepeats (texts : List String) :
    NamedFrom texts (numberRepeats [] (texts.map enumMemberName)) := by
  refine ⟨nodup_numberRepeats_iff _, ?_⟩
  constructor
  · intro h name hname
    obtain ⟨text, -, rfl⟩ := List.mem_map.mp hname
    rcases isMemberName_enumMemberName text with hidentifier | ⟨quoted, hquote⟩
    · exact .inl hidentifier
    · right
      by_contra hrepeated
      have hpos := List.count_pos_iff.mpr hname
      have hsecond : (enumMemberName text, 1) ∈ occurrences [] (texts.map enumMemberName) :=
        mem_occurrences.mpr ⟨Nat.zero_le _, by rw [List.count_nil]; omega⟩
      have hnumbered := h _ (numberRepeats_eq [] _ ▸ List.mem_map_of_mem hsecond)
      rw [numbered_of_pos Nat.one_pos, hquote] at hnumbered
      exact not_isMemberName_quote quoted _ hnumbered
  · intro h name hname
    rw [numberRepeats_eq] at hname
    obtain ⟨⟨base, earlier⟩, hoccurs, rfl⟩ := List.mem_map.mp hname
    have hcount := (mem_occurrences.mp hoccurs).2
    rw [List.count_nil, Nat.zero_add] at hcount
    have hbase : base ∈ texts.map enumMemberName :=
      List.count_pos_iff.mp (Nat.zero_lt_of_lt hcount)
    rcases h base hbase with hidentifier | honce
    · exact .inl (isIdentifier_of_numbers hidentifier (numbered_numbers base earlier))
    · obtain rfl : earlier = 0 := by omega
      obtain ⟨text, -, rfl⟩ := List.mem_map.mp hbase
      exact isMemberName_enumMemberName text

/-! The two kinds of enums. -/

/-- The texts that the members of the enum of a schema are named after: those that the schema lists
for it, or else the values. -/
def memberTexts (s : Schema) : List String :=
  let names := ((extensionTexts? s "x-enum-varnames").orElse fun _ =>
    extensionTexts? s "x-enumNames").getD []
  (((s.enum.getD []).zipIdx).filter fun (v, _) => v != .null).map fun (v, i) =>
    if names.getD i "" = "" then v.describe else names.getD i ""

/-- The texts that the members of the enum of paths are named after: the ids of the operations, or
else their methods and paths. -/
def operationTexts (paths : Option PathItems) : List String :=
  (listedOperations paths).map fun (path, method, o) =>
    if o.operationId = "" then methodPathName method.name path else o.operationId

theorem length_numberRepeats (seen names : List String) :
    (numberRepeats seen names).length = names.length := by
  induction names generalizing seen with
  | nil => rfl
  | cons name rest ih => rw [numberRepeats, List.length_cons, ih, List.length_cons]

theorem names_enumMembers (s : Schema) :
    (enumMembers s).map (·.name) = numberRepeats [] ((memberTexts s).map enumMemberName) := by
  unfold enumMembers memberTexts
  extract_lets names descriptions listed named
  have hnamed : named = (listed.map fun (v, i) =>
      if names.getD i "" = "" then v.describe else names.getD i "").map enumMemberName := by
    rw [List.map_map]
    rfl
  rw [List.map_map, ← hnamed]
  exact List.map_snd_zip (by rw [length_numberRepeats, List.length_map])

theorem names_pathsEnum (paths : Option PathItems) : ∃ members,
    pathsEnum paths = .enum "ApiPaths" members true [] ∧ members.map (·.name) =
      numberRepeats [] ((operationTexts paths).map enumMemberName) := by
  unfold pathsEnum operationTexts
  extract_lets operations names members
  have hnames : names = (operations.map fun (path, method, o) =>
      if o.operationId = "" then methodPathName method.name path else o.operationId).map
        enumMemberName := by
    rw [List.map_map]
    rfl
  refine ⟨members, rfl, ?_⟩
  rw [← hnames, List.map_map]
  exact List.map_snd_zip (by rw [length_numberRepeats, List.length_map])

/-- What is declared are the enums of the schemas that enums have been asked for. -/
theorem EnumRegistry.mem_decls_hoistAll {requests : List (String × Schema)} {r : EnumRegistry}
    {d : Decl} (h : d ∈ (r.hoistAll requests).2.decls) : d ∈ r.decls ∨
      ∃ request ∈ requests, ∃ name, d = .enum name (enumMembers request.2) true request.2.doc := by
  induction requests generalizing r with
  | nil => exact .inl h
  | cons request rest ih =>
    rcases ih h with hfirst | ⟨other, hother, hd⟩
    · dsimp only [EnumRegistry.hoist] at hfirst
      split at hfirst
      · exact .inl hfirst
      · rcases List.mem_append.mp hfirst with hold | hnew
        · exact .inl hold
        · exact .inr ⟨request, List.mem_cons_self, _, List.mem_singleton.mp hnew⟩
    · exact .inr ⟨other, List.mem_cons_of_mem _ hother, hd⟩

/-- The names of the members of every enum that is declared for a schema, and of the enum of
paths. -/
theorem member_names_exact (requests : List (String × Schema)) (paths : Option PathItems) :
    (∀ d ∈ (EnumRegistry.hoistAll {} requests).2.decls, ∃ request ∈ requests, ∃ name members,
      d = .enum name members true request.2.doc ∧
        NamedFrom (memberTexts request.2) (members.map (·.name))) ∧
    ∃ members, pathsEnum paths = .enum "ApiPaths" members true [] ∧
      NamedFrom (operationTexts paths) (members.map (·.name)) := by
  refine ⟨fun d hd => ?_, ?_⟩
  · rcases EnumRegistry.mem_decls_hoistAll hd with hnone | ⟨request, hrequest, name, rfl⟩
    · cases hnone
    · refine ⟨request, hrequest, name, _, rfl, ?_⟩
      rw [names_enumMembers]
      exact namedFrom_numberRepeats _
  · obtain ⟨members, henum, hnames⟩ := names_pathsEnum paths
    refine ⟨members, henum, ?_⟩
    rw [hnames]
    exact namedFrom_numberRepeats _

/-- Three values, of which two are written as one name, and the third as that name with a number. -/
def spacedValues : Schema where
  enum := some [.text "a b", .text "a-b", .text "a b 2"]

/-- Two values that are to have one name, which can only be quoted. -/
def markedValues : Schema where
  enum := some [.text "yes", .text "no"]
  extensions := [("x-enum-varnames", .list [.text "!", .text "!"])]

/-- A numbered name can be that of another member, and a number can come after a closing quote. -/
theorem member_names_clash :
    ((enumMembers spacedValues).map (·.name) = ["a_b", "a_b_2", "a_b_2"] ∧
      ¬ ((enumMembers spacedValues).map (·.name)).Nodup) ∧
    (enumMembers markedValues).map (·.name) =
        [Text.quote "!", Text.quote "!" ++ "_" ++ toString 2] ∧
      ¬ ∀ name ∈ (enumMembers markedValues).map (·.name), IsMemberName name := by
  have hspaced : (enumMembers spacedValues).map (·.name) = ["a_b", "a_b_2", "a_b_2"] := by
    decide +kernel
  have hmarked : (enumMembers markedValues).map (·.name) =
      [Text.quote "!", Text.quote "!" ++ "_" ++ toString 2] := by decide +kernel
  refine ⟨⟨hspaced, by rw [hspaced]; decide⟩, hmarked, fun h => ?_⟩
  rw [hmarked] at h
  exact not_isMemberName_quote "!" 2 (h _ (by simp))

end ApiTypes
