import ApiTypes.Proofs.Reading.Grammar
import ApiTypes.Typing.Path
import Mathlib.Data.List.Infix

/-!
Paths as template literals. A path is cut at the names that stand in braces in it, from left to
right, and fixed texts without such names are left between them. Put together again, names and fixed
texts spell the path, and the literal that is printed for them is read back as the same texts with a
type in place of each name, whatever characters the path has.
-/

namespace ApiTypes

namespace PathTemplate

/-! Names in braces. -/

/-- What may stand in braces as a name: some characters, none of which is a brace. -/
structure IsName (name : List Char) : Prop where
  nonempty : name ≠ []
  plain : ∀ c ∈ name, c ≠ '\x7b' ∧ c ≠ '\x7d'

/-- A name in braces. -/
def braced (name : List Char) : List Char := '\x7b' :: (name ++ ['\x7d'])

/-- The name that stands in braces at the front of a text. -/
def nameAt? : List Char → Option (List Char)
  | [] => none
  | c :: rest =>
    let name := rest.takeWhile isNameChar
    if c = '\x7b' && !name.isEmpty && (rest.drop name.length).head? = some '\x7d' then some name
    else none

/-- The names that stand in braces anywhere in a text, from left to right. -/
def names (cs : List Char) : List (List Char) := cs.tails.filterMap nameAt?

variable {c : Char} {cs name rest after : List Char}

theorem takeWhile_of_isName (h : IsName name) (after : List Char) :
    (name ++ '\x7d' :: after).takeWhile isNameChar = name := by
  rw [List.takeWhile_append_of_pos fun c hc => by simpa [isNameChar] using h.plain c hc]
  simp [isNameChar]

theorem nameAt?_braced (h : IsName name) (after : List Char) :
    nameAt? (braced name ++ after) = some name := by
  simp [nameAt?, braced, takeWhile_of_isName h, h.nonempty]

/-- A name stands in braces at the front of a text if the text begins with it and its braces. -/
theorem nameAt?_eq_some_iff : nameAt? cs = some name ↔ IsName name ∧ braced name <+: cs := by
  constructor
  · intro h
    cases cs with
    | nil => simp [nameAt?] at h
    | cons c rest =>
      simp only [nameAt?, Option.ite_none_right_eq_some, Bool.and_eq_true, decide_eq_true_eq,
        Option.some.injEq] at h
      obtain ⟨⟨⟨rfl, hname⟩, hclose⟩, rfl⟩ := h
      obtain ⟨after, hafter⟩ := List.head?_eq_some_iff.mp hclose
      have hplain (c : Char) (hc : c ∈ rest.takeWhile isNameChar) : c ≠ '\x7b' ∧ c ≠ '\x7d' := by
        simpa [isNameChar] using List.mem_takeWhile_imp hc
      refine ⟨⟨by simpa using hname, hplain⟩, after, ?_⟩
      have hrest := List.prefix_iff_eq_append.mp (List.takeWhile_prefix isNameChar (l := rest))
      rw [hafter] at hrest
      simpa [braced] using hrest
  · rintro ⟨hname, after, rfl⟩
    exact nameAt?_braced hname after

theorem names_cons (c : Char) (rest : List Char) :
    names (c :: rest) = (nameAt? (c :: rest)).toList ++ names rest := by
  cases h : nameAt? (c :: rest) <;> simp [names, h]

/-- No name in braces begins at a character other than the brace. -/
theorem names_append (h : '\x7b' ∉ cs) (after : List Char) : names (cs ++ after) = names after := by
  induction cs with
  | nil => simp
  | cons c rest ih =>
    simp only [List.mem_cons, not_or] at h
    have hnone : nameAt? (c :: (rest ++ after)) = none := by simp [nameAt?, Ne.symm h.1]
    rw [List.cons_append, names_cons, hnone, ih h.2]
    simp

/-- Names in braces do not overlap. -/
theorem names_braced (h : IsName name) (after : List Char) :
    names (braced name ++ after) = name :: names after := by
  have hinside : '\x7b' ∉ name ++ ['\x7d'] := by
    intro hmem
    rcases List.mem_append.mp hmem with hname | hclose
    · exact (h.plain _ hname).1 rfl
    · simp at hclose
  have hfront : braced name ++ after = '\x7b' :: (name ++ ['\x7d'] ++ after) := rfl
  have hat := nameAt?_braced h after
  rw [hfront] at hat ⊢
  rw [names_cons, hat, names_append hinside]
  simp

/-! The cut. -/

theorem cut_braced (h : IsName name) (after : List Char) :
    cut (braced name ++ after) = ([], (name, (cut after).1) :: (cut after).2) := by
  have hfront : braced name ++ after = '\x7b' :: (name ++ '\x7d' :: after) := by simp [braced]
  rw [hfront, cut]
  simp [takeWhile_of_isName h, h.nonempty]

theorem cut_cons (h : nameAt? (c :: rest) = none) :
    cut (c :: rest) = (c :: (cut rest).1, (cut rest).2) := by
  simp only [nameAt?, ite_eq_right_iff, reduceCtorEq, imp_false] at h
  rw [cut, if_neg h]

/-- A text is over, or it goes on with a character or with a name in braces. -/
theorem cut_induction {motive : List Char → Prop} (nil : motive [])
    (cons : ∀ c rest, nameAt? (c :: rest) = none → motive rest → motive (c :: rest))
    (braced : ∀ name after, IsName name → motive after → motive (braced name ++ after))
    (cs : List Char) : motive cs := by
  induction hlength : cs.length using Nat.strong_induction_on generalizing cs with
  | _ n ih =>
    subst hlength
    cases cs with
    | nil => exact nil
    | cons c rest =>
      cases hname : nameAt? (c :: rest) with
      | none => exact cons c rest hname (ih rest.length (by simp) rest rfl)
      | some name =>
        obtain ⟨hname, after, heq⟩ := nameAt?_eq_some_iff.mp hname
        have hshorter : after.length < (c :: rest).length := by
          simp only [← heq, PathTemplate.braced, List.length_append, List.length_cons]
          omega
        rw [← heq]
        exact braced name after hname (ih after.length hshorter after rfl)

/-- The text that fixed text and names in braces spell. -/
def spellChars (parts : List Char × List (List Char × List Char)) : List Char :=
  parts.1 ++ parts.2.flatMap fun (name, tail) => braced name ++ tail

theorem spellChars_cut (cs : List Char) : spellChars (cut cs) = cs := by
  induction cs using cut_induction with
  | nil => simp [cut, spellChars]
  | cons c rest hnone ih =>
    rw [spellChars] at ih
    rw [cut_cons hnone, spellChars, List.cons_append, ih]
  | braced name after hname ih =>
    rw [spellChars] at ih
    rw [cut_braced hname, spellChars, List.flatMap_cons, List.nil_append, List.append_assoc, ih]

theorem names_cut (cs : List Char) : (cut cs).2.map (·.1) = names cs := by
  induction cs using cut_induction with
  | nil => simp [cut, names, nameAt?]
  | cons c rest hnone ih => simp [cut_cons hnone, names_cons, hnone, ih]
  | braced name after hname ih => simp [cut_braced hname, names_braced hname, ih]

/-- No name in braces is left in the fixed texts. -/
theorem names_of_mem_cut (cs : List Char) :
    ∀ text ∈ (cut cs).1 :: (cut cs).2.map (·.2), names text = [] := by
  induction cs using cut_induction with
  | nil => simp [cut, names, nameAt?]
  | cons c rest hnone ih =>
    obtain ⟨hhead, htails⟩ := List.forall_mem_cons.mp ih
    rw [cut_cons hnone]
    refine List.forall_mem_cons.mpr ⟨?_, htails⟩
    have hfront : (cut rest).1 <+: rest := ⟨_, spellChars_cut rest⟩
    have hnone' : nameAt? (c :: (cut rest).1) = none := by
      by_contra hsome
      obtain ⟨name, hname⟩ := Option.ne_none_iff_exists'.mp hsome
      obtain ⟨hname, hprefix⟩ := nameAt?_eq_some_iff.mp hname
      have hwhole := hprefix.trans ((List.prefix_cons_inj c).mpr hfront)
      rw [nameAt?_eq_some_iff.mpr ⟨hname, hwhole⟩] at hnone
      simp at hnone
    rw [names_cons, hnone', hhead]
    simp
  | braced name after hname ih =>
    rw [cut_braced hname]
    exact List.forall_mem_cons.mpr ⟨by simp [names, nameAt?], ih⟩

end PathTemplate

namespace Text

/-! The escapes of a template literal. -/

/-- Replaces every place of `old`, from left to right; `skip` characters of the last place are still
to be passed over. -/
def replaceAll (old new : List Char) : (skip : Nat) → List Char → List Char
  | _, [] => []
  | skip + 1, _ :: rest => replaceAll old new skip rest
  | 0, c :: rest =>
    if old.isPrefixOf (c :: rest) then new ++ replaceAll old new (old.length - 1) rest
    else c :: replaceAll old new 0 rest

theorem replaceAll_singleton (mark : Char) (new cs : List Char) :
    replaceAll [mark] new 0 cs = cs.flatMap fun c => if c = mark then new else [c] := by
  induction cs with
  | nil => simp [replaceAll]
  | cons c rest ih =>
    by_cases hc : c = mark
    · subst hc
      simp [replaceAll, ih]
    · simp [replaceAll, hc, Ne.symm hc, ih]

/-- What a backslash or a backtick becomes on its own. -/
def escapeMark (c : Char) : List Char := if c = '\\' || c = '\x60' then ['\\', c] else [c]

theorem head?_flatMap_escapeMark {cs : List Char} :
    (cs.flatMap escapeMark).head? = some '\x7b' ↔ cs.head? = some '\x7b' := by
  cases cs with
  | nil => simp
  | cons c rest =>
    by_cases hmark : c = '\\' ∨ c = '\x60'
    · rcases hmark with rfl | rfl <;> simp [escapeMark]
    · simp [escapeMark, hmark]

/-- Dollars that would open a hole are found as well when the other marks have been escaped. -/
theorem escapeTemplateChars_eq_flatMap (cs : List Char) : escapeTemplateChars cs =
    replaceAll ['$', '\x7b'] ['\\', '$', '\x7b'] 0 (cs.flatMap escapeMark) := by
  fun_induction escapeTemplateChars cs with
  | case1 => simp [replaceAll]
  | case2 rest ih => simp [escapeMark, replaceAll, ih]
  | case3 c rest hopen hmark ih =>
    have hc : c ≠ '$' := by
      rintro rfl
      simp at hmark
    rw [List.flatMap_cons, escapeMark, if_pos (by simpa using hmark)]
    simp [replaceAll, ih, Ne.symm hc]
  | case4 c rest hopen hmark ih =>
    have hhole : ¬ (c = '$' ∧ (rest.flatMap escapeMark).head? = some '\x7b') := by
      rw [head?_flatMap_escapeMark]
      rintro ⟨rfl, hhead⟩
      obtain ⟨more, rfl⟩ := List.head?_eq_some_iff.mp hhead
      exact hopen more rfl rfl
    have hprefix : ¬ ['$', '\x7b'].isPrefixOf (c :: rest.flatMap escapeMark) = true := by
      rw [List.isPrefixOf_iff_prefix]
      rintro ⟨more, heq⟩
      obtain ⟨rfl, hrest⟩ := List.cons.inj heq
      exact hhole ⟨rfl, by simp [← hrest]⟩
    rw [List.flatMap_cons, escapeMark, if_neg (by simpa using hmark), List.singleton_append,
      replaceAll, if_neg hprefix, ih]

/-- The escapes are three replacements one after another, of backslashes, of backticks, and of
dollars that would open a hole. The later ones meet the backslashes of the earlier ones, and leave
them alone. -/
theorem escapeTemplateChars_eq_replaceAll (cs : List Char) : escapeTemplateChars cs =
    replaceAll ['$', '\x7b'] ['\\', '$', '\x7b'] 0
      (replaceAll ['\x60'] ['\\', '\x60'] 0 (replaceAll ['\\'] ['\\', '\\'] 0 cs)) := by
  have hmarks : replaceAll ['\x60'] ['\\', '\x60'] 0 (replaceAll ['\\'] ['\\', '\\'] 0 cs) =
      cs.flatMap escapeMark := by
    rw [replaceAll_singleton, replaceAll_singleton, List.flatMap_assoc]
    apply List.flatMap_congr
    intro c _
    by_cases hslash : c = '\\'
    · simp [escapeMark, hslash]
    · by_cases htick : c = '\x60' <;> simp [escapeMark, hslash, htick]
  rw [hmarks, escapeTemplateChars_eq_flatMap]

end Text

namespace Reader

/-! Reading a template literal. -/

/-- A character of fixed text. A backslash stands for the character behind it; the text ends where
the literal ends or a hole opens. -/
def fixedChar : Reader Char
  | [] | ['\\'] => none
  | '\\' :: c :: rest => some (c, rest)
  | c :: rest =>
    if c = '\x60' || c = '$' && rest.head? = some '\x7b' then none else some (c, rest)

def fixedText : Reader String := String.ofList <$> many fixedChar

section Template

variable (inner : Reader TypeExpr)

/-- A type in a hole and the fixed text behind it. -/
def span : Reader (TypeExpr × String) := do
  let type ← between "$\x7b" "\x7d" inner
  let tail ← fixedText
  pure (type, tail)

/-- Fixed text and holes in turn. -/
def templateBody : Reader (String × List (TypeExpr × String)) := do
  let head ← fixedText
  let spans ← many (span inner)
  pure (head, spans)

def template : Reader (String × List (TypeExpr × String)) :=
  between "\x60" "\x60" (templateBody inner)

end Template

/-- What ends fixed text: a hole or the end of the literal. -/
def EndsText (rest : List Char) : Prop :=
  (∃ more, rest = '\x60' :: more) ∨ ∃ more, rest = '$' :: '\x7b' :: more

theorem fixedChar_escaped (c : Char) (rest : List Char) :
    fixedChar ('\\' :: c :: rest) = some (c, rest) := rfl

theorem fixedChar_plain {c : Char} {rest : List Char} (hslash : c ≠ '\\') (htick : c ≠ '\x60')
    (hhole : c = '$' → rest.head? ≠ some '\x7b') : fixedChar (c :: rest) = some (c, rest) := by
  unfold fixedChar
  split <;> simp_all

theorem fixedChar_of_endsText {rest : List Char} (h : EndsText rest) : fixedChar rest = none := by
  obtain ⟨more, rfl⟩ | ⟨more, rfl⟩ := h <;> rfl

theorem endsText_of_not_brace {cs rest : List Char} (hrest : EndsText rest)
    (h : cs.head? ≠ some '\x7b') : (Text.escapeTemplateChars cs ++ rest).head? ≠ some '\x7b' := by
  fun_cases Text.escapeTemplateChars cs with
  | case1 => obtain ⟨more, rfl⟩ | ⟨more, rfl⟩ := hrest <;> simp
  | case2 rest => simp
  | case3 c rest => simp
  | case4 c rest => simpa using h

/-- Escaped text is read as the text, up to what ends it. -/
theorem manyWithin_fixedChar {rest : List Char} (hrest : EndsText rest) (cs : List Char)
    (steps : Nat) (hsteps : (Text.escapeTemplateChars cs).length ≤ steps) :
    manyWithin fixedChar steps (Text.escapeTemplateChars cs ++ rest) = (cs, rest) := by
  have hstep {c : Char} {text more : List Char} (h : fixedChar text = some (c, more)) (n : Nat) :
      manyWithin fixedChar (n + 1) text =
        (c :: (manyWithin fixedChar n more).1, (manyWithin fixedChar n more).2) := by
    rw [manyWithin, h]
  fun_induction Text.escapeTemplateChars cs generalizing steps with
  | case1 => cases steps <;> simp [manyWithin, fixedChar_of_endsText hrest]
  | case2 more ih =>
    obtain ⟨steps, rfl⟩ : ∃ n, steps = n + 2 := ⟨steps - 2, by simp at hsteps; omega⟩
    have hbrace : fixedChar ('\x7b' :: (Text.escapeTemplateChars more ++ rest)) =
        some ('\x7b', Text.escapeTemplateChars more ++ rest) :=
      fixedChar_plain (by simp) (by simp) (by simp)
    simp only [List.cons_append]
    simp only [List.length_cons] at hsteps
    rw [hstep (fixedChar_escaped _ _), hstep hbrace, ih steps (by omega)]
  | case3 c more hopen hmark ih =>
    obtain ⟨steps, rfl⟩ : ∃ n, steps = n + 1 := ⟨steps - 1, by simp at hsteps; omega⟩
    simp only [List.cons_append]
    rw [hstep (fixedChar_escaped _ _), ih steps (by simp at hsteps; omega)]
  | case4 c more hopen hmark ih =>
    obtain ⟨steps, rfl⟩ : ∃ n, steps = n + 1 := ⟨steps - 1, by simp at hsteps; omega⟩
    simp only [Bool.or_eq_true, decide_eq_true_eq, not_or] at hmark
    have hplain : fixedChar (c :: (Text.escapeTemplateChars more ++ rest)) =
        some (c, Text.escapeTemplateChars more ++ rest) := by
      refine fixedChar_plain hmark.1 hmark.2 fun hc => endsText_of_not_brace hrest fun hhead => ?_
      obtain ⟨tail, rfl⟩ := List.head?_eq_some_iff.mp hhead
      exact hopen tail hc rfl
    rw [List.cons_append, hstep hplain, ih steps (by simpa using hsteps)]

theorem reads_fixedText (s : String) :
    Reads fixedText (Text.escapeTemplate s).toList s EndsText := by
  have hmany : Reads (many fixedChar) (Text.escapeTemplate s).toList s.toList EndsText := by
    intro rest hrest
    rw [Text.escapeTemplate, String.toList_ofList, many,
      manyWithin_fixedChar hrest s.toList _ (by simp)]
  have htext := hmany.map String.ofList
  rwa [String.ofList_toList] at htext

/-- A hole as it is printed, and the fixed text behind it. -/
def spanText (depth : Nat) (entry : TypeExpr × String) : List Char :=
  "$\x7b".toList ++ (entry.1.print depth).toList ++ "\x7d".toList ++
    (Text.escapeTemplate entry.2).toList

/-- A hole begins with the two marks that end fixed text. -/
theorem spanText_eq (depth : Nat) (entry : TypeExpr × String) : spanText depth entry =
    '$' :: '\x7b' :: ((entry.1.print depth).toList ++ "\x7d".toList ++
      (Text.escapeTemplate entry.2).toList) := rfl

theorem toList_printSpans (depth : Nat) (spans : List (TypeExpr × String)) :
    (printSpans depth (spans.map fun (type, tail) => .mk type tail)).toList =
      spans.flatMap (spanText depth) := by
  induction spans with
  | nil => rfl
  | cons first more ih =>
    obtain ⟨type, tail⟩ := first
    have hfirst (rest : List TemplateSpan) : printSpans depth (.mk type tail :: rest) =
        "$\x7b" ++ type.print depth ++ "\x7d" ++ Text.escapeTemplate tail ++
          printSpans depth rest := rfl
    simp [hfirst, spanText_eq, ih]

theorem toList_render_template (head : String) (spans : List (TypeExpr × String)) :
    (TypeExpr.template head (spans.map fun (type, tail) => .mk type tail)).render.toList =
      "\x60".toList ++ ((Text.escapeTemplate head).toList ++ spans.flatMap (spanText 0)) ++
        "\x60".toList := by
  have htext (spans : List TemplateSpan) : (TypeExpr.template head spans).render =
      "\x60" ++ Text.escapeTemplate head ++ printSpans 0 spans ++ "\x60" := rfl
  simp [htext, toList_printSpans]

/-- Fixed text in front of holes ends at the first hole, or at the end of the literal. -/
theorem endsText_spans (depth : Nat) (spans : List (TypeExpr × String)) (more : List Char) :
    EndsText (spans.flatMap (spanText depth) ++ '\x60' :: more) := by
  cases spans with
  | nil => simp [EndsText]
  | cons entry spans => simp [EndsText, spanText_eq]

section Template

variable {inner : Reader TypeExpr}

theorem span_of_backtick (more : List Char) : span inner ('\x60' :: more) = none := by
  have hopen : exactly "$\x7b" ('\x60' :: more) = none := exactly_of_ne rfl (by decide) more
  exact bind_of_none (between_of_none hopen _ _) _

theorem reads_span {entry : TypeExpr × String}
    (h : Reads inner (entry.1.print 0).toList entry.1 fun rest => ∃ more, rest = '\x7d' :: more) :
    Reads (span inner) (spanText 0 entry) entry EndsText := by
  have htype := h.between "$\x7b" "\x7d" fun rest => ⟨rest, rfl⟩
  have htail := (reads_fixedText entry.2).thenPure fun tail => (entry.1, tail)
  exact htype.bind htail fun _ _ => trivial

/-- A printed template literal is read as its fixed texts and the types of its holes. -/
theorem reads_template (head : String) {spans : List (TypeExpr × String)}
    (hinner : ∀ entry ∈ spans,
      Reads inner (entry.1.print 0).toList entry.1 fun rest => ∃ more, rest = '\x7d' :: more) :
    Reads (template inner)
      (TypeExpr.template head (spans.map fun (type, tail) => .mk type tail)).render.toList
      (head, spans) Anything := by
  have hspan (entry) (hentry : entry ∈ spans) := reads_span (hinner entry hentry)
  have hspans : Reads (many (span inner)) (spans.flatMap (spanText 0)) (spans.map id)
      fun rest => ∃ more, rest = '\x60' :: more := by
    refine .many hspan ?nonempty ?between ?after
    case nonempty => simp [spanText_eq]
    case between =>
      intro entry _ rest
      exact .inr (by simp [spanText_eq])
    case after =>
      rintro _ ⟨more, rfl⟩
      exact ⟨.inl ⟨more, rfl⟩, span_of_backtick more⟩
  rw [List.map_id] at hspans
  have hnext (rest : List Char) (hrest : ∃ more, rest = '\x60' :: more) :
      EndsText (spans.flatMap (spanText 0) ++ rest) := by
    obtain ⟨more, rfl⟩ := hrest
    exact endsText_spans 0 spans more
  have hbody : Reads (templateBody inner) _ (head, spans) _ :=
    (reads_fixedText head).bind (hspans.thenPure fun spans => (head, spans)) hnext
  rw [toList_render_template]
  exact hbody.between "\x60" "\x60" fun rest => ⟨rest, rfl⟩

end Template

/-- What types of parameters can stand in a hole. -/
theorem reads_hole {type : TypeExpr} (h : type = .string ∨ type = .number) (depth : Nat) :
    Reads (typeWithin 1) (type.print depth).toList type
      fun rest => ∃ more, rest = '\x7d' :: more := by
  rintro _ ⟨more, rfl⟩
  rcases h with rfl | rfl
  · rw [show TypeExpr.string.print depth = "string" from rfl]
    rfl
  · rw [show TypeExpr.number.print depth = "number" from rfl]
    rfl

end Reader

namespace PathTemplate

/-! The whole path. -/

/-- The path that fixed text and names in braces spell. -/
def spell (t : PathTemplate) : String :=
  t.head ++ String.join (t.params.map fun (name, tail) => "\x7b" ++ name ++ "\x7d" ++ tail)

/-- The fixed texts, from left to right. -/
def texts (t : PathTemplate) : List String := t.head :: t.params.map (·.2)

/-- The names that stand in braces in a path, from left to right. -/
def paramNames (path : String) : List String := (names path.toList).map String.ofList

/-- What fills the holes: the type of a name where it is known, and a string type otherwise. -/
def spans (t : PathTemplate) (types : List (String × TypeExpr)) : List (TypeExpr × String) :=
  t.params.map fun (name, tail) => ((types.lookup name).getD .string, tail)

theorem ofPath_eq (path : String) : ofPath path =
    { head := String.ofList (cut path.toList).1
      params := (cut path.toList).2.map fun (name, tail) =>
        (String.ofList name, String.ofList tail) } := rfl

theorem spell_ofPath (path : String) : (ofPath path).spell = path := by
  have hparams (params : List (List Char × List Char)) :
      (String.join ((params.map fun (name, tail) => (String.ofList name, String.ofList tail)).map
        fun (name, tail) => "\x7b" ++ name ++ "\x7d" ++ tail)).toList =
          params.flatMap fun (name, tail) => braced name ++ tail := by
    simp [braced, List.flatMap_map]
  have hcut := spellChars_cut path.toList
  rw [spellChars] at hcut
  rw [← String.toList_inj, spell, ofPath_eq, String.toList_append, hparams, String.toList_ofList,
    hcut]

theorem names_ofPath (path : String) : (ofPath path).params.map (·.1) = paramNames path := by
  rw [ofPath_eq, paramNames, ← names_cut]
  simp

theorem paramNames_of_mem_texts (path : String) :
    ∀ text ∈ (ofPath path).texts, paramNames text = [] := by
  intro text htext
  have hcut := names_of_mem_cut path.toList text.toList
  have hmem : text.toList ∈ (cut path.toList).1 :: (cut path.toList).2.map (·.2) := by
    rw [texts, ofPath_eq] at htext
    simp only [List.map_map, List.mem_cons, List.mem_map] at htext ⊢
    obtain rfl | ⟨param, hparam, rfl⟩ := htext
    · simp
    · exact .inr ⟨param, hparam, by simp⟩
  rw [paramNames, hcut hmem, List.map_nil]

theorem spans_type {types : List (String × TypeExpr)}
    (htypes : ∀ entry ∈ types, entry.2 = .string ∨ entry.2 = .number) (t : PathTemplate) :
    ∀ entry ∈ t.spans types, entry.1 = .string ∨ entry.1 = .number := by
  intro entry hentry
  obtain ⟨⟨name, tail⟩, -, rfl⟩ := List.mem_map.mp hentry
  cases hlookup : types.lookup name with
  | none => simp [hlookup]
  | some type =>
    obtain ⟨before, after, heq, -⟩ := List.lookup_eq_some_iff.mp hlookup
    have hmem : (name, type) ∈ types := by simp [heq]
    simpa [hlookup] using htypes (name, type) hmem

/-- A path is cut at its names and nothing of it is lost: names and fixed texts spell it again, the
names are all that stand in braces, from left to right, and no fixed text has one. The literal that
is printed for it is read back as its fixed texts with the types of the names between them. -/
theorem ofPath_keeps_path (path : String) {types : List (String × TypeExpr)}
    (htypes : ∀ entry ∈ types, entry.2 = .string ∨ entry.2 = .number) :
    (ofPath path).spell = path ∧
    (ofPath path).params.map (·.1) = paramNames path ∧
    (∀ text ∈ (ofPath path).texts, paramNames text = []) ∧
    Reader.template (Reader.typeWithin 1) ((ofPath path).toType types).render.toList =
      some (((ofPath path).head, (ofPath path).spans types), []) := by
  have hholes (entry) (hentry : entry ∈ (ofPath path).spans types) :=
    Reader.reads_hole (spans_type htypes (ofPath path) entry hentry) 0
  have hread := Reader.reads_template (ofPath path).head hholes [] trivial
  have htype : (ofPath path).toType types = .template (ofPath path).head
      (((ofPath path).spans types).map fun (type, tail) => .mk type tail) := by
    simp [toType, spans]
  rw [List.append_nil, ← htype] at hread
  exact ⟨spell_ofPath path, names_ofPath path, paramNames_of_mem_texts path, hread⟩

/-- Every mark that has to be escaped, and an open brace of the path, right before a hole. -/
theorem ofPath_keeps_path_marks :
    (∀ entry ∈ [("id", TypeExpr.number)], entry.2 = .string ∨ entry.2 = .number) ∧
    (ofPath "/\x60\\$\x7b\x7bid\x7d$").spell = "/\x60\\$\x7b\x7bid\x7d$" ∧
    paramNames "/\x60\\$\x7b\x7bid\x7d$" = ["id"] ∧
    Reader.template (Reader.typeWithin 1)
        "\x60/\\\x60\\\\\\$\x7b$\x7bnumber\x7d$\x60".toList =
      some (("/\x60\\$\x7b", [(.number, "$")]), []) := by
  have htypes : ∀ entry ∈ [("id", TypeExpr.number)], entry.2 = .string ∨ entry.2 = .number := by
    simp
  obtain ⟨hspell, hnames, -, hread⟩ := ofPath_keeps_path "/\x60\\$\x7b\x7bid\x7d$" htypes
  have hparts : ofPath "/\x60\\$\x7b\x7bid\x7d$" = ⟨"/\x60\\$\x7b", [("id", "$")]⟩ := by
    simp [ofPath, cut, isNameChar]
  have htext : (TypeExpr.template "/\x60\\$\x7b" [.mk .number "$"]).render =
      "\x60/\\\x60\\\\\\$\x7b$\x7bnumber\x7d$\x60" := by decide
  rw [hparts] at hspell hnames hread
  rw [hparts]
  simp only [toType, spans, List.map_cons, List.map_nil, List.lookup, beq_self_eq_true,
    Option.getD_some, htext] at hread
  exact ⟨htypes, hspell, hnames.symm, hread⟩

end PathTemplate

end ApiTypes
