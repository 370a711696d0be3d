import ApiTypes.Proofs.Reading.Lexemes

/-!
The grammar of printed types as a reader. It knows which operator binds closer: a union is made of
intersections, these of factors, and a factor of what brackets can stand behind. Each rule reads
what its parts read, put together as they are printed.
-/

namespace ApiTypes

/-- The names of the built-in types. -/
def typeKeywords : List String :=
  ["any", "boolean", "never", "null", "number", "string", "undefined", "unknown"]

/-- The names that are no names of types. -/
def reservedNames : List String := typeKeywords ++ ["true", "false", "readonly"]

namespace Reader

section Grammar

variable (inner : Reader TypeExpr)

/-- What a name stands for: a built-in type, a truth value, or a type with the arguments that
follow. -/
def named (name : String) : Reader TypeExpr :=
  if name ∈ typeKeywords then pure (.keyword name)
  else if name = "true" then pure (.literal (.bool true))
  else if name = "false" then pure (.literal (.bool false))
  else if name = "readonly" then failure
  else .ref name <$> (between "<" ">" (sepBy ", " inner) <|> pure [])

def property (isReadonly : Bool) : Reader Member := do
  let name ← key
  let isOptional ← (do exactly "?"; pure true) <|> pure false
  exactly ": "
  let type ← inner
  exactly ";"
  pure (.property name isOptional isReadonly type [])

def indexSignature (isReadonly : Bool) : Reader Member := do
  exactly "["
  let param ← word isNameChar
  exactly ": "
  let key ← inner
  exactly "]: "
  let type ← inner
  exactly ";"
  pure (.indexSignature param key type isReadonly [])

/-- A member without its readonly mark. -/
def entry (isReadonly : Bool) : Reader Member :=
  property inner isReadonly <|> indexSignature inner isReadonly

def member : Reader Member := entry inner false <|> (do exactly "readonly "; entry inner true)

def isBlank (c : Char) : Bool := c = '\n' || c = ' '

def members : Reader (List Member) := do
  let members ← many (do skip isBlank; member inner)
  skip isBlank
  pure members

def element : Reader TypeExpr := inner <|> (do exactly "..."; .spread <$> inner)

/-- A type of which no operator is a part, unless brackets stand around it. -/
def primary : Reader TypeExpr :=
  (fun n => .literal (.int n)) <$> integer <|>
  TypeExpr.ofText <$> quoted <|>
  (do let name ← word isNameChar; named inner name) <|>
  between "(" ")" inner <|>
  .tuple <$> between "[" "]" (sepBy ", " (element inner) <|> pure []) <|>
  .object <$> between "\x7b" "\x7d" (members inner)

/-- A pair of brackets behind a type, with an index or without. -/
def suffix : Reader (Option TypeExpr) := between "[" "]" (some <$> inner <|> pure none)

/-- The type that a pair of brackets makes of the type it stands behind. -/
def applySuffix (t : TypeExpr) : Option TypeExpr → TypeExpr
  | none => .array t
  | some index => .access t index

def operand : Reader TypeExpr := do
  let t ← primary inner
  let suffixes ← many (suffix inner)
  pure (suffixes.foldl applySuffix t)

def factor : Reader TypeExpr :=
  operand inner <|> (do exactly "readonly "; .readonly <$> operand inner)

/-- What an operator makes of its operands; a single one stands without operator. -/
def collapse (operator : List TypeExpr → TypeExpr) : List TypeExpr → TypeExpr
  | [t] => t
  | types => operator types

def intersection : Reader TypeExpr := collapse .intersection <$> sepBy " & " (factor inner)

def union : Reader TypeExpr := collapse .union <$> sepBy " | " (intersection inner)

end Grammar

/-- A type with brackets nested less deep than the given number. -/
def typeWithin : Nat → Reader TypeExpr
  | 0 => fun _ => none
  | depth + 1 => union (typeWithin depth)

/-! What may follow a type, and what may follow the parts of one. -/

/-- The marks that end a type. -/
def closers : List Char := [',', ']', ')', '>', ';']

/-- The marks after an operand. -/
def spacedClosers : List Char := ' ' :: closers

/-- The marks after what brackets can stand behind. -/
def bracketedClosers : List Char := '[' :: spacedClosers

/-- What follows a member of a union: no operator that binds closer. -/
def EndsIntersection (rest : List Char) : Prop :=
  StopsAt spacedClosers rest ∧ exactly " & " rest = none

theorem not_isNameChar_of_stopsAt {rest : List Char} (h : StopsAt bracketedClosers rest) :
    ∀ c ∈ rest.head?, isNameChar c = false := by
  intro c hc
  have hmark := h c hc
  fin_cases hmark <;> rfl

/-- The reader takes no type that begins like the end of one, and no open end of a tuple. -/
structure Refuses (inner : Reader TypeExpr) : Prop where
  bracket : ∀ rest, inner (']' :: rest) = none
  dots : ∀ rest, inner ('.' :: rest) = none

theorem refuses_typeWithin (depth : Nat) : Refuses (typeWithin depth) := by
  cases depth with
  | zero => exact ⟨fun _ => rfl, fun _ => rfl⟩
  | succ depth => exact ⟨fun _ => rfl, fun _ => rfl⟩

section Rules

variable {inner : Reader TypeExpr} {text : List Char} {t : TypeExpr}

/-! Primary types. What a type begins with tells which rule reads it. -/

theorem primary_integer (inner : Reader TypeExpr) (n : Int) :
    Reads (primary inner) (toString n).toList (.literal (.int n)) (StopsAt bracketedClosers) := by
  refine (((reads_integer n).map _).orElse _).mono fun rest hrest c hc => ?_
  have hmark := hrest c hc
  fin_cases hmark <;> rfl

theorem primary_quoted (inner : Reader TypeExpr) (s : String) :
    Reads (primary inner) (Text.quote s).toList (.ofText (Text.repaired s)) Anything := by
  refine (((reads_quoted s).map _).orElse _).orElse_of_none fun rest _ => ?_
  rw [Text.quote, String.toList_ofList]
  rfl

/-- What a name begins with begins neither a number nor a quoted text. -/
theorem not_number_or_quote_of_start {c : Char} (h : Text.isIdentifierStart c = true) :
    isNumberChar c = false ∧ '"' ≠ c := by
  constructor
  · have le_iff (a b : Char) : a ≤ b ↔ a.toNat ≤ b.toNat := UInt32.le_iff_toNat_le
    simp only [Text.isIdentifierStart, Text.isUpperLetter, Text.isLowerLetter, Bool.or_eq_true,
      Bool.and_eq_true, decide_eq_true_eq, le_iff, Char.reduceToNat] at h
    simp only [isNumberChar, Text.isDigit, Bool.or_eq_false_iff, Bool.and_eq_false_iff,
      decide_eq_false_iff_not, le_iff, Char.reduceToNat]
    rcases h with (h | rfl) | rfl
    · exact ⟨by rintro rfl; simp at h, by omega⟩
    · exact ⟨by decide, by decide⟩
    · exact ⟨by decide, by decide⟩
  · rintro rfl
    cases h

/-- A name is read as far as it goes, and what it stands for is read then. -/
theorem primary_named {name : String} (hname : Text.isIdentifier name = true)
    {more : List Char} (h : Reads (named inner name) more t (StopsAt bracketedClosers))
    (hmore : ∀ rest, StopsAt bracketedClosers rest →
      ∀ c ∈ (more ++ rest).head?, isNameChar c = false) :
    Reads (primary inner) (name.toList ++ more) t (StopsAt bracketedClosers) := by
  obtain ⟨c, tail, hc, hstart, -⟩ := exists_of_isIdentifier hname
  have hread : Reads (do let name ← word isNameChar; named inner name) (name.toList ++ more) t
      (StopsAt bracketedClosers) := (reads_name hname).bind h hmore
  refine ((hread.orElse _).orElse_of_none fun rest _ => ?_).orElse_of_none fun rest _ => ?_
  · have hquote (rest : List Char) : exactly "\"" (c :: rest) = none :=
      exactly_of_ne rfl (not_number_or_quote_of_start hstart).2 rest
    rw [hc]
    exact map_of_none (between_of_none (hquote _) _ _) _
  · have hnumber := word_of_not (not_number_or_quote_of_start hstart).1
    rw [hc]
    exact map_of_none (bind_of_none (hnumber _) _) _

theorem primary_name {name : String} (hname : Text.isIdentifier name = true)
    (h : Reads (named inner name) [] t (StopsAt bracketedClosers)) :
    Reads (primary inner) name.toList t (StopsAt bracketedClosers) := by
  have hread := primary_named hname h fun _ => not_isNameChar_of_stopsAt
  rwa [List.append_nil] at hread

theorem primary_keyword (inner : Reader TypeExpr) {name : String} (h : name ∈ typeKeywords) :
    Reads (primary inner) name.toList (.keyword name) (StopsAt bracketedClosers) := by
  have hnames : ∀ name ∈ typeKeywords, Text.isIdentifier name = true := by decide
  refine primary_name (hnames name h) ?_
  rw [named, if_pos h]
  exact .nothing _ _

theorem primary_bool (inner : Reader TypeExpr) (b : Bool) :
    Reads (primary inner) (if b then "true" else "false").toList (.literal (.bool b))
      (StopsAt bracketedClosers) := by
  cases b with
  | true => exact primary_name rfl (.nothing _ _)
  | false => exact primary_name rfl (.nothing _ _)

theorem named_of_not_reserved (inner : Reader TypeExpr) {name : String} (h : name ∉ reservedNames) :
    named inner name = .ref name <$> (between "<" ">" (sepBy ", " inner) <|> pure []) := by
  simp only [reservedNames, List.mem_append, not_or, List.mem_cons, List.not_mem_nil, or_false] at h
  rw [named, if_neg h.1, if_neg h.2.1, if_neg h.2.2.1, if_neg h.2.2.2]

theorem primary_ref (inner : Reader TypeExpr) {name : String}
    (hname : Text.isIdentifier name = true) (h : name ∉ reservedNames) :
    Reads (primary inner) name.toList (.ref name []) (StopsAt bracketedClosers) := by
  refine primary_name hname ?_
  rw [named_of_not_reserved inner h]
  refine Reads.map (Reads.orElse_of_none (.nothing _ _) fun rest hrest => ?_) _
  exact between_of_none (hrest.exactly_eq_none rfl (by decide)) _ _

section Lists

variable {types : List TypeExpr} {printed : TypeExpr → String} {value : TypeExpr → TypeExpr}

/-- A list with commas is read up to a closing bracket. -/
theorem sepBy_comma {item : Reader TypeExpr} {c : Char} (hclosing : c ∈ closers)
    (hcomma : c ≠ ',') (hne : types ≠ [])
    (htypes : ∀ t ∈ types, Reads item (printed t).toList (value t) (StopsAt closers)) :
    Reads (sepBy ", " item) (Text.join ", " (types.map printed)).toList (types.map value)
      fun rest => ∃ more, rest = c :: more := by
  refine .sepBy rfl hne htypes (fun rest => stopsAt_cons (by decide) rest) ?_
  rintro _ ⟨more, rfl⟩
  exact ⟨stopsAt_cons hclosing more, exactly_of_ne rfl (Ne.symm hcomma) more⟩

theorem primary_applied {name : String} (hname : Text.isIdentifier name = true)
    (h : name ∉ reservedNames) (hne : types ≠ [])
    (htypes : ∀ t ∈ types, Reads inner (printed t).toList (value t) (StopsAt closers)) :
    Reads (primary inner)
      (name.toList ++ ("<".toList ++ (Text.join ", " (types.map printed)).toList ++ ">".toList))
      (.ref name (types.map value)) (StopsAt bracketedClosers) := by
  have hargs := (sepBy_comma (c := '>') (by decide) (by decide) hne htypes).between "<" ">"
    fun rest => ⟨rest, rfl⟩
  refine primary_named hname ?_ fun rest _ c hc => ?_
  · rw [named_of_not_reserved inner h]
    exact ((hargs.orElse _).map _).mono fun _ _ => trivial
  · cases hc
    rfl

theorem element_spread (hinner : Refuses inner) (h : Reads inner text t (StopsAt closers)) :
    Reads (element inner) ("...".toList ++ text) (.spread t) (StopsAt closers) :=
  (Reads.preceded "..." (h.map _)).orElse_of_none fun _ _ => hinner.dots _

theorem primary_tuple (hinner : Refuses inner)
    (htypes : ∀ t ∈ types, Reads (element inner) (printed t).toList (value t) (StopsAt closers)) :
    Reads (primary inner) ("[".toList ++ (Text.join ", " (types.map printed)).toList ++ "]".toList)
      (.tuple (types.map value)) Anything := by
  have helements : Reads (sepBy ", " (element inner) <|> pure [])
      (Text.join ", " (types.map printed)).toList (types.map value)
      fun rest => ∃ more, rest = ']' :: more := by
    cases types with
    | nil =>
      refine .orElse_of_none (.nothing _ _) ?_
      rintro _ ⟨more, rfl⟩
      exact bind_of_none (orElse_of_none (hinner.bracket more)) _
    | cons first more =>
      exact (sepBy_comma (by decide) (by decide) (List.cons_ne_nil _ _) htypes).orElse _
  have htuple := (helements.between "[" "]" fun rest => ⟨rest, rfl⟩).map TypeExpr.tuple
  exact ((((htuple.orElse _).orElse_of_none fun _ _ => rfl).orElse_of_none
    fun _ _ => rfl).orElse_of_none fun _ _ => rfl).orElse_of_none fun _ _ => rfl

end Lists

/-! Members of object types. -/

theorem reads_property (name : String) (isOptional isReadonly : Bool)
    (h : Reads inner text t (StopsAt closers)) :
    Reads (property inner isReadonly) ((Text.propertyKey name).toList ++
      ((if isOptional then "?" else "").toList ++ (": ".toList ++ (text ++ ";".toList))))
      (.property (Text.repaired name) isOptional isReadonly t []) Anything := by
  have hmark : Reads ((do exactly "?"; pure true) <|> pure false)
      (if isOptional then "?" else "").toList isOptional
      fun rest => ∃ more, rest = ':' :: more := by
    cases isOptional with
    | true => exact (((Reads.exactly "?").thenPure _).orElse _).mono fun _ _ => trivial
    | false =>
      refine .orElse_of_none (.nothing _ _) ?_
      rintro _ ⟨more, rfl⟩
      rfl
  refine (reads_key name).bind (hmark.bind ((Reads.exactly ": ").bind (h.bind
    ((Reads.exactly ";").thenPure _) ?_) ?_) ?_) ?_
  · exact fun rest _ => stopsAt_cons (by decide) rest
  · exact fun _ _ => trivial
  · exact fun rest _ => ⟨_, rfl⟩
  · intro rest _ c hc
    cases isOptional <;> cases hc <;> rfl

theorem reads_indexSignature {param : String} (hparam : Text.isIdentifier param = true)
    (isReadonly : Bool) {keyText : List Char} {key : TypeExpr}
    (hkey : Reads inner keyText key (StopsAt closers)) (h : Reads inner text t (StopsAt closers)) :
    Reads (indexSignature inner isReadonly) ("[".toList ++
      (param.toList ++ (": ".toList ++ (keyText ++ ("]: ".toList ++ (text ++ ";".toList))))))
      (.indexSignature param key t isReadonly []) Anything := by
  refine (Reads.exactly "[").bind ((reads_name hparam).bind ((Reads.exactly ": ").bind (hkey.bind
    ((Reads.exactly "]: ").bind (h.bind ((Reads.exactly ";").thenPure _) ?_) ?_) ?_) ?_) ?_) ?_
  · exact fun rest _ => stopsAt_cons (by decide) rest
  · exact fun _ _ => trivial
  · exact fun rest _ => stopsAt_cons (by decide) _
  · exact fun _ _ => trivial
  · intro rest _ c hc
    cases hc
    rfl
  · exact fun _ _ => trivial

theorem entry_indexSignature {isReadonly : Bool} {m : Member}
    (h : Reads (indexSignature inner isReadonly) ("[".toList ++ text) m Anything) :
    Reads (entry inner isReadonly) ("[".toList ++ text) m Anything :=
  h.orElse_of_none fun _ _ => rfl

theorem member_readonly {m : Member} (h : Reads (entry inner true) text m Anything) :
    Reads (member inner) ("readonly ".toList ++ text) m Anything :=
  (Reads.preceded "readonly " h).orElse_of_none fun _ _ => rfl

/-- Members on lines of their own, between braces. -/
theorem primary_object {ms : List Member} {printed : Member → List Char} {value : Member → Member}
    {gap last : List Char} (hgap : ∀ c ∈ gap, isBlank c = true)
    (hlast : ∀ c ∈ last, isBlank c = true)
    (hhead : ∀ m ∈ ms, ∃ c more, printed m = c :: more ∧ isBlank c = false)
    (hms : ∀ m ∈ ms, Reads (member inner) (printed m) (value m) Anything) :
    Reads (primary inner)
      ("\x7b".toList ++ (ms.flatMap (fun m => gap ++ printed m) ++ last) ++ "\x7d".toList)
      (.object (ms.map value)) Anything := by
  have hitem (m) (hm : m ∈ ms) : Reads (do skip isBlank; member inner) (gap ++ printed m) (value m)
      Anything := by
    refine (Reads.skip hgap).bind (hms m hm) fun rest _ c hc => ?_
    obtain ⟨first, more, heq, hfirst⟩ := hhead m hm
    rw [heq] at hc
    cases hc
    exact hfirst
  have hmany : Reads (many (do skip isBlank; member inner)) (ms.flatMap fun m => gap ++ printed m)
      (ms.map value) fun rest => ∃ more, rest = last ++ '\x7d' :: more := by
    refine .many hitem (fun m hm => ?_) (fun _ _ _ => trivial) ?_
    · obtain ⟨first, more, heq, -⟩ := hhead m hm
      rw [heq]
      exact fun h => List.cons_ne_nil _ _ (List.append_eq_nil_iff.mp h).2
    · rintro _ ⟨more, rfl⟩
      have hskip := Reads.skip hlast ('\x7d' :: more) fun c hc => by cases hc; rfl
      exact ⟨trivial, (bind_of_some hskip _).trans rfl⟩
  have hmembers : Reads (members inner) (ms.flatMap (fun m => gap ++ printed m) ++ last)
      (ms.map value) fun rest => ∃ more, rest = '\x7d' :: more := by
    refine hmany.bind (((Reads.skip hlast).thenPure _).mono ?_) ?_
    · rintro _ ⟨more, rfl⟩ c hc
      cases hc
      rfl
    · rintro _ ⟨more, rfl⟩
      exact ⟨more, rfl⟩
  have hobject := (hmembers.between "\x7b" "\x7d" fun rest => ⟨rest, rfl⟩).map TypeExpr.object
  exact ((((hobject.orElse_of_none fun _ _ => rfl).orElse_of_none fun _ _ => rfl).orElse_of_none
    fun _ _ => rfl).orElse_of_none fun _ _ => rfl).orElse_of_none fun _ _ => rfl

theorem primary_group (h : Reads inner text t (StopsAt closers)) :
    Reads (primary inner) ("(".toList ++ text ++ ")".toList) t Anything := by
  have hgroup := h.between "(" ")" fun rest => stopsAt_cons (by decide) rest
  exact (((hgroup.orElse _).orElse_of_none fun _ _ => rfl).orElse_of_none
    fun _ _ => rfl).orElse_of_none fun _ _ => rfl

/-! Operands: brackets stand one behind the other. -/

/-- A pair of brackets, with an index or without. -/
def suffixText (printed : TypeExpr → String) : Option TypeExpr → List Char
  | none => "[]".toList
  | some index => "[".toList ++ (printed index).toList ++ "]".toList

theorem reads_suffix (hinner : Refuses inner) {printed : TypeExpr → String}
    {value : TypeExpr → TypeExpr} {brackets : Option TypeExpr}
    (h : ∀ index ∈ brackets, Reads inner (printed index).toList (value index) (StopsAt closers)) :
    Reads (suffix inner) (suffixText printed brackets) (brackets.map value) Anything := by
  cases brackets with
  | none =>
    have hempty : Reads (some <$> inner <|> pure none) [] none
        fun rest => ∃ more, rest = ']' :: more := by
      refine .orElse_of_none (.nothing _ _) ?_
      rintro _ ⟨more, rfl⟩
      exact map_of_none (hinner.bracket more) _
    exact hempty.between "[" "]" fun rest => ⟨rest, rfl⟩
  | some index =>
    exact (((h index rfl).map some).orElse _).between "[" "]" fun rest =>
      stopsAt_cons (by decide) rest

theorem reads_operand (hinner : Refuses inner) {printed : TypeExpr → String}
    {value : TypeExpr → TypeExpr} {suffixes : List (Option TypeExpr)}
    (hbase : Reads (primary inner) text t (StopsAt bracketedClosers))
    (h : ∀ index, some index ∈ suffixes →
      Reads inner (printed index).toList (value index) (StopsAt closers)) :
    Reads (operand inner) (text ++ suffixes.flatMap (suffixText printed))
      ((suffixes.map (Option.map value)).foldl applySuffix t) (StopsAt spacedClosers) := by
  have hnext (brackets : Option TypeExpr) (rest : List Char) :
      StopsAt bracketedClosers (suffixText printed brackets ++ rest) := by
    cases brackets <;> exact stopsAt_cons (by decide) _
  have hsuffixes : Reads (many (suffix inner)) (suffixes.flatMap (suffixText printed))
      (suffixes.map (Option.map value)) (StopsAt spacedClosers) := by
    refine .many (fun brackets hb => reads_suffix hinner fun index hindex => ?_)
      (fun brackets _ => ?_) (fun _ _ _ => trivial) fun rest hrest => ?_
    · exact h index (hindex ▸ hb)
    · cases brackets <;> exact List.cons_ne_nil _ _
    · exact ⟨trivial, between_of_none (hrest.exactly_eq_none rfl (by decide)) _ _⟩
  refine hbase.bind (hsuffixes.thenPure _) fun rest hrest => ?_
  cases suffixes with
  | nil => exact hrest.mono fun c hc => List.mem_cons_of_mem _ hc
  | cons brackets more =>
    rw [List.flatMap_cons, List.append_assoc]
    exact hnext brackets _

theorem factor_readonly (h : Reads (operand inner) text t (StopsAt spacedClosers)) :
    Reads (factor inner) ("readonly ".toList ++ text) (.readonly t) (StopsAt spacedClosers) :=
  (Reads.preceded "readonly " (h.map _)).orElse_of_none fun _ _ => rfl

/-! Operators. -/

section Operators

variable {item : Reader TypeExpr} {between later : List Char → Prop} {sep : String}

theorem reads_single (operator : List TypeExpr → TypeExpr) (h : Reads item text t between)
    (hlast : ∀ rest, later rest → between rest ∧ exactly sep rest = none) :
    Reads (collapse operator <$> sepBy sep item) text t later := by
  intro rest hrest
  have hmore : many (do exactly sep; item) rest = some ([], rest) := by
    unfold many
    cases rest with
    | nil => rfl
    | cons c rest => rw [List.length_cons, manyWithin, bind_of_none (hlast _ hrest).2]
  have hitems : sepBy sep item (text ++ rest) = some ([t], rest) := by
    rw [sepBy, bind_of_some (h rest (hlast rest hrest).1), bind_of_some hmore]
    rfl
  rw [map_eq_pure_bind, bind_of_some hitems]
  rfl

theorem reads_several (operator : List TypeExpr → TypeExpr) {mark : Char} {more : List Char}
    (hsep : sep.toList = mark :: more) {types : List TypeExpr} (htwo : 2 ≤ types.length)
    {printed : TypeExpr → String} {value : TypeExpr → TypeExpr}
    (htypes : ∀ t ∈ types, Reads item (printed t).toList (value t) between)
    (hnext : ∀ rest, between (sep.toList ++ rest))
    (hlast : ∀ rest, later rest → between rest ∧ exactly sep rest = none) :
    Reads (collapse operator <$> sepBy sep item) (Text.join sep (types.map printed)).toList
      (operator (types.map value)) later := by
  obtain ⟨t, u, rest, rfl⟩ : ∃ t u rest, types = t :: u :: rest := by
    rcases types with _ | ⟨t, _ | ⟨u, rest⟩⟩
    · cases htwo
    · simp at htwo
    · exact ⟨t, u, rest, rfl⟩
  exact (Reads.sepBy hsep (List.cons_ne_nil _ _) htypes hnext hlast).map (collapse operator)

end Operators

end Rules

end Reader

end ApiTypes
