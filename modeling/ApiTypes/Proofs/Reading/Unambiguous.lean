import ApiTypes.Proofs.Reading.Grammar
import ApiTypes.Proofs.Utf8
import ApiTypes.Proofs.WellFormed

/-!
Printed types read back. The grammar recovers every type of a large class from its text, whatever
the depth it is printed at, up to the repair of the texts that are quoted in it. So no two types of
the class are printed alike.
-/

namespace ApiTypes

mutual

/-- A type that can be read back: unions and intersections are flat and have two members or more,
the readonly operator stands before an array or a tuple, only the end of a tuple is open, and
nothing is documented. The texts of literals and the names of properties are `Allowed`. -/
inductive TypeExpr.Legible (Allowed : String → Prop) : TypeExpr → Prop where
  | keyword {name : String} : name ∈ typeKeywords → TypeExpr.Legible Allowed (.keyword name)
  | text {s : String} : Allowed s → TypeExpr.Legible Allowed (.literal (.text s))
  | bool (b : Bool) : TypeExpr.Legible Allowed (.literal (.bool b))
  | int (n : Int) : TypeExpr.Legible Allowed (.literal (.int n))
  | ref {name : String} {args : List TypeExpr} : Text.isIdentifier name = true →
    name ∉ reservedNames → (∀ t ∈ args, t.Legible Allowed) →
    TypeExpr.Legible Allowed (.ref name args)
  | access {object index : TypeExpr} : object.Legible Allowed → index.Legible Allowed →
    TypeExpr.Legible Allowed (.access object index)
  | union {types : List TypeExpr} : 2 ≤ types.length → (∀ t ∈ types, t.isUnion = false) →
    (∀ t ∈ types, t.Legible Allowed) → TypeExpr.Legible Allowed (.union types)
  | intersection {types : List TypeExpr} : 2 ≤ types.length →
    (∀ t ∈ types, t.isIntersection = false) → (∀ t ∈ types, t.Legible Allowed) →
    TypeExpr.Legible Allowed (.intersection types)
  | array {elem : TypeExpr} : elem.Legible Allowed → TypeExpr.Legible Allowed (.array elem)
  | readonlyArray {elem : TypeExpr} : TypeExpr.Legible Allowed (.array elem) →
    TypeExpr.Legible Allowed (.readonly (.array elem))
  | readonlyTuple {elems : List TypeExpr} : TypeExpr.Legible Allowed (.tuple elems) →
    TypeExpr.Legible Allowed (.readonly (.tuple elems))
  | tuple {elems : List TypeExpr} : (∀ t ∈ elems, t.Legible Allowed) →
    TypeExpr.Legible Allowed (.tuple elems)
  /-- The open end is the last element. -/
  | openTuple {elems : List TypeExpr} {last : TypeExpr} : (∀ t ∈ elems, t.Legible Allowed) →
    last.Legible Allowed → TypeExpr.Legible Allowed (.tuple (elems ++ [.spread (.array last)]))
  | object {members : List Member} : (∀ m ∈ members, m.Legible Allowed) →
    TypeExpr.Legible Allowed (.object members)

/-- A member of an object type that can be read back. -/
inductive Member.Legible (Allowed : String → Prop) : Member → Prop where
  | property {name : String} {isOptional isReadonly : Bool} {t : TypeExpr} : Allowed name →
    t.Legible Allowed → Member.Legible Allowed (.property name isOptional isReadonly t [])
  | indexSignature {param : String} {key t : TypeExpr} {isReadonly : Bool} :
    Text.isIdentifier param = true → key.Legible Allowed → t.Legible Allowed →
    Member.Legible Allowed (.indexSignature param key t isReadonly [])

end

mutual

/-- The type with its texts as they are quoted: a replacement character stands in literals and in
the names of properties for each byte that is part of no character. -/
def TypeExpr.repaired : TypeExpr → TypeExpr
  | .unstated => .unstated
  | .keyword name => .keyword name
  | .literal (.text s) => .literal (.text (Text.repaired s))
  | .literal value => .literal value
  | .ref name args => .ref name (repairedTypes args)
  | .access object index => .access object.repaired index.repaired
  | .union types => .union (repairedTypes types)
  | .intersection types => .intersection (repairedTypes types)
  | .array elem => .array elem.repaired
  | .readonly type => .readonly type.repaired
  | .tuple elems => .tuple (repairedTypes elems)
  | .spread type => .spread type.repaired
  | .object members => .object (repairedMembers members)
  | .template head spans => .template head (repairedSpans spans)

def repairedTypes : List TypeExpr → List TypeExpr
  | [] => []
  | t :: more => t.repaired :: repairedTypes more

def repairedMembers : List Member → List Member
  | [] => []
  | m :: more => m.repaired :: repairedMembers more

def repairedSpans : List TemplateSpan → List TemplateSpan
  | [] => []
  | .mk type tail :: more => .mk type.repaired tail :: repairedSpans more

def Member.repaired : Member → Member
  | .property name isOptional isReadonly type doc =>
    .property (Text.repaired name) isOptional isReadonly type.repaired doc
  | .indexSignature param key type isReadonly doc =>
    .indexSignature param key.repaired type.repaired isReadonly doc

end

theorem repairedTypes_eq (types : List TypeExpr) : repairedTypes types = types.map .repaired := by
  induction types with
  | nil => rfl
  | cons t more ih => exact congrArg (t.repaired :: ·) ih

theorem repairedMembers_eq (members : List Member) :
    repairedMembers members = members.map .repaired := by
  induction members with
  | nil => rfl
  | cons m more ih => exact congrArg (m.repaired :: ·) ih

namespace TypeExpr

theorem repaired_text (s : String) :
    (literal (.text s)).repaired = .literal (.text (Text.repaired s)) := rfl

theorem repaired_ref (name : String) (args : List TypeExpr) :
    (ref name args).repaired = .ref name (args.map .repaired) :=
  congrArg (ref name) (repairedTypes_eq args)

theorem repaired_access (object index : TypeExpr) :
    (access object index).repaired = .access object.repaired index.repaired := rfl

theorem repaired_union (types : List TypeExpr) :
    (union types).repaired = .union (types.map .repaired) :=
  congrArg union (repairedTypes_eq types)

theorem repaired_intersection (types : List TypeExpr) :
    (intersection types).repaired = .intersection (types.map .repaired) :=
  congrArg intersection (repairedTypes_eq types)

theorem repaired_array (elem : TypeExpr) : (array elem).repaired = .array elem.repaired := rfl

theorem repaired_readonly (t : TypeExpr) : (readonly t).repaired = .readonly t.repaired := rfl

theorem repaired_tuple (elems : List TypeExpr) :
    (tuple elems).repaired = .tuple (elems.map .repaired) :=
  congrArg tuple (repairedTypes_eq elems)

theorem repaired_spread (t : TypeExpr) : (spread t).repaired = .spread t.repaired := rfl

theorem repaired_object (members : List Member) :
    (object members).repaired = .object (members.map .repaired) :=
  congrArg object (repairedMembers_eq members)

end TypeExpr

/-! What is printed, in the form in which the rules of the grammar read it. -/

theorem printTypes_eq (depth : Nat) (types : List TypeExpr) :
    printTypes depth types = types.map (·.print depth) := by
  induction types with
  | nil => rfl
  | cons t more ih => exact congrArg (t.print depth :: ·) ih

namespace TypeExpr

/-- The type as the operand of a pair of brackets. -/
def operandText (depth : Nat) (t : TypeExpr) : String := parenthesize t.isCompound (t.print depth)

/-- The type as a member of an intersection. -/
def factorText (depth : Nat) (t : TypeExpr) : String := parenthesize t.isUnion (t.print depth)

end TypeExpr

theorem printFactors_eq (depth : Nat) (types : List TypeExpr) :
    printFactors depth types = types.map (·.factorText depth) := by
  induction types with
  | nil => rfl
  | cons t more ih => exact congrArg (t.factorText depth :: ·) ih

namespace TypeExpr

theorem print_union (depth : Nat) (types : List TypeExpr) :
    (union types).print depth = Text.join " | " (types.map (·.print depth)) :=
  congrArg (Text.join " | ") (printTypes_eq depth types)

theorem print_intersection (depth : Nat) (types : List TypeExpr) :
    (intersection types).print depth = Text.join " & " (types.map (·.factorText depth)) :=
  congrArg (Text.join " & ") (printFactors_eq depth types)

theorem print_readonly (depth : Nat) (t : TypeExpr) :
    (readonly t).print depth = "readonly " ++ t.print depth := rfl

theorem print_spread (depth : Nat) (t : TypeExpr) :
    (spread t).print depth = "..." ++ t.print depth := rfl

theorem print_tuple (depth : Nat) (elems : List TypeExpr) :
    (tuple elems).print depth = "[" ++ Text.join ", " (elems.map (·.print depth)) ++ "]" :=
  congrArg ("[" ++ Text.join ", " · ++ "]") (printTypes_eq depth elems)

/-- A name that is applied to types. -/
theorem print_ref (depth : Nat) (name : String) {args : List TypeExpr} (h : args ≠ []) :
    (ref name args).print depth =
      name ++ "<" ++ Text.join ", " (args.map (·.print depth)) ++ ">" := by
  cases args with
  | nil => exact absurd rfl h
  | cons arg more =>
    exact congrArg (name ++ "<" ++ Text.join ", " · ++ ">") (printTypes_eq depth (arg :: more))

end TypeExpr

theorem print_object_cons (depth : Nat) (m : Member) (more : List Member) :
    (TypeExpr.object (m :: more)).print depth =
      "\x7b" ++ printMembers (depth + 1) (m :: more) ++ newline depth ++ "\x7d" := by
  have hfirst : printMembers (depth + 1) (m :: more) =
      newline (depth + 1) ++ m.print (depth + 1) ++ printMembers (depth + 1) more := rfl
  rw [hfirst, ← String.append_assoc, ← String.append_assoc]
  rfl

theorem toList_printMembers (depth : Nat) (members : List Member) :
    (printMembers depth members).toList =
      members.flatMap fun m => (newline depth).toList ++ (m.print depth).toList := by
  induction members with
  | nil => rfl
  | cons m more ih =>
    rw [List.flatMap_cons, ← ih, ← String.toList_append, ← String.toList_append]
    rfl

theorem toList_print_property (depth : Nat) (name : String) (isOptional isReadonly : Bool)
    (t : TypeExpr) : ((Member.property name isOptional isReadonly t []).print depth).toList =
      (if isReadonly then "readonly " else "").toList ++ ((Text.propertyKey name).toList ++
        ((if isOptional then "?" else "").toList ++ (": ".toList ++
          ((t.print depth).toList ++ ";".toList)))) := by
  have htext : (Member.property name isOptional isReadonly t []).print depth =
      "" ++ (if isReadonly then "readonly " else "") ++ Text.propertyKey name ++
        (if isOptional then "?" else "") ++ ": " ++ t.print depth ++ ";" := rfl
  simp only [htext, String.empty_append, String.toList_append, List.append_assoc]

theorem toList_print_indexSignature (depth : Nat) (param : String) (key t : TypeExpr)
    (isReadonly : Bool) : ((Member.indexSignature param key t isReadonly []).print depth).toList =
      (if isReadonly then "readonly " else "").toList ++ ("[".toList ++ (param.toList ++
        (": ".toList ++ ((key.print depth).toList ++ ("]: ".toList ++
          ((t.print depth).toList ++ ";".toList)))))) := by
  have htext : (Member.indexSignature param key t isReadonly []).print depth =
      "" ++ (if isReadonly then "readonly " else "") ++ "[" ++ param ++ ": " ++
        key.print depth ++ "]: " ++ t.print depth ++ ";" := rfl
  simp only [htext, String.empty_append, String.toList_append, List.append_assoc]

theorem isBlank_newline {depth : Nat} {c : Char} (h : c ∈ (newline depth).toList) :
    Reader.isBlank c = true := by
  have hblanks (n : Nat) : ∀ c ∈ (Text.replicate n "    ").toList, Reader.isBlank c = true := by
    induction n with
    | zero => exact List.forall_mem_nil _
    | succ n ih =>
      rw [Text.replicate, String.toList_append]
      refine List.forall_mem_append.mpr ⟨fun c hc => ?_, ih⟩
      fin_cases hc <;> rfl
  rw [newline, String.toList_append] at h
  rcases List.mem_append.mp h with hbreak | hrest
  · rw [List.mem_singleton.mp hbreak]
    rfl
  · exact hblanks depth c hrest

/-- A member of an object type does not begin with a blank. -/
theorem Member.Legible.head {Allowed : String → Prop} {m : Member} (hm : m.Legible Allowed)
    (depth : Nat) : ∃ c more, (m.print depth).toList = c :: more ∧ Reader.isBlank c = false := by
  cases hm with
  | @property name isOptional isReadonly t _ _ =>
    rw [toList_print_property]
    cases isReadonly with
    | true => exact ⟨_, _, rfl, rfl⟩
    | false =>
      obtain ⟨c, more, hkey, hc⟩ := Reader.propertyKey_head name
      rw [hkey]
      refine ⟨c, _, rfl, ?_⟩
      by_contra hblank
      simp only [Reader.isBlank, Bool.not_eq_false, Bool.or_eq_true, decide_eq_true_eq] at hblank
      rcases hblank with rfl | rfl <;> rcases hc with hc | hc <;> cases hc
  | @indexSignature _ _ _ isReadonly _ _ _ =>
    rw [toList_print_indexSignature]
    cases isReadonly <;> exact ⟨_, _, rfl, rfl⟩

/-- An element of a tuple is legible or an open end. -/
theorem TypeExpr.Legible.elem {Allowed : String → Prop} {elems : List TypeExpr}
    (h : (TypeExpr.tuple elems).Legible Allowed) : ∀ t ∈ elems,
    t.Legible Allowed ∨ ∃ last, last.Legible Allowed ∧ t = .spread (.array last) := by
  cases h with
  | tuple helems => exact fun t ht => .inl (helems t ht)
  | openTuple helems hlast =>
    refine List.forall_mem_append.mpr ⟨fun t ht => .inl (helems t ht), fun t ht => ?_⟩
    exact .inr ⟨_, hlast, List.mem_singleton.mp ht⟩

theorem length_le_flatMap {α β : Type} {f : α → List β} {xs : List α} {x : α} (h : x ∈ xs) :
    (f x).length ≤ (xs.flatMap f).length := by
  obtain ⟨before, after, rfl⟩ := List.append_of_mem h
  rw [List.flatMap_append, List.flatMap_cons, List.length_append, List.length_append]
  omega

theorem length_le_join {α : Type} {sep : String} {printed : α → String} {xs : List α} {x : α}
    (h : x ∈ xs) :
    (printed x).toList.length ≤ (Text.join sep (xs.map printed)).toList.length := by
  cases xs with
  | nil => cases h
  | cons first more =>
    rw [List.map_cons, Reader.toList_join, List.length_append, List.flatMap_map]
    rcases List.mem_cons.mp h with rfl | hmore
    · omega
    · have hle := length_le_flatMap (f := fun y => sep.toList ++ (printed y).toList) hmore
      rw [List.length_append] at hle
      omega

namespace Reader

/-- The reader recovers the types whose text is shorter than `size`. -/
structure Recovers (Allowed : String → Prop) (inner : Reader TypeExpr) (size : Nat) : Prop where
  refuses : Refuses inner
  reads : ∀ {t : TypeExpr} (depth : Nat), t.Legible Allowed → (t.print depth).toList.length < size →
    Reads inner (t.print depth).toList t.repaired (StopsAt closers)

section Step

variable {Allowed : String → Prop} {inner : Reader TypeExpr} {size : Nat}
  (hinner : Recovers Allowed inner size)

include hinner

theorem reads_member {m : Member} (hm : m.Legible Allowed) {depth : Nat}
    (hsize : (m.print depth).toList.length ≤ size) :
    Reads (member inner) (m.print depth).toList m.repaired Anything := by
  cases hm with
  | @property name isOptional isReadonly t hname ht =>
    rw [toList_print_property] at hsize ⊢
    simp only [List.length_append] at hsize
    have hsemicolon : ";".toList.length = 1 := rfl
    have hproperty := reads_property name isOptional isReadonly (hinner.reads depth ht (by omega))
    cases isReadonly with
    | true => exact member_readonly (hproperty.orElse _)
    | false => exact (hproperty.orElse _).orElse _
  | @indexSignature param key t isReadonly hparam hkey ht =>
    rw [toList_print_indexSignature] at hsize ⊢
    simp only [List.length_append] at hsize
    have hsemicolon : ";".toList.length = 1 := rfl
    have hsignature := entry_indexSignature (reads_indexSignature hparam isReadonly
      (hinner.reads depth hkey (by omega)) (hinner.reads depth ht (by omega)))
    cases isReadonly with
    | true => exact member_readonly hsignature
    | false => exact hsignature.orElse _

theorem reads_object {ms : List Member} (hms : ∀ m ∈ ms, m.Legible Allowed) {depth : Nat}
    (hsize : ((TypeExpr.object ms).print depth).toList.length ≤ size) :
    Reads (primary inner) ((TypeExpr.object ms).print depth).toList (TypeExpr.object ms).repaired
      Anything := by
  rw [TypeExpr.repaired_object]
  cases ms with
  | nil =>
    have hempty : Reads (primary inner) ("\x7b".toList ++
        (([] : List Member).flatMap (fun m => [] ++ (m.print depth).toList) ++ []) ++ "\x7d".toList)
        (.object ([].map Member.repaired)) Anything :=
      primary_object (List.forall_mem_nil _) (List.forall_mem_nil _) (List.forall_mem_nil _)
        (List.forall_mem_nil _)
    change Reads (primary inner) "\x7b\x7d".toList _ _
    exact hempty
  | cons m more =>
    have htext : ((TypeExpr.object (m :: more)).print depth).toList = "\x7b".toList ++
        ((m :: more).flatMap (fun m => (newline (depth + 1)).toList ++
          (m.print (depth + 1)).toList) ++ (newline depth).toList) ++ "\x7d".toList := by
      rw [print_object_cons, String.toList_append, String.toList_append, String.toList_append,
        toList_printMembers, List.append_assoc "\x7b".toList]
    rw [htext] at hsize ⊢
    refine primary_object (fun _ => isBlank_newline) (fun _ => isBlank_newline)
      (fun m hm => (hms m hm).head (depth + 1)) fun m hm => reads_member hinner (hms m hm) ?_
    have hle := length_le_flatMap
      (f := fun m => (newline (depth + 1)).toList ++ (m.print (depth + 1)).toList) hm
    simp only [List.length_append] at hle hsize
    omega

theorem reads_element {t : TypeExpr} {depth : Nat}
    (ht : t.Legible Allowed ∨ ∃ last, last.Legible Allowed ∧ t = .spread (.array last))
    (hsize : (t.print depth).toList.length < size) :
    Reads (element inner) (t.print depth).toList t.repaired (StopsAt closers) := by
  rcases ht with ht | ⟨last, hlast, rfl⟩
  · exact (hinner.reads depth ht hsize).orElse _
  · rw [TypeExpr.print_spread, String.toList_append] at hsize ⊢
    rw [List.length_append] at hsize
    exact element_spread hinner.refuses (hinner.reads depth (.array hlast) (by omega))

theorem reads_tuple {elems : List TypeExpr} (h : (TypeExpr.tuple elems).Legible Allowed)
    {depth : Nat} (hsize : ((TypeExpr.tuple elems).print depth).toList.length ≤ size) :
    Reads (primary inner) ((TypeExpr.tuple elems).print depth).toList
      (TypeExpr.tuple elems).repaired Anything := by
  rw [TypeExpr.print_tuple, String.toList_append, String.toList_append] at hsize ⊢
  rw [TypeExpr.repaired_tuple]
  simp only [List.length_append] at hsize
  have hbracket : "[".toList.length = 1 := rfl
  refine primary_tuple hinner.refuses fun t ht => reads_element hinner (h.elem t ht) ?_
  have hle : (t.print depth).toList.length ≤
    (Text.join ", " (elems.map (·.print depth))).toList.length := length_le_join ht
  omega

theorem reads_named {name : String} {args : List TypeExpr} (hname : Text.isIdentifier name = true)
    (hfree : name ∉ reservedNames) (hargs : ∀ t ∈ args, t.Legible Allowed) {depth : Nat}
    (hsize : ((TypeExpr.ref name args).print depth).toList.length ≤ size) :
    Reads (primary inner) ((TypeExpr.ref name args).print depth).toList
      (TypeExpr.ref name args).repaired (StopsAt bracketedClosers) := by
  rw [TypeExpr.repaired_ref]
  cases args with
  | nil => exact primary_ref inner hname hfree
  | cons first more =>
    have htext : ((TypeExpr.ref name (first :: more)).print depth).toList = name.toList ++
        ("<".toList ++ (Text.join ", " ((first :: more).map (·.print depth))).toList ++
          ">".toList) := by
      rw [TypeExpr.print_ref depth name (List.cons_ne_nil _ _)]
      simp only [String.toList_append, List.append_assoc]
    rw [htext] at hsize ⊢
    simp only [List.length_append] at hsize
    have hbracket : "<".toList.length = 1 := rfl
    refine primary_applied hname hfree (List.cons_ne_nil _ _) fun t ht =>
      hinner.reads depth (hargs t ht) ?_
    have hle : (t.print depth).toList.length ≤
      (Text.join ", " ((first :: more).map (·.print depth))).toList.length := length_le_join ht
    omega

/-- What brackets may stand behind is read with the brackets that stand behind it. -/
theorem reads_operandText (t : TypeExpr) (ht : t.Legible Allowed) {depth : Nat}
    (hsize : (t.operandText depth).toList.length ≤ size) {suffixes : List (Option TypeExpr)}
    (h : ∀ index, some index ∈ suffixes →
      Reads inner (index.print depth).toList index.repaired (StopsAt closers)) :
    Reads (operand inner)
      ((t.operandText depth).toList ++ suffixes.flatMap (suffixText (·.print depth)))
      ((suffixes.map (Option.map .repaired)).foldl applySuffix t.repaired)
      (StopsAt spacedClosers) := by
  have hgroup (hcompound : t.isCompound = true) : Reads (primary inner)
      (t.operandText depth).toList t.repaired (StopsAt bracketedClosers) := by
    rw [TypeExpr.operandText, parenthesize, if_pos hcompound, String.toList_append,
      String.toList_append] at hsize ⊢
    simp only [List.length_append] at hsize
    have hbracket : "(".toList.length = 1 := rfl
    exact (primary_group (hinner.reads depth ht (by omega))).mono fun _ _ => trivial
  have hbase (hread : Reads (primary inner) (t.operandText depth).toList t.repaired
      (StopsAt bracketedClosers)) := reads_operand hinner.refuses hread h
  -- Arrays and accesses lean to the left: the brackets are handed down to what they stand behind.
  cases ht with
  | keyword hname => exact hbase (primary_keyword inner hname)
  | @text s _ => exact hbase ((primary_quoted inner s).mono fun _ _ => trivial)
  | bool b => exact hbase (primary_bool inner b)
  | int n => exact hbase (primary_integer inner n)
  | ref hname hfree hargs => exact hbase (reads_named hinner hname hfree hargs hsize)
  | union | intersection | readonlyArray | readonlyTuple => exact hbase (hgroup rfl)
  | tuple helems =>
    exact hbase ((reads_tuple hinner (.tuple helems) hsize).mono fun _ _ => trivial)
  | openTuple helems hlast =>
    exact hbase ((reads_tuple hinner (.openTuple helems hlast) hsize).mono fun _ _ => trivial)
  | object hms => exact hbase ((reads_object hinner hms hsize).mono fun _ _ => trivial)
  | @array elem helem =>
    have htext : ((TypeExpr.array elem).operandText depth).toList =
        (elem.operandText depth).toList ++ suffixText (·.print depth) none :=
      String.toList_append
    rw [htext, List.length_append] at hsize
    have hindexes : ∀ index, some index ∈ none :: suffixes →
        Reads inner (index.print depth).toList index.repaired (StopsAt closers) := by
      rintro index (_ | ⟨_, hmem⟩)
      exact h index hmem
    have hread := reads_operandText elem helem (by omega) hindexes
    rw [List.flatMap_cons, List.map_cons, List.foldl_cons] at hread
    rw [htext, List.append_assoc, TypeExpr.repaired_array]
    exact hread
  | @access object index hobject hindex =>
    have htext : ((TypeExpr.access object index).operandText depth).toList =
        (object.operandText depth).toList ++ suffixText (·.print depth) (some index) := by
      change (object.operandText depth ++ "[" ++ index.print depth ++ "]").toList = _
      simp only [String.toList_append, List.append_assoc, suffixText]
    rw [htext, suffixText] at hsize
    simp only [List.length_append] at hsize
    have hbracket : "[".toList.length = 1 := rfl
    have hindexes : ∀ i, some i ∈ some index :: suffixes →
        Reads inner (i.print depth).toList i.repaired (StopsAt closers) := by
      rintro i (_ | ⟨_, hmem⟩)
      · exact hinner.reads depth hindex (by omega)
      · exact h i hmem
    have hread := reads_operandText object hobject (by omega) hindexes
    rw [List.flatMap_cons, List.map_cons, List.foldl_cons] at hread
    rw [htext, List.append_assoc, TypeExpr.repaired_access]
    exact hread

theorem reads_bare {t : TypeExpr} (ht : t.Legible Allowed) {depth : Nat}
    (hsize : (t.operandText depth).toList.length ≤ size) :
    Reads (operand inner) (t.operandText depth).toList t.repaired (StopsAt spacedClosers) := by
  have hnone : ∀ index, some index ∈ ([] : List (Option TypeExpr)) →
      Reads inner (index.print depth).toList index.repaired (StopsAt closers) :=
    fun _ hmem => absurd hmem List.not_mem_nil
  have hread := reads_operandText hinner t ht hsize hnone
  rwa [List.flatMap_nil, List.append_nil] at hread

/-- A readonly type has parentheses only where brackets follow, a union also in an intersection. -/
theorem reads_factorText {t : TypeExpr} (ht : t.Legible Allowed) (hflat : t.isIntersection = false)
    {depth : Nat} (hsize : (t.factorText depth).toList.length ≤ size) :
    Reads (factor inner) (t.factorText depth).toList t.repaired (StopsAt spacedClosers) := by
  have hreadonly {list : TypeExpr} (hlist : list.Legible Allowed) (hplain : list.isCompound = false)
      (hsize : ((TypeExpr.readonly list).print depth).toList.length ≤ size) : Reads (factor inner)
      ((TypeExpr.readonly list).print depth).toList (TypeExpr.readonly list).repaired
      (StopsAt spacedClosers) := by
    have htext : list.operandText depth = list.print depth := by
      rw [TypeExpr.operandText, hplain]
      rfl
    rw [TypeExpr.print_readonly, String.toList_append, ← htext] at hsize ⊢
    rw [List.length_append] at hsize
    rw [TypeExpr.repaired_readonly]
    exact factor_readonly (reads_bare hinner hlist (by omega))
  have hbare (heq : t.factorText depth = t.operandText depth) :
      Reads (factor inner) (t.factorText depth).toList t.repaired (StopsAt spacedClosers) := by
    rw [heq] at hsize ⊢
    exact (reads_bare hinner ht hsize).orElse _
  cases ht with
  | readonlyArray hlist => exact hreadonly hlist rfl hsize
  | readonlyTuple hlist => exact hreadonly hlist rfl hsize
  | intersection => cases hflat
  | _ => exact hbare rfl

theorem reads_intersection {t : TypeExpr} (ht : t.Legible Allowed) (hflat : t.isUnion = false)
    {depth : Nat} (hsize : (t.print depth).toList.length ≤ size) :
    Reads (intersection inner) (t.print depth).toList t.repaired EndsIntersection := by
  have hsingle (hfactor : t.isIntersection = false) :
      Reads (intersection inner) (t.print depth).toList t.repaired EndsIntersection := by
    have htext : t.factorText depth = t.print depth := by
      rw [TypeExpr.factorText, hflat]
      rfl
    rw [← htext] at hsize ⊢
    exact reads_single _ (reads_factorText hinner ht hfactor hsize) fun _ h => h
  cases ht with
  | intersection htwo hfactors hparts =>
    rw [TypeExpr.print_intersection] at hsize ⊢
    rw [TypeExpr.repaired_intersection]
    refine reads_several _ rfl htwo (fun t ht => ?_) (fun rest => stopsAt_cons (by decide) rest)
      fun _ h => h
    exact reads_factorText hinner (hparts t ht) (hfactors t ht) ((length_le_join ht).trans hsize)
  | _ => exact hsingle rfl

theorem reads_union {t : TypeExpr} (ht : t.Legible Allowed) {depth : Nat}
    (hsize : (t.print depth).toList.length ≤ size) :
    Reads (union inner) (t.print depth).toList t.repaired (StopsAt closers) := by
  have hlast (rest : List Char) (h : StopsAt closers rest) :
      EndsIntersection rest ∧ exactly " | " rest = none := by
    have hblank : ' ' ∉ closers := by decide
    exact ⟨⟨h.mono fun c hc => List.mem_cons_of_mem _ hc, h.exactly_eq_none rfl hblank⟩,
      h.exactly_eq_none rfl hblank⟩
  have hsingle (hmember : t.isUnion = false) :
      Reads (union inner) (t.print depth).toList t.repaired (StopsAt closers) :=
    reads_single _ (reads_intersection hinner ht hmember hsize) hlast
  cases ht with
  | @union types htwo hmembers hparts =>
    rw [TypeExpr.print_union] at hsize ⊢
    rw [TypeExpr.repaired_union]
    refine reads_several _ rfl htwo (fun t ht => ?_)
      (fun rest => ⟨stopsAt_cons (by decide) _, rfl⟩) hlast
    exact reads_intersection hinner (hparts t ht) (hmembers t ht) ((length_le_join ht).trans hsize)
  | _ => exact hsingle rfl

end Step

/-- With each level of brackets the reader recovers longer texts. -/
theorem recovers_typeWithin (Allowed : String → Prop) (size : Nat) :
    Recovers Allowed (typeWithin size) size := by
  induction size with
  | zero => exact ⟨refuses_typeWithin 0, fun _ _ h => absurd h (Nat.not_lt_zero _)⟩
  | succ size ih =>
    exact ⟨refuses_typeWithin _, fun _ ht hsize => reads_union ih ht (Nat.le_of_lt_succ hsize)⟩

end Reader

namespace TypeExpr

/-- The type that a whole text is printed for. -/
def read? (s : String) : Option TypeExpr := do
  let (t, rest) ← Reader.typeWithin (s.length + 1) s.toList
  if rest.isEmpty then some t else none

/-- A legible type is recovered from its text, at every depth. -/
theorem read?_print {Allowed : String → Prop} {t : TypeExpr} (ht : t.Legible Allowed)
    (depth : Nat) : read? (t.print depth) = some t.repaired := by
  have hrecovers := Reader.recovers_typeWithin Allowed ((t.print depth).length + 1)
  have hread := hrecovers.reads depth ht (by rw [String.length_toList]; omega) [] nofun
  rw [List.append_nil] at hread
  rw [read?, hread]
  rfl

section Valid

variable {Allowed : String → Prop} (hallowed : ∀ s, Allowed s → Text.IsUtf8 s)

include hallowed

mutual

/-- Repairing changes nothing in a type whose texts need no repair. -/
theorem Legible.repaired_eq {t : TypeExpr} (ht : t.Legible Allowed) : t.repaired = t := by
  have hmap {types : List TypeExpr} (h : ∀ t ∈ types, t.repaired = t) :
      types.map .repaired = types := by
    rw [List.map_congr_left h, List.map_id']
  cases ht with
  | keyword | bool | int => rfl
  | text hs => rw [repaired_text, Text.repaired_eq_self_iff.mpr (hallowed _ hs)]
  | ref _ _ hargs => rw [repaired_ref, hmap fun t h => (hargs t h).repaired_eq]
  | access hobject hindex => rw [repaired_access, hobject.repaired_eq, hindex.repaired_eq]
  | union _ _ hparts => rw [repaired_union, hmap fun t h => (hparts t h).repaired_eq]
  | intersection _ _ hparts => rw [repaired_intersection, hmap fun t h => (hparts t h).repaired_eq]
  | array helem => rw [repaired_array, helem.repaired_eq]
  | readonlyArray hlist => rw [repaired_readonly, hlist.repaired_eq]
  | readonlyTuple hlist => rw [repaired_readonly, hlist.repaired_eq]
  | tuple helems => rw [repaired_tuple, hmap fun t h => (helems t h).repaired_eq]
  | openTuple helems hlast =>
    have helem := Legible.elem (.openTuple helems hlast)
    rw [repaired_tuple, hmap fun t h => ?_]
    rcases helem t h with ht | ⟨last, hlast, rfl⟩
    · exact ht.repaired_eq
    · rw [repaired_spread, repaired_array, hlast.repaired_eq]
  | object hmembers =>
    rw [repaired_object, List.map_congr_left fun m h => Legible.repaired_member (hmembers m h),
      List.map_id']
termination_by sizeOf t
decreasing_by
  all_goals try have hpart := List.sizeOf_lt_of_mem h
  all_goals
    simp only [TypeExpr.ref.sizeOf_spec, TypeExpr.access.sizeOf_spec, TypeExpr.union.sizeOf_spec,
      TypeExpr.intersection.sizeOf_spec, TypeExpr.array.sizeOf_spec, TypeExpr.readonly.sizeOf_spec,
      TypeExpr.tuple.sizeOf_spec, TypeExpr.spread.sizeOf_spec, TypeExpr.object.sizeOf_spec] at *
    omega

theorem Legible.repaired_member {m : Member} (hm : m.Legible Allowed) : m.repaired = m := by
  cases hm with
  | property hname ht =>
    rw [Member.repaired, Text.repaired_eq_self_iff.mpr (hallowed _ hname), ht.repaired_eq]
  | indexSignature _ hkey ht => rw [Member.repaired, hkey.repaired_eq, ht.repaired_eq]
termination_by sizeOf m

end

end Valid

/-- Legible types that are printed alike are alike up to the repair of their texts, and the same if
their texts need none. -/
theorem eq_of_render_eq {Allowed : String → Prop} {t u : TypeExpr} (ht : t.Legible Allowed)
    (hu : u.Legible Allowed) (h : t.render = u.render) :
    t.repaired = u.repaired ∧ ((∀ s, Allowed s → Text.IsUtf8 s) → t = u) := by
  have hread := read?_print ht 0
  have hsame : t.repaired = u.repaired := by
    rw [show t.print 0 = u.print 0 from h, read?_print hu 0] at hread
    exact (Option.some.inj hread).symm
  refine ⟨hsame, fun hallowed => ?_⟩
  rw [← ht.repaired_eq hallowed, hsame, hu.repaired_eq hallowed]

/-- A type with a literal that is a single byte. -/
def withByte (byte : Nat) : TypeExpr :=
  .intersection [
    .object [.property "a-b" true false (.ofText (Text.ofBytes [byte])) []],
    .union [.array (.ref "Pet" []), .readonly (.tuple [.string, .spread (.array .number)])]]

theorem legible_withByte (byte : Nat) : (withByte byte).Legible fun _ => True := by
  have hpets : Legible (fun _ => True) (.array (.ref "Pet" [])) :=
    .array (.ref rfl (by decide) (List.forall_mem_nil _))
  have hparts : Legible (fun _ => True)
      (.readonly (.tuple ([.string] ++ [.spread (.array .number)]))) :=
    .readonlyTuple (.openTuple (List.forall_mem_singleton.mpr (.keyword (by decide)))
      (.keyword (by decide)))
  have hunion := Legible.union (by decide)
    (List.forall_mem_cons.mpr ⟨rfl, List.forall_mem_singleton.mpr rfl⟩)
    (List.forall_mem_cons.mpr ⟨hpets, List.forall_mem_singleton.mpr hparts⟩)
  have hobject : Legible (fun _ => True)
      (.object [.property "a-b" true false (.ofText (Text.ofBytes [byte])) []]) :=
    .object (List.forall_mem_singleton.mpr (.property trivial (.text trivial)))
  exact .intersection (Nat.le_refl 2)
    (List.forall_mem_cons.mpr ⟨rfl, List.forall_mem_singleton.mpr rfl⟩)
    (List.forall_mem_cons.mpr ⟨hobject, List.forall_mem_singleton.mpr hunion⟩)

/-- The two types differ in bytes that are part of no character. -/
theorem eq_of_render_eq_withByte :
    (withByte 0xFF).render = (withByte 0xFE).render ∧
      (withByte 0xFF).repaired = (withByte 0xFE).repaired := by
  have h : (withByte 0xFF).render = (withByte 0xFE).render := by decide +kernel
  exact ⟨h, (eq_of_render_eq (legible_withByte _) (legible_withByte _) h).1⟩

/-- Bytes that are part of no character are not told apart. -/
theorem stray_bytes_alike :
    Legible (fun _ => True) (.ofText (Text.ofBytes [0xFF])) ∧
      Legible (fun _ => True) (.ofText (Text.ofBytes [0xFE])) ∧
      ofText (Text.ofBytes [0xFF]) ≠ ofText (Text.ofBytes [0xFE]) ∧
      (ofText (Text.ofBytes [0xFF])).render = "\"\uFFFD\"" ∧
      (ofText (Text.ofBytes [0xFE])).render = "\"\uFFFD\"" := by
  refine ⟨.text trivial, .text trivial, fun h => ?_, by decide +kernel, by decide +kernel⟩
  have hbytes : Text.ofBytes [0xFF] ≠ Text.ofBytes [0xFE] := by decide +kernel
  exact hbytes (Literal.text.inj (TypeExpr.literal.inj h))

end TypeExpr

end ApiTypes
