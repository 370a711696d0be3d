import ApiTypes.Proofs.Pointer
import ApiTypes.Typing.Enum

/-!
The names that a type uses. A use is a named type with the number of its type arguments and the keys
under which it is accessed, as many as stand there. Putting types together adds no use of its own:
unions and intersections use what their parts use, an access only adds a key.
-/

namespace ApiTypes

/-- An occurrence of a named type and the keys that are followed from it. -/
structure Use where
  name : String
  arity : Nat
  keys : List String
  deriving DecidableEq, Repr

mutual

/-- The uses in a type that is accessed under some keys. -/
def TypeExpr.usesUnder (keys : List String) : TypeExpr → List Use
  | .unstated | .keyword _ | .literal _ => []
  | .ref name args => ⟨name, args.length, keys⟩ :: TypeExpr.usesOfAll args
  | .access whole (.literal (.text key)) => whole.usesUnder (key :: keys)
  | .access whole index => whole.usesUnder [] ++ index.usesUnder []
  | .union types | .intersection types => TypeExpr.usesOfAll types
  | .array elem => elem.usesUnder []
  | .readonly type => type.usesUnder []
  | .tuple elems => TypeExpr.usesOfAll elems
  | .spread type => type.usesUnder []
  | .object members => TypeExpr.usesOfMembers members
  | .template _ spans => TypeExpr.usesOfSpans spans

def TypeExpr.usesOfAll : List TypeExpr → List Use
  | [] => []
  | t :: rest => t.usesUnder [] ++ TypeExpr.usesOfAll rest

def TypeExpr.usesOfMembers : List Member → List Use
  | [] => []
  | .property _ _ _ t _ :: rest => t.usesUnder [] ++ TypeExpr.usesOfMembers rest
  | .indexSignature _ key t _ _ :: rest =>
    key.usesUnder [] ++ t.usesUnder [] ++ TypeExpr.usesOfMembers rest

def TypeExpr.usesOfSpans : List TemplateSpan → List Use
  | [] => []
  | .mk t _ :: rest => t.usesUnder [] ++ TypeExpr.usesOfSpans rest

end

/-- The uses in a type. -/
def TypeExpr.uses (t : TypeExpr) : List Use := t.usesUnder []

/-- The uses in a member of an object type. -/
def Member.uses : Member → List Use
  | .property _ _ _ t _ => t.uses
  | .indexSignature _ key t _ _ => key.uses ++ t.uses

/-- The uses in a declaration. Text that is taken over is not looked into. -/
def Decl.uses : Decl → List Use
  | .alias _ t _ _ => t.uses
  | .interface _ members _ _ => members.flatMap Member.uses
  | .enum .. | .raw _ => []
  | .expression t => t.uses

namespace TypeExpr

theorem usesOfAll_eq (types : List TypeExpr) : usesOfAll types = types.flatMap uses := by
  induction types with
  | nil => rfl
  | cons t rest ih =>
    rw [List.flatMap_cons, ← ih]
    rfl

theorem usesOfMembers_eq (members : List Member) :
    usesOfMembers members = members.flatMap Member.uses := by
  induction members with
  | nil => rfl
  | cons m rest ih =>
    rw [List.flatMap_cons, ← ih]
    cases m <;> rfl

theorem usesOfSpans_eq (spans : List TemplateSpan) :
    usesOfSpans spans = spans.flatMap fun | .mk t _ => t.uses := by
  induction spans with
  | nil => rfl
  | cons span rest ih =>
    rw [List.flatMap_cons, ← ih]
    cases span
    rfl

theorem uses_ref (name : String) (args : List TypeExpr) :
    (TypeExpr.ref name args).uses = ⟨name, args.length, []⟩ :: args.flatMap uses :=
  congrArg (_ :: ·) (usesOfAll_eq args)

theorem uses_object (members : List Member) :
    (TypeExpr.object members).uses = members.flatMap Member.uses :=
  usesOfMembers_eq members

theorem uses_template (head : String) (spans : List TemplateSpan) :
    (TypeExpr.template head spans).uses = spans.flatMap fun | .mk t _ => t.uses :=
  usesOfSpans_eq spans

/-- Every use in the type satisfies `P`. -/
def UsesOnly (P : Use → Prop) (t : TypeExpr) : Prop := ∀ u ∈ t.uses, P u

end TypeExpr

/-- Every use in the member satisfies `P`. -/
def Member.UsesOnly (P : Use → Prop) (m : Member) : Prop := ∀ u ∈ m.uses, P u

theorem Member.UsesOnly.property {P : Use → Prop} {name : String} {isOptional isReadonly : Bool}
    {t : TypeExpr} {doc : List String} (h : t.UsesOnly P) :
    (Member.property name isOptional isReadonly t doc).UsesOnly P := h

theorem Member.UsesOnly.indexSignature {P : Use → Prop} {param : String} {key t : TypeExpr}
    {isReadonly : Bool} {doc : List String} (hkey : key.UsesOnly P) (ht : t.UsesOnly P) :
    (Member.indexSignature param key t isReadonly doc).UsesOnly P := by
  intro u hu
  rcases List.mem_append.mp hu with h | h
  · exact hkey u h
  · exact ht u h

namespace TypeExpr.UsesOnly

variable {P Q : Use → Prop} {t : TypeExpr} {types : List TypeExpr} {members : List Member}

theorem keyword (name : String) : (TypeExpr.keyword name).UsesOnly P := by
  intro u hu
  cases hu

theorem literal (value : Literal) : (TypeExpr.literal value).UsesOnly P := by
  intro u hu
  cases hu

theorem ref {name : String} (hname : P ⟨name, types.length, []⟩)
    (htypes : ∀ t ∈ types, t.UsesOnly P) : (TypeExpr.ref name types).UsesOnly P := by
  intro u hu
  rw [uses_ref] at hu
  rcases List.mem_cons.mp hu with rfl | hargs
  · exact hname
  · obtain ⟨t, ht, hu'⟩ := List.mem_flatMap.mp hargs
    exact htypes t ht u hu'

theorem ofAll (htypes : ∀ t ∈ types, t.UsesOnly P) : ∀ u ∈ usesOfAll types, P u := by
  intro u hu
  rw [usesOfAll_eq] at hu
  obtain ⟨t, ht, hu'⟩ := List.mem_flatMap.mp hu
  exact htypes t ht u hu'

theorem union (htypes : ∀ t ∈ types, t.UsesOnly P) : (TypeExpr.union types).UsesOnly P :=
  ofAll htypes

theorem intersection (htypes : ∀ t ∈ types, t.UsesOnly P) :
    (TypeExpr.intersection types).UsesOnly P := ofAll htypes

theorem tuple (htypes : ∀ t ∈ types, t.UsesOnly P) : (TypeExpr.tuple types).UsesOnly P :=
  ofAll htypes

theorem array (h : t.UsesOnly P) : (TypeExpr.array t).UsesOnly P := h

theorem readonly (h : t.UsesOnly P) : (TypeExpr.readonly t).UsesOnly P := h

theorem spread (h : t.UsesOnly P) : (TypeExpr.spread t).UsesOnly P := h

theorem object (hmembers : ∀ m ∈ members, m.UsesOnly P) : (TypeExpr.object members).UsesOnly P := by
  intro u hu
  rw [uses_object] at hu
  obtain ⟨m, hm, hu'⟩ := List.mem_flatMap.mp hu
  exact hmembers m hm u hu'

theorem template {head : String} {spans : List TemplateSpan}
    (hspans : ∀ t tail, TemplateSpan.mk t tail ∈ spans → t.UsesOnly P) :
    (TypeExpr.template head spans).UsesOnly P := by
  intro u hu
  rw [uses_template] at hu
  obtain ⟨⟨t, tail⟩, hspan, hu'⟩ := List.mem_flatMap.mp hu
  exact hspans t tail hspan u hu'

theorem of_mem_union (h : (TypeExpr.union types).UsesOnly P) (ht : t ∈ types) : t.UsesOnly P := by
  intro u hu
  apply h u
  change u ∈ usesOfAll types
  rw [usesOfAll_eq]
  exact List.mem_flatMap.mpr ⟨t, ht, hu⟩

theorem of_mem_unionMembers {part : TypeExpr} (h : t.UsesOnly P) (hpart : part ∈ t.unionMembers) :
    part.UsesOnly P := by
  cases t with
  | union types => exact of_mem_union h hpart
  | _ =>
    rw [List.mem_singleton.mp hpart]
    exact h

theorem of_mem_intersectionMembers {part : TypeExpr} (h : t.UsesOnly P)
    (hpart : part ∈ t.intersectionMembers) : part.UsesOnly P := by
  cases t with
  | intersection types => exact of_mem_union h hpart
  | _ =>
    rw [List.mem_singleton.mp hpart]
    exact h

end TypeExpr.UsesOnly

namespace TypeExpr

/-- Nothing is added where repetitions are dropped. -/
theorem dedupe_sublist (seen : List String) (types : List TypeExpr) :
    (dedupe seen types).Sublist types := by
  induction types generalizing seen with
  | nil => exact List.Sublist.refl _
  | cons t rest ih =>
    rw [dedupe]
    split
    · split
      · exact (ih _).cons _
      · exact (ih _).cons_cons _
    · exact (ih _).cons_cons _

variable {P : Use → Prop} {t : TypeExpr} {types : List TypeExpr}

theorem UsesOnly.joinUnion (htypes : ∀ t ∈ types, t.UsesOnly P) : (joinUnion types).UsesOnly P := by
  have hkept : ∀ t ∈ dedupe [] types, t.UsesOnly P :=
    fun t ht => htypes t ((dedupe_sublist [] types).subset ht)
  unfold TypeExpr.joinUnion
  split
  · exact .keyword _
  · rename_i t heq
    exact hkept t (by simp [heq])
  · exact .union hkept

theorem UsesOnly.joinIntersection (htypes : ∀ t ∈ types, t.UsesOnly P) :
    (joinIntersection types).UsesOnly P := by
  have hkept : ∀ t ∈ dedupe [] types, t.UsesOnly P :=
    fun t ht => htypes t ((dedupe_sublist [] types).subset ht)
  unfold TypeExpr.joinIntersection
  split
  · exact .keyword _
  · rename_i t heq
    exact hkept t (by simp [heq])
  · exact .intersection hkept

theorem UsesOnly.unionOf (htypes : ∀ t ∈ types, t.UsesOnly P) : (unionOf types).UsesOnly P := by
  apply UsesOnly.joinUnion
  intro part hpart
  obtain ⟨t, ht, hmem⟩ := List.mem_flatMap.mp hpart
  exact (htypes t ht).of_mem_unionMembers hmem

theorem UsesOnly.intersectionOf (htypes : ∀ t ∈ types, t.UsesOnly P) :
    (intersectionOf types).UsesOnly P := by
  apply UsesOnly.joinIntersection
  intro part hpart
  obtain ⟨t, ht, hmem⟩ := List.mem_flatMap.mp hpart
  exact (htypes t ht).of_mem_intersectionMembers hmem

theorem UsesOnly.ofTexts (texts : List String) :
    (TypeExpr.unionOf (texts.map ofText)).UsesOnly P := by
  apply UsesOnly.unionOf
  intro t ht
  obtain ⟨text, -, rfl⟩ := List.mem_map.mp ht
  exact .literal _

theorem UsesOnly.record {key value : TypeExpr} (hname : P ⟨"Record", 2, []⟩)
    (hkey : key.UsesOnly P) (hvalue : value.UsesOnly P) : (record key value).UsesOnly P := by
  refine @UsesOnly.ref P [key, value] "Record" hname ?_
  simp [hkey, hvalue]

theorem UsesOnly.without {keys : List String} (hname : P ⟨"Omit", 2, []⟩) (ht : t.UsesOnly P) :
    (t.without keys).UsesOnly P := by
  refine @UsesOnly.ref P [t, TypeExpr.unionOf (keys.map ofText)] "Omit" hname ?_
  simp [ht, UsesOnly.ofTexts]

end TypeExpr

namespace Reference

/-- Accesses under text keys add the keys and no use. -/
theorem usesUnder_indexTokens (depth position : Nat) (skipped : Bool) (t : TypeExpr)
    (tokens keys : List String) :
    ∃ more, (indexTokens depth position skipped t tokens).usesUnder keys =
      t.usesUnder (more ++ keys) := by
  induction tokens generalizing position skipped t with
  | nil => exact ⟨[], rfl⟩
  | cons token rest ih =>
    rw [indexTokens_cons]
    split
    · exact ih _ _ _
    · obtain ⟨more, hmore⟩ := ih (position + 1) false (.access t (.ofText token))
      refine ⟨token :: more, ?_⟩
      rw [hmore]
      rfl

/-- The tokens before position `depth` are all kept as keys. -/
theorem usesUnder_indexTokens_of_lt {depth position : Nat} (h : position < depth) (skipped : Bool)
    (t : TypeExpr) (token : String) (rest keys : List String) :
    (indexTokens depth position skipped t (token :: rest)).usesUnder keys =
      (indexTokens depth (position + 1) false (.access t (.ofText token)) rest).usesUnder keys := by
  have hdepth : ¬ depth ≤ position := by omega
  rw [indexTokens_cons, if_neg (by simp [hdepth])]

/-- The type of a reference uses one root under keys, or nothing. -/
theorem uses_toType {ref root first : String} {rest : List String}
    (htokens : tokens? ref = some (root :: first :: rest)) (hroot : root ≠ "components") :
    ∃ more, (toType ref).uses = [⟨root, 0, first :: more⟩] := by
  obtain ⟨more, hmore⟩ := usesUnder_indexTokens 1 1 false
    (.access (.named root) (.ofText first)) rest []
  have htype : toType ref = indexTokens 1 0 false (.named root) (first :: rest) := by
    unfold toType
    rw [htokens]
    dsimp only
    rw [if_neg hroot]
  refine ⟨more, ?_⟩
  rw [htype, TypeExpr.uses, usesUnder_indexTokens_of_lt Nat.one_pos, hmore, List.append_nil]
  rfl

theorem uses_toType_components {ref category name : String} {rest : List String}
    (htokens : tokens? ref = some ("components" :: category :: name :: rest)) :
    ∃ more, (toType ref).uses = [⟨"components", 0, category :: name :: more⟩] := by
  obtain ⟨more, hmore⟩ := usesUnder_indexTokens 2 2 false
    (.access (.access (.named "components") (.ofText category)) (.ofText name)) rest []
  have htype : toType ref =
      indexTokens 2 0 false (.named "components") (category :: name :: rest) := by
    unfold toType
    rw [htokens]
    dsimp only
    rw [if_pos rfl]
  refine ⟨more, ?_⟩
  rw [htype, TypeExpr.uses, usesUnder_indexTokens_of_lt Nat.two_pos,
    usesUnder_indexTokens_of_lt Nat.one_lt_two, hmore, List.append_nil]
  rfl

theorem uses_toType_of_not_pointer {ref : String} (h : tokens? ref = none) :
    (toType ref).uses = [] := by
  unfold toType
  rw [h]
  rfl

/-- A reference is unknown or an access to a root, key by key. -/
theorem toType_induction {motive : TypeExpr → Prop} (hunknown : motive .unknown)
    (hroot : ∀ root, motive (.named root))
    (haccess : ∀ t token, motive t → motive (.access t (.ofText token))) (ref : String) :
    motive (toType ref) := by
  have htokens (depth position : Nat) (skipped : Bool) (t : TypeExpr) (ht : motive t)
      (tokens : List String) : motive (indexTokens depth position skipped t tokens) := by
    induction tokens generalizing position skipped t with
    | nil => exact ht
    | cons token rest ih =>
      rw [indexTokens_cons]
      split
      · exact ih _ _ _ ht
      · exact ih _ _ _ (haccess _ _ ht)
  unfold toType
  split
  · exact htokens _ _ _ _ (hroot _) _
  · exact hunknown

end Reference

namespace TypeExpr

/-! The literal type of a value is put together from literals, tuples and objects. -/

section Values

variable {Good : TypeExpr → Prop} (hliteral : ∀ value, Good (.literal value))
  (htuple : ∀ elems, (∀ t ∈ elems, Good t) → Good (.tuple elems))
  (hobject : ∀ fields : List (String × TypeExpr), (∀ field ∈ fields, Good field.2) →
    Good (.object (fields.map fun field => .plain field.1 field.2)))

include hliteral htuple hobject

set_option linter.unusedSectionVars false

mutual

theorem good_ofValue : ∀ v : Yaml.Value, Good (TypeExpr.ofValue v)
  | .dict entries => by
    rw [TypeExpr.ofValue]
    apply hobject
    intro field hfield
    exact good_ofEntries entries field.1 field.2 ((List.mergeSort_perm _ _).subset hfield)
  | .list items => by
    rw [TypeExpr.ofValue]
    exact htuple _ (good_ofValues items)
  | .null | .bool _ | .int _ | .float _ | .text _ | .time _ | .table _ => hliteral _
termination_by structural v => v

theorem good_ofValues : ∀ values : List Yaml.Value, ∀ t ∈ TypeExpr.ofValues values, Good t
  | [] => nofun
  | v :: rest => by
    intro t ht
    rw [TypeExpr.ofValues] at ht
    rcases List.mem_cons.mp ht with rfl | hrest
    · exact good_ofValue v
    · exact good_ofValues rest t hrest
termination_by structural values => values

theorem good_ofEntries : ∀ entries : List (String × Yaml.Value),
    ∀ key t, (key, t) ∈ TypeExpr.ofEntries entries → Good t
  | [] => nofun
  | (name, v) :: rest => by
    intro key t ht
    rw [TypeExpr.ofEntries] at ht
    rcases List.mem_cons.mp ht with heq | hrest
    · cases heq
      exact good_ofValue v
    · exact good_ofEntries rest key t hrest
termination_by structural entries => entries

end

end Values

/-- The literal type of a value uses no names. -/
theorem UsesOnly.ofValue {P : Use → Prop} (v : Yaml.Value) : (TypeExpr.ofValue v).UsesOnly P := by
  refine good_ofValue UsesOnly.literal (fun _ h => UsesOnly.tuple h) (fun fields h => ?_) v
  apply UsesOnly.object
  intro m hm
  obtain ⟨field, hfield, rfl⟩ := List.mem_map.mp hm
  exact h field hfield

end TypeExpr

end ApiTypes
