import ApiTypes.Proofs.ArrayLength
import ApiTypes.Proofs.Typing.Joins
import ApiTypes.Proofs.Uses

/-!
Types that read back as they are written. Unions and intersections are flat and have no member
twice, the readonly operator stands before an array or a tuple, only the end of a tuple is open, and
no type is left unstated.

The types of a document are put together by a few operations. A property of types that each of them
keeps is `Closed`, and this is one.
-/

namespace ApiTypes

/-- No two of the simple types read the same. -/
def Distinct (types : List TypeExpr) : Prop :=
  types.Pairwise fun t u => t.isSimple = true → u.isSimple = true → t.render ≠ u.render

def TypeExpr.isIntersection : TypeExpr → Bool
  | .intersection _ => true
  | _ => false

mutual

/-- A type that reads back as it is written, and all types in it. -/
inductive TypeExpr.WellFormed : TypeExpr → Prop where
  | keyword (name : String) : TypeExpr.WellFormed (.keyword name)
  | literal (value : Literal) : TypeExpr.WellFormed (.literal value)
  | ref {name : String} {args : List TypeExpr} : (∀ t ∈ args, t.WellFormed) →
    TypeExpr.WellFormed (.ref name args)
  | access {object index : TypeExpr} : object.WellFormed → index.WellFormed →
    TypeExpr.WellFormed (.access object index)
  | union {types : List TypeExpr} : 2 ≤ types.length → (∀ t ∈ types, t.isUnion = false) →
    Distinct types → (∀ t ∈ types, t.WellFormed) → TypeExpr.WellFormed (.union types)
  | intersection {types : List TypeExpr} : 2 ≤ types.length →
    (∀ t ∈ types, t.isIntersection = false) → Distinct types → (∀ t ∈ types, t.WellFormed) →
    TypeExpr.WellFormed (.intersection types)
  | array {elem : TypeExpr} : elem.WellFormed → TypeExpr.WellFormed (.array elem)
  | tuple {elems : List TypeExpr} : (∀ t ∈ elems, t.WellFormed) →
    TypeExpr.WellFormed (.tuple elems)
  /-- The open end is the last element. -/
  | openTuple {elems : List TypeExpr} {last : TypeExpr} : (∀ t ∈ elems, t.WellFormed) →
    last.WellFormed → TypeExpr.WellFormed (.tuple (elems ++ [.spread (.array last)]))
  | readonlyArray {elem : TypeExpr} : TypeExpr.WellFormed (.array elem) →
    TypeExpr.WellFormed (.readonly (.array elem))
  | readonlyTuple {elems : List TypeExpr} : TypeExpr.WellFormed (.tuple elems) →
    TypeExpr.WellFormed (.readonly (.tuple elems))
  | object {members : List Member} : (∀ m ∈ members, m.WellFormed) →
    TypeExpr.WellFormed (.object members)
  | template {head : String} {spans : List TemplateSpan} :
    (∀ t tail, .mk t tail ∈ spans → t.WellFormed) → TypeExpr.WellFormed (.template head spans)

/-- A member all of whose types read back as they are written. -/
inductive Member.WellFormed : Member → Prop where
  | property {name : String} {isOptional isReadonly : Bool} {t : TypeExpr} {doc : List String} :
    t.WellFormed → Member.WellFormed (.property name isOptional isReadonly t doc)
  | indexSignature {param : String} {key t : TypeExpr} {isReadonly : Bool} {doc : List String} :
    key.WellFormed → t.WellFormed → Member.WellFormed (.indexSignature param key t isReadonly doc)

end

/-- A declaration all of whose types read back as they are written. -/
inductive Decl.WellFormed : Decl → Prop where
  | alias {name : String} {t : TypeExpr} {exported : Bool} {doc : List String} :
    t.WellFormed → Decl.WellFormed (.alias name t exported doc)
  | interface {name : String} {members : List Member} {exported : Bool} {doc : List String} :
    (∀ m ∈ members, m.WellFormed) → Decl.WellFormed (.interface name members exported doc)
  | enum (name : String) (members : List EnumMember) (exported : Bool) (doc : List String) :
    Decl.WellFormed (.enum name members exported doc)
  | raw (text : String) : Decl.WellFormed (.raw text)

/-- Every type in the member has the property. -/
inductive Member.All (Good : TypeExpr → Prop) : Member → Prop where
  | property {name : String} {isOptional isReadonly : Bool} {t : TypeExpr} {doc : List String} :
    Good t → Member.All Good (.property name isOptional isReadonly t doc)
  | indexSignature {param : String} {key t : TypeExpr} {isReadonly : Bool} {doc : List String} :
    Good key → Good t → Member.All Good (.indexSignature param key t isReadonly doc)

namespace TypeExpr

/-- A property of types that goes from types to whatever is put together from them. -/
structure Closed (Good : TypeExpr → Prop) : Prop where
  keyword : ∀ name, Good (.keyword name)
  literal : ∀ value, Good (.literal value)
  ref : ∀ name args, (∀ t ∈ args, Good t) → Good (.ref name args)
  access : ∀ object key, Good object → Good (.access object (.ofText key))
  unionOf : ∀ types, (∀ t ∈ types, Good t) → Good (.unionOf types)
  intersectionOf : ∀ types, (∀ t ∈ types, Good t) → Good (.intersectionOf types)
  array : ∀ elem, Good elem → Good (.array elem)
  tuple : ∀ elems, (∀ t ∈ elems, Good t) → Good (.tuple elems)
  openTuple : ∀ elems last, (∀ t ∈ elems, Good t) → Good last →
    Good (.tuple (elems ++ [.spread (.array last)]))
  readonlyArray : ∀ elem, Good (.array elem) → Good (.readonly (.array elem))
  readonlyTuple : ∀ elems, Good (.tuple elems) → Good (.readonly (.tuple elems))
  object : ∀ members, (∀ m ∈ members, m.All Good) → Good (.object members)
  template : ∀ head spans, (∀ t tail, .mk t tail ∈ spans → Good t) → Good (.template head spans)

theorem closed_true : Closed fun _ => True := by
  constructor <;> intros <;> trivial

/-! What is well-formed is closed. -/

theorem dedupe_fresh (seen : List String) {types : List TypeExpr} {t : TypeExpr}
    (ht : t ∈ dedupe seen types) (hsimple : t.isSimple = true) : t.render ∉ seen := by
  induction types generalizing seen with
  | nil => cases ht
  | cons first rest ih =>
    rw [dedupe] at ht
    split at ht
    · split at ht
      · exact ih seen ht
      · rename_i hnew
        rcases List.mem_cons.mp ht with rfl | hrest
        · simpa using hnew
        · exact fun hold => ih (first.render :: seen) hrest (List.mem_cons_of_mem _ hold)
    · rename_i hcomplex
      rcases List.mem_cons.mp ht with rfl | hrest
      · exact absurd hsimple hcomplex
      · exact ih seen hrest

theorem distinct_dedupe (seen : List String) (types : List TypeExpr) :
    Distinct (dedupe seen types) := by
  induction types generalizing seen with
  | nil => exact .nil
  | cons first rest ih =>
    rw [dedupe]
    split
    · split
      · exact ih seen
      · refine .cons (fun u hu _ husimple heq => ?_) (ih _)
        exact dedupe_fresh _ hu husimple (heq ▸ List.mem_cons_self)
    · rename_i hcomplex
      exact .cons (fun u _ hfirst => absurd hfirst hcomplex) (ih seen)

theorem WellFormed.mem_unionMembers {t part : TypeExpr} (h : t.WellFormed)
    (hpart : part ∈ t.unionMembers) : part.WellFormed ∧ part.isUnion = false := by
  cases t with
  | union types =>
    cases h with
    | union _ hflat _ hparts => exact ⟨hparts part hpart, hflat part hpart⟩
  | _ =>
    rw [List.mem_singleton.mp hpart]
    exact ⟨h, rfl⟩

theorem WellFormed.mem_intersectionMembers {t part : TypeExpr} (h : t.WellFormed)
    (hpart : part ∈ t.intersectionMembers) : part.WellFormed ∧ part.isIntersection = false := by
  cases t with
  | intersection types =>
    cases h with
    | intersection _ hflat _ hparts => exact ⟨hparts part hpart, hflat part hpart⟩
  | _ =>
    rw [List.mem_singleton.mp hpart]
    exact ⟨h, rfl⟩

theorem two_le_length {types : List TypeExpr} (hnil : types ≠ []) (hsingle : ∀ t, types ≠ [t]) :
    2 ≤ types.length := by
  rcases types with _ | ⟨t, _ | ⟨u, rest⟩⟩
  · exact absurd rfl hnil
  · exact absurd rfl (hsingle t)
  · simp

theorem wellFormed_joinUnion {flat : List TypeExpr}
    (h : ∀ t ∈ flat, t.WellFormed ∧ t.isUnion = false) : (joinUnion flat).WellFormed := by
  have hkept (t) (ht : t ∈ dedupe [] flat) := h t ((dedupe_sublist [] flat).subset ht)
  have hdistinct := distinct_dedupe [] flat
  unfold joinUnion
  split
  · exact .keyword _
  · rename_i t heq
    exact (hkept t (by simp [heq])).1
  · rename_i hnil hsingle
    refine .union ?_ (fun t ht => (hkept t ht).2) hdistinct fun t ht => (hkept t ht).1
    exact two_le_length hnil hsingle

theorem wellFormed_joinIntersection {flat : List TypeExpr}
    (h : ∀ t ∈ flat, t.WellFormed ∧ t.isIntersection = false) :
    (joinIntersection flat).WellFormed := by
  have hkept (t) (ht : t ∈ dedupe [] flat) := h t ((dedupe_sublist [] flat).subset ht)
  have hdistinct := distinct_dedupe [] flat
  unfold joinIntersection
  split
  · exact .keyword _
  · rename_i t heq
    exact (hkept t (by simp [heq])).1
  · rename_i hnil hsingle
    refine .intersection ?_ (fun t ht => (hkept t ht).2) hdistinct fun t ht => (hkept t ht).1
    exact two_le_length hnil hsingle

end TypeExpr

theorem Member.All.wellFormed {m : Member} (h : m.All TypeExpr.WellFormed) : m.WellFormed := by
  cases h with
  | property ht => exact .property ht
  | indexSignature hkey ht => exact .indexSignature hkey ht

/-- The operations by which types are put together keep them well-formed. -/
theorem TypeExpr.closed_wellFormed : Closed WellFormed where
  keyword := .keyword
  literal := .literal
  ref _ _ h := .ref h
  access _ _ h := .access h (.literal _)
  unionOf types h := by
    apply wellFormed_joinUnion
    intro part hpart
    obtain ⟨t, ht, hmem⟩ := List.mem_flatMap.mp hpart
    exact (h t ht).mem_unionMembers hmem
  intersectionOf types h := by
    apply wellFormed_joinIntersection
    intro part hpart
    obtain ⟨t, ht, hmem⟩ := List.mem_flatMap.mp hpart
    exact (h t ht).mem_intersectionMembers hmem
  array _ h := .array h
  tuple _ h := .tuple h
  openTuple _ _ h hlast := .openTuple h hlast
  readonlyArray _ h := .readonlyArray h
  readonlyTuple _ h := .readonlyTuple h
  object _ h := .object fun m hm => (h m hm).wellFormed
  template _ _ h := .template h

/-! What else a closed property holds of. -/

namespace TypeExpr.Closed

variable {Good : TypeExpr → Prop} (hGood : Closed Good)

include hGood

theorem ofTexts (texts : List String) : Good (.unionOf (texts.map .ofText)) := by
  apply hGood.unionOf
  intro t ht
  obtain ⟨text, -, rfl⟩ := List.mem_map.mp ht
  exact hGood.literal _

theorem record {key value : TypeExpr} (hkey : Good key) (hvalue : Good value) :
    Good (.record key value) := hGood.ref _ _ (by simp [hkey, hvalue])

theorem without {t : TypeExpr} (ht : Good t) (keys : List String) : Good (t.without keys) :=
  hGood.ref _ _ (by simp [ht, hGood.ofTexts])

theorem joinable : Joinable Good where
  keyword := hGood.keyword
  emptyRecord := hGood.record (hGood.keyword _) (hGood.keyword _)
  unionOf := hGood.unionOf
  intersectionOf := hGood.intersectionOf
  without _ keys ht := hGood.without ht keys

theorem index {t : TypeExpr} (ht : Good t) (keys : List String) : Good (t.index keys) := by
  unfold TypeExpr.index
  induction keys generalizing t with
  | nil => exact ht
  | cons key rest ih => exact ih (hGood.access _ _ ht)

theorem toType (ref : String) : Good (Reference.toType ref) :=
  Reference.toType_induction (hGood.keyword _)
    (fun root => hGood.ref root [] (List.forall_mem_nil _)) hGood.access ref

theorem tupleOf {elems : List TypeExpr} (h : Good (.tuple elems)) (immutable : Bool) :
    Good (tupleOf immutable elems) := by
  unfold ApiTypes.tupleOf
  split
  · exact hGood.readonlyTuple _ h
  · exact h

theorem plainArray {item : TypeExpr} (h : Good item) (immutable : Bool) :
    Good (plainArray item immutable) := by
  cases item with
  | tuple elems => exact hGood.tupleOf h immutable
  | _ =>
    cases immutable with
    | false => exact hGood.array _ h
    | true => exact hGood.readonlyArray _ (hGood.array _ h)

theorem arrayType {s : Schema} {item t : TypeExpr} {options : Options} (hitem : Good item)
    (h : arrayType s item options = .ok t) : Good t := by
  have hrepeated (n : Nat) (elem : TypeExpr) (helem : elem ∈ List.replicate n item) :
      Good elem := by
    rw [List.eq_of_mem_replicate helem]
    exact hitem
  cases arrayType_form h with
  | plain => exact hGood.plainArray hitem _
  | tuple n => exact hGood.tupleOf (hGood.tuple _ (hrepeated n)) _
  | openTuple n => exact hGood.tupleOf (hGood.openTuple _ _ (hrepeated n) hitem) _
  | union lengths =>
    apply hGood.unionOf
    intro t ht
    obtain ⟨n, -, rfl⟩ := List.mem_map.mp ht
    exact hGood.tupleOf (hGood.tuple _ (hrepeated _)) _

theorem ofValue (v : Yaml.Value) : Good (.ofValue v) := by
  refine good_ofValue hGood.literal hGood.tuple (fun fields h => hGood.object _ fun m hm => ?_) v
  obtain ⟨field, hfield, rfl⟩ := List.mem_map.mp hm
  exact .property (h field hfield)

end TypeExpr.Closed

end ApiTypes
