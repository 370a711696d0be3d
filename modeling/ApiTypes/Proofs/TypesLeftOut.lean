import ApiTypes.Proofs.Composition
import ApiTypes.Proofs.NullAlternatives
import Mathlib.Data.Set.Lattice

/-!
Type names that a schema leaves to its alternatives. If it leaves all of them, nothing remains of
its own type but the empty one. Alternatives that are all primitive widen that, so that together
they are the type of the schema; any others narrow it, and the type of the schema stays empty.
-/

namespace ApiTypes

namespace TypeExpr

/-- Types read as sets: a union and an intersection are those of sets, the empty type has no
elements, and the two ways to write null mean the same. -/
structure IsReading {α : Type*} (D : TypeExpr → Set α) : Prop where
  union (types : List TypeExpr) : D (.union types) = ⋃ t ∈ types, D t
  intersection (types : List TypeExpr) : D (.intersection types) = ⋂ t ∈ types, D t
  never : D .never = ∅
  null : D (.literal .null) = D .null

variable {α : Type*} {D : TypeExpr → Set α}

theorem IsReading.primitive (hD : IsReading D) {t u : TypeExpr} (ht : t.isPrimitive = true)
    (hu : u.isPrimitive = true) (h : t.render = u.render) : D t = D u := by
  have hkeyword {t : TypeExpr} (ht : t.isPrimitive = true) : D t = D (.keyword t.render) := by
    cases t with
    | keyword name => rfl
    | literal value =>
      rw [isPrimitive, decide_eq_true_eq] at ht
      subst ht
      exact hD.null
    | _ => cases ht
  rw [hkeyword ht, h, ← hkeyword hu]

theorem isSimple_of_isPrimitive {t : TypeExpr} (h : t.isPrimitive = true) : t.isSimple = true := by
  cases t with
  | keyword | literal => rfl
  | _ => cases h

theorem unionMembers_of_isPrimitive {t : TypeExpr} (h : t.isPrimitive = true) :
    t.unionMembers = [t] := by
  cases t with
  | keyword | literal => rfl
  | _ => cases h

theorem IsReading.joinUnion (hD : IsReading D) (flat : List TypeExpr) :
    D (joinUnion flat) = ⋃ t ∈ dedupe [] flat, D t := by
  unfold TypeExpr.joinUnion
  split
  · rename_i hnil
    simp [hnil, hD.never]
  · rename_i t hone
    simp [hone]
  · exact hD.union _

/-- Primitive types that read the same mean the same, so that none is missing from their union. -/
theorem IsReading.unionOf (hD : IsReading D) {types : List TypeExpr}
    (h : ∀ t ∈ types, t.isPrimitive = true) : D (unionOf types) = ⋃ t ∈ types, D t := by
  have hflat : types.flatMap unionMembers = types := by
    rw [List.flatMap_congr fun t ht => unionMembers_of_isPrimitive (h t ht)]
    exact List.flatMap_singleton' types
  rw [TypeExpr.unionOf, hflat, hD.joinUnion]
  apply Set.Subset.antisymm
  · exact Set.iUnion₂_subset fun t ht =>
      Set.subset_iUnion₂_of_subset t ((dedupe_sublist [] types).subset ht) subset_rfl
  · refine Set.iUnion₂_subset fun t ht => ?_
    obtain ⟨u, hu, -, hsame⟩ :=
      (exists_mem_dedupe (isSimple_of_isPrimitive (h t ht)) [] ht).resolve_left nofun
    have hprimitive := h u ((dedupe_sublist [] types).subset hu)
    rw [hD.primitive (h t ht) hprimitive hsame.symm]
    exact Set.subset_iUnion₂_of_subset u hu subset_rfl

/-- What is narrowed from nothing is nothing. -/
theorem IsReading.intersectionOf_never (hD : IsReading D) (t : TypeExpr) :
    D (intersectionOf [.never, t]) = ∅ := by
  have hflat : [TypeExpr.never, t].flatMap intersectionMembers =
      .never :: t.intersectionMembers := by
    simp [intersectionMembers, TypeExpr.never]
  have hfirst : ∃ rest, dedupe [] (.never :: t.intersectionMembers) = .never :: rest := ⟨_, rfl⟩
  obtain ⟨rest, hrest⟩ := hfirst
  rw [intersectionOf, hflat, joinIntersection, hrest]
  cases rest with
  | nil => exact hD.never
  | cons u more =>
    dsimp only
    rw [hD.intersection]
    apply Set.subset_eq_empty (Set.iInter₂_subset TypeExpr.never List.mem_cons_self)
    exact hD.never

end TypeExpr

/-- The keyword for values of the same kind. -/
def Literal.kind : Literal → String
  | .null => "null"
  | .text _ => "string"
  | .bool _ => "boolean"
  | .int _ | .number _ => "number"

/-- The type describes a value without parts. -/
inductive Literal.Inhabits : Literal → TypeExpr → Prop where
  | keyword {v : Literal} {name : String} : v.kind = name → Literal.Inhabits v (.keyword name)
  | literal (v : Literal) : Literal.Inhabits v (.literal v)
  | union {v : Literal} {types : List TypeExpr} {t : TypeExpr} : t ∈ types → v.Inhabits t →
    Literal.Inhabits v (.union types)
  | intersection {v : Literal} {types : List TypeExpr} : (∀ t ∈ types, v.Inhabits t) →
    Literal.Inhabits v (.intersection types)

namespace TypeExpr

/-- The values without parts that a type describes. -/
def Values (t : TypeExpr) : Set Literal := {v | v.Inhabits t}

theorem isReading_values : IsReading Values where
  union types := by
    ext v
    simp only [Set.mem_iUnion, exists_prop]
    constructor
    · rintro ⟨⟩
      exact ⟨_, ‹_›, ‹_›⟩
    · rintro ⟨t, ht, hv⟩
      exact .union ht hv
  intersection types := by
    ext v
    simp only [Set.mem_iInter]
    constructor
    · rintro ⟨⟩
      assumption
    · exact .intersection
  never := by
    ext v
    constructor
    · rintro ⟨hkind⟩
      cases v <;> simp [Literal.kind] at hkind
    · nofun
  null := by
    ext v
    constructor
    · rintro ⟨⟩
      exact .keyword rfl
    · rintro ⟨hkind⟩
      cases v with
      | null => exact .literal .null
      | _ => simp [Literal.kind] at hkind

end TypeExpr

open TypeExpr

/-- Several type names, all of which the schema leaves to its alternatives, and nothing else that
it is put together from. -/
structure Schema.LeavesTypes (s : Schema) : Prop where
  bool : s.bool = none
  ref : s.isRef = false
  several : 2 ≤ (s.types.getD []).length
  left : ∀ name ∈ s.types.getD [], Typing.isPrimitiveName name = true ∧
    ∃ member, some member ∈ s.oneOf.getD [] ∧ member.singleType? = some name
  enum : s.enum.getD [] = []
  const : s.hasConst = false
  allOf : s.allOf.getD [] = []
  anyOf : s.anyOf.getD [] = []
  nullable : s.nullable = false

namespace Typing

variable {σ : Setting} {body : SchemaBody} {s : Schema}

/-- The look at the alternatives finds one with the type name, unless it comes to a null first. -/
theorem exec_isAlternative_of_mem {name : String} {members : List (Option Schema)}
    {member : Schema} (hmember : some member ∈ members) (hname : member.singleType? = some name)
    (σ : Setting) (p : Progress) :
    exec (isAlternative name members) σ p = (.ok true, p) ∨
      none ∈ members ∧ exec (isAlternative name members) σ p = (.error .nullAlternative, p) := by
  induction members with
  | nil => cases hmember
  | cons first rest ih =>
    cases first with
    | none => exact .inr ⟨List.mem_cons_self, rfl⟩
    | some other =>
      rw [isAlternative]
      by_cases hother : other.singleType? = some name
      · rw [if_pos hother]
        exact .inl rfl
      · rw [if_neg hother]
        rcases List.mem_cons.mp hmember with heq | hrest
        · cases heq
          exact absurd hname hother
        · exact (ih hrest).imp_right fun h => ⟨List.mem_cons_of_mem _ h.1, h.2⟩

/-- So of names that are all left to the alternatives nothing is typed. -/
theorem exec_typeListMembers_left (names : List String)
    (h : ∀ name ∈ names, isPrimitiveName name = true ∧
      ∃ member, some member ∈ s.oneOf.getD [] ∧ member.singleType? = some name)
    (body : SchemaBody) (place : String) (σ : Setting) (p : Progress) :
    exec (typeListMembers body s place names) σ p = (.ok [], p) ∨
      none ∈ s.oneOf.getD [] ∧
        exec (typeListMembers body s place names) σ p = (.error .nullAlternative, p) := by
  induction names with
  | nil => exact .inl rfl
  | cons name rest ih =>
    obtain ⟨⟨hprimitive, member, hmember, hname⟩, hrest⟩ := List.forall_mem_cons.mp h
    rw [typeListMembers, exec_bind, isLeftToAlternatives, if_pos hprimitive]
    rcases exec_isAlternative_of_mem hmember hname σ p with hfound | ⟨hnull, hfails⟩
    · rw [hfound]
      exact ih hrest
    · rw [hfails]
      exact .inr ⟨hnull, rfl⟩

/-- Nothing is added to the empty type but the alternatives. -/
theorem exec_composition_left (h : s.LeavesTypes) (body : SchemaBody) (place : String)
    (σ : Setting) (p : Progress) :
    exec (composition body s place) σ p = (.ok ⟨some .never, []⟩, p) ∨
      none ∈ s.oneOf.getD [] ∧
        exec (composition body s place) σ p = (.error .nullAlternative, p) := by
  have hcore : coreType? body s place = do
      return some (.unionOf (← typeListMembers body s place (s.types.getD []))) := by
    have hseveral := h.several
    unfold coreType?
    generalize s.types.getD [] = names at hseveral ⊢
    split
    all_goals first | rfl | exact absurd hseveral (by simp)
  unfold composition
  rw [hcore, h.allOf, exec_bind, exec_bind]
  rcases exec_typeListMembers_left _ h.left body place σ p with hnone | ⟨hnull, hfails⟩
  · rw [hnone]
    exact .inl rfl
  · rw [hfails]
    exact .inr ⟨hnull, rfl⟩

/-- What the alternatives make of a type that is empty without them. -/
def widened (alternatives : List TypeExpr) : TypeExpr :=
  (compose (some .never) alternatives).getD .never

theorem compose_never (alternatives : List TypeExpr) :
    compose (some .never) alternatives = some (widened alternatives) := by
  unfold widened
  cases alternatives with
  | nil => rfl
  | cons first rest =>
    unfold compose
    dsimp only
    split <;> rfl

theorem exec_typeWith_left (hσ : HookFree σ) (h : s.LeavesTypes) (steps : Nat) (place : String)
    (p : Progress) :
    exec (typeWith (schemaBody (steps + 1)) (some s) place) σ p =
        exec (widened <$> typesAt (schemaBody steps) (Reference.join place ["oneOf"])
          (s.oneOf.getD []).zipIdx) σ p ∨
      none ∈ s.oneOf.getD [] ∧
        exec (typeWith (schemaBody (steps + 1)) (some s) place) σ p =
          (.error .nullAlternative, p) := by
  have hplain : isEnumSchema s = false := by simp [isEnumSchema, h.enum]
  have hbody : schemaBody (steps + 1) (some s) place = composedType (schemaBody steps) s place := by
    rw [schemaBody, bodyStep]
    simp only [h.bool, h.ref, hplain, h.const, Bool.false_eq_true, if_false]
  rw [exec_typeWith hσ, hbody, composedType, exec_bind]
  rcases exec_composition_left h (schemaBody steps) place σ p with hempty | ⟨hnull, hfails⟩
  · rw [hempty, exec_map]
    refine .inl ?_
    dsimp only
    rw [withAlternatives, h.anyOf, List.zipIdx_nil, typesAt, pure_bind, exec_bind]
    simp only [h.nullable, Bool.false_and, Bool.false_eq_true, if_false]
    cases exec (typesAt (schemaBody steps) (Reference.join place ["oneOf"])
        (s.oneOf.getD []).zipIdx) σ p with
    | mk result q =>
      cases result with
      | error e => rfl
      | ok types =>
        change (Except.ok ((compose (some .never) types).getD (bareType σ.options s)), q) = _
        rw [compose_never]
        rfl
  · rw [hfails]
    exact .inr ⟨hnull, rfl⟩

/-- Primitive alternatives take the place of the empty type, any others leave it empty. -/
theorem reading_widened {α : Type*} {D : TypeExpr → Set α} (hD : IsReading D)
    (alternatives : List TypeExpr) :
    D (widened alternatives) = ⋃ t ∈ alternatives, D t ↔
      (∀ t ∈ alternatives, t.isPrimitive = true) ∨ ⋃ t ∈ alternatives, D t = ∅ := by
  cases alternatives with
  | nil => simp [widened, compose, hD.never]
  | cons first rest =>
    by_cases hprimitive : ∀ t ∈ first :: rest, t.isPrimitive = true
    · have hall : (first :: rest).all (·.isPrimitive) = true := List.all_eq_true.mpr hprimitive
      have hwith : ∀ t ∈ TypeExpr.never :: first :: rest, t.isPrimitive = true :=
        List.forall_mem_cons.mpr ⟨rfl, hprimitive⟩
      refine iff_of_true ?_ (.inl hprimitive)
      rw [widened, compose, if_pos hall, Option.getD_some, hD.unionOf hwith]
      · simp [hD.never]
      · nofun
    · have hsome : ¬ (first :: rest).all (·.isPrimitive) = true :=
        fun h => hprimitive (List.all_eq_true.mp h)
      rw [widened, compose, if_neg hsome, Option.getD_some, hD.intersectionOf_never,
        or_iff_right hprimitive, eq_comm]
      nofun

/-- A schema that leaves its types to its alternatives is typed after these, unless one of them is
null, and has the elements of their types exactly if all of them are primitive or there are none. -/
theorem typeWith_left (hσ : HookFree σ) (h : s.LeavesTypes) (steps : Nat) (place : String)
    (p : Progress) :
    (none ∉ s.oneOf.getD [] → ∀ types q,
      exec (typesAt (schemaBody steps) (Reference.join place ["oneOf"])
        (s.oneOf.getD []).zipIdx) σ p = (.ok types, q) →
      ∃ t, exec (typeWith (schemaBody (steps + 1)) (some s) place) σ p = (.ok t, q)) ∧
    ∀ t q, exec (typeWith (schemaBody (steps + 1)) (some s) place) σ p = (.ok t, q) →
      ∃ types, exec (typesAt (schemaBody steps) (Reference.join place ["oneOf"])
          (s.oneOf.getD []).zipIdx) σ p = (.ok types, q) ∧
        ∀ {α : Type} {D : TypeExpr → Set α}, IsReading D →
          (D t = ⋃ u ∈ types, D u ↔
            (∀ u ∈ types, u.isPrimitive = true) ∨ ⋃ u ∈ types, D u = ∅) := by
  have hrun := exec_typeWith_left hσ h steps place p
  rw [exec_map] at hrun
  constructor
  · intro hnull types q htypes
    rw [htypes] at hrun
    exact ⟨_, hrun.resolve_right fun h => hnull h.1⟩
  · intro t q ht
    rcases hrun with hwidened | ⟨-, hfails⟩
    · cases htypes : exec (typesAt (schemaBody steps) (Reference.join place ["oneOf"])
          (s.oneOf.getD []).zipIdx) σ p with
      | mk result r =>
        rw [htypes, ht] at hwidened
        cases result with
        | error e => cases hwidened
        | ok types =>
          cases hwidened
          exact ⟨types, rfl, fun hD => reading_widened hD types⟩
    · rw [ht] at hfails
      cases hfails

/-- Texts and numbers. -/
def textOrNumber (texts : Schema) : Schema where
  types := some ["string", "number"]
  oneOf := some [some texts, some { types := some ["number"] }]

theorem leavesTypes_textOrNumber {texts : Schema} (h : texts.singleType? = some "string") :
    (textOrNumber texts).LeavesTypes where
  bool := rfl
  ref := rfl
  several := Nat.le_refl 2
  left := by
    intro name hname
    rcases List.mem_pair.mp hname with rfl | rfl
    · exact ⟨rfl, texts, List.mem_cons_self, h⟩
    · exact ⟨rfl, _, List.mem_cons_of_mem _ (List.mem_singleton_self _), rfl⟩
  enum := rfl
  const := rfl
  allOf := rfl
  anyOf := rfl
  nullable := rfl

/-- Any text and any number. -/
theorem typeWith_left_all :
    let s := textOrNumber { types := some ["string"] }
    s.LeavesTypes ∧
    exec (typesAt (schemaBody 1) "#/oneOf" ((s.oneOf.getD []).zipIdx)) {} {} =
      (.ok [.string, .number], {}) ∧
    exec (typeWith (schemaBody 2) (some s) "#") {} {} =
      (.ok (.union [.never, .string, .number]), {}) ∧
    Values (.union [.never, .string, .number]) = ⋃ u ∈ [TypeExpr.string, .number], Values u := by
  intro s
  have hleft : s.LeavesTypes := leavesTypes_textOrNumber rfl
  have htypes : exec (typesAt (schemaBody 1) "#/oneOf" ((s.oneOf.getD []).zipIdx)) {} {} =
      (.ok [.string, .number], {}) := rfl
  have hrun : exec (typeWith (schemaBody 2) (some s) "#") {} {} =
      (.ok (.union [.never, .string, .number]), {}) := rfl
  obtain ⟨types, hsame, hread⟩ := (typeWith_left ⟨rfl, rfl⟩ hleft 1 "#" {}).2 _ _ hrun
  cases htypes.symm.trans hsame
  exact ⟨hleft, htypes, hrun, (hread isReading_values).mpr (.inl (by decide))⟩

/-- Only the text "a", and any number: nothing is left of either. -/
theorem leftText_lost :
    let s := textOrNumber { types := some ["string"], enum := some [.text "a"] }
    s.LeavesTypes ∧
    exec (typesAt (schemaBody 1) "#/oneOf" ((s.oneOf.getD []).zipIdx)) {} {} =
      (.ok [.ofText "a", .number], {}) ∧
    exec (typeWith (schemaBody 2) (some s) "#") {} {} =
      (.ok (.intersection [.never, .union [.ofText "a", .number]]), {}) ∧
    Values (.intersection [.never, .union [.ofText "a", .number]]) ≠
      ⋃ u ∈ [TypeExpr.ofText "a", .number], Values u := by
  refine ⟨leavesTypes_textOrNumber rfl, rfl, rfl, fun hsame => ?_⟩
  have hmem : Literal.text "a" ∈ ⋃ u ∈ [TypeExpr.ofText "a", .number], Values u :=
    Set.mem_biUnion (List.mem_cons_self : TypeExpr.ofText "a" ∈ _) (.literal _)
  rw [← hsame, isReading_values.intersection] at hmem
  have hnever : Literal.text "a" ∈ Values .never := Set.mem_iInter₂.mp hmem _ List.mem_cons_self
  rw [isReading_values.never] at hnever
  exact hnever

end Typing

end ApiTypes
