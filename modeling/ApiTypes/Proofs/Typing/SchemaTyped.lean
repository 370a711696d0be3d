import ApiTypes.Proofs.SchemaSize
import ApiTypes.Proofs.Typing.SchemaRules

/-!
The types of schemas use only names that stand for something, by induction on the number of
unfoldings. There are enough of these: going to a schema below makes what is left of the schema
smaller, and going to a target in another document makes what is left of the places there smaller.
-/

namespace ApiTypes.Typing

variable {w : Source} {σ : Setting} {p : Progress} {s : Schema}

/-- A schema that can be met, seen as a whole, with other required keys or for one of its types. -/
inductive Views (w : Source) : Schema → Prop where
  | whole {s : Schema} : w.Reaches (.schema s) → Views w s
  | required {s : Schema} (keys : Option (List String)) :
    Views w s → Views w { s with required := keys }
  | singled {s : Schema} (name : String) : Views w s → Views w (singled s name)

theorem children_singled (s : Schema) (name : String) :
    (singled s name).children.Sublist s.children := by
  unfold Schema.children
  by_cases hbool : s.isBool = true
  · have hsame : (singled s name).isBool = true := hbool
    rw [if_pos hsame]
    exact List.nil_sublist _
  · have hsame : ¬ (singled s name).isBool = true := hbool
    rw [if_neg hbool, if_neg hsame]
    have hnone (keyword : String) : Schema.numbered keyword none = [] := rfl
    simp only [singled, hnone, List.append_nil]
    refine List.Sublist.trans ?_ (List.sublist_append_left _ _)
    refine List.Sublist.trans ?_ (List.sublist_append_left _ _)
    exact List.sublist_append_left _ _

namespace Views

theorem held {child : Schema} (hs : Views w s) (h : s.Holds child) :
    w.Reaches (.schema child) := by
  induction hs with
  | whole hreaches => exact hreaches.held h
  | required keys _ ih => exact ih h
  | @singled whole name _ ih =>
    obtain ⟨path, hpath⟩ := h
    exact ih ⟨path, (children_singled { whole with bool := none } name).subset hpath⟩

theorem asks (hs : Views w s) : w.Asks s.ref := by
  induction hs with
  | whole hreaches => exact .held hreaches
  | required keys _ ih => exact ih
  | singled name _ ih => exact ih

theorem null (hs : Views w s) (h : none ∈ s.oneOf.getD []) :
    ∃ s, w.Reaches (.schema s) ∧ none ∈ s.oneOf.getD [] := by
  induction hs with
  | whole hreaches => exact ⟨_, hreaches, h⟩
  | required keys _ ih => exact ih h
  | singled name _ _ => cases h

theorem oversized (hs : Views w s) (h : s.Oversized) :
    ∃ s, w.Reaches (.schema s) ∧ s.Oversized := by
  induction hs with
  | whole hreaches => exact ⟨_, hreaches, h⟩
  | required keys _ ih => exact ih h
  | singled name _ ih => exact ih h

end Views

/-- How many unfoldings a schema takes that refers to no other document. -/
def cost : Option Schema → Nat
  | none => 1
  | some s => 2 * s.walk.length + if 2 ≤ (s.types.getD []).length then 1 else 0

theorem cost_pos (s : Option Schema) : 0 < cost s := by
  cases s with
  | none => exact Nat.one_pos
  | some s =>
    have hwalk := s.walk_length_pos
    simp only [cost]
    omega

theorem cost_null (s : Schema) : cost none < cost (some s) := by
  have hwalk := s.walk_length_pos
  simp only [cost]
  omega

theorem cost_le (s : Schema) : cost (some s) ≤ 2 * s.walk.length + 1 := by
  simp only [cost]
  split <;> omega

theorem cost_child {child : Schema} (hbool : s.bool = none) (h : s.Holds child)
    (keys : Option (List String)) :
    cost (some { child with required := keys }) < cost (some s) := by
  obtain ⟨path, hpath⟩ := h
  have hinner : s.inner = s.children := by
    cases s
    cases hbool
    rfl
  rw [hinner] at hpath
  have hwalk := Schema.walk_length_child hpath
  have hsame : { child with required := keys : Schema }.walk.length ≤ child.walk.length :=
    Schema.walk_length_sublist (List.Sublist.refl _)
  have hle := cost_le { child with required := keys }
  have hlarge : 2 * s.walk.length ≤ cost (some s) := Nat.le_add_right _ _
  omega

theorem cost_singled (hmany : 2 ≤ (s.types.getD []).length) (name : String) :
    cost (some (singled s name)) < cost (some s) := by
  have hwalk := Schema.walk_length_sublist (children_singled s name)
  have hone : ¬ 2 ≤ ((singled s name).types.getD []).length := by simp [singled]
  simp only [cost, if_pos hmany, if_neg hone]
  omega

/-- How many of some places are not being written out. -/
def room (places inlining : List String) : Nat := (places.filter (!inlining.contains ·)).length

theorem room_cons {places inlining : List String} {key : String} (hkey : key ∈ places)
    (hnew : key ∉ inlining) : room places (key :: inlining) < room places inlining := by
  have hsub : (places.filter (!(key :: inlining).contains ·)) =
      (places.filter (!inlining.contains ·)).filter (· ≠ key) := by
    rw [List.filter_filter]
    apply List.filter_congr
    intro place _
    by_cases hplace : place = key <;> simp [hplace]
  unfold room
  rw [hsub]
  apply List.length_filter_lt_length_iff_exists.mpr
  exact ⟨key, List.mem_filter.mpr ⟨hkey, by simpa using hnew⟩, by simp⟩

/-- How many unfoldings a target takes that a reference into another document leads to. -/
def targetCost (w : Source) : Nat := 2 * (w.reach + (Index.ofDocument w.doc).length + 1)

theorem cost_target {places : List String} (hcovers : w.Covers places) {target : Schema}
    (htarget : w.Finds (.schema target)) : cost (some target) < targetCost w := by
  have hwalk : target.walk.length ≤ w.reach + (Index.ofDocument w.doc).length := by
    rcases htarget with ⟨key, hmem⟩ | ⟨key, hserves⟩
    · exact Nat.le_trans (Index.roomy_ofDocument w.doc key target hmem) (Nat.le_add_left _ _)
    · exact Nat.le_trans ((hcovers.2 key _ hserves).2 target rfl) (Nat.le_add_right _ _)
  have hle := cost_le target
  unfold targetCost
  omega

/-- With enough unfoldings, the type of a schema is fine. -/
theorem schemaBody_ensures (hσ : HookFree σ) (steps : Nat) (s : Option Schema) (place : String)
    (hs : ∀ x, s = some x → Views w x)
    (hsteps : ∀ places, w.Covers places →
      cost s + room places p.inlining * targetCost w ≤ steps) :
    Ensures w σ p (schemaBody steps s place) (Typed w) := by
  induction steps generalizing s place p with
  | zero =>
    apply Ensures.throw
    rintro ⟨places, hcovers⟩
    have hnone := hsteps places hcovers
    have hpos := cost_pos s
    omega
  | succ steps ih =>
    rw [schemaBody]
    cases s with
    | none => exact .pure (.keyword _)
    | some s =>
      have hview : Views w s := hs s rfl
      unfold bodyStep
      dsimp only
      cases hbool : s.bool with
      | some b => cases b <;> exact .pure (TypeExpr.UsesOnly.keyword _)
      | none =>
        dsimp only
        -- Below `s` the same places are left and the schemas are smaller.
        have hsmaller (t : Option Schema) (hviews : ∀ x, t = some x → Views w x)
            (hcost : cost t < cost (some s)) : Handles w σ p.inlining (schemaBody steps) t := by
          intro place q hq
          apply ih t place hviews
          intro places hcovers
          have hleft := hsteps places hcovers
          rw [hq]
          omega
        have hbelow : Below w σ p.inlining (schemaBody steps) s := by
          refine ⟨hσ, hsmaller none nofun (cost_null s), fun child h => hview.held h, ?_⟩
          intro child hchild keys
          apply hsmaller _ _ (cost_child hbool hchild keys)
          rintro x ⟨⟩
          exact .required keys (.whole (hview.held hchild))
        have hsingles : Singles w σ p.inlining (schemaBody steps) s := by
          refine ⟨?_, hview.null, hview.oversized⟩
          intro hmany name
          apply hsmaller _ _ (cost_singled hmany name)
          rintro x ⟨⟩
          exact .singled name hview
        split
        · apply refType_ensures hview.asks
          intro target q htarget hpq hserves hnew
          apply Ensures.congr (exec_typeWith hσ _ _ _ _)
          apply ih
          · rintro x ⟨⟩
            exact .whole htarget.reaches
          · -- The place of the target is taken away from those that are left.
            intro places hcovers
            obtain ⟨o, ho⟩ := hserves
            have hroom := room_cons (hcovers.2 _ o ho).1 hnew
            have htargetCost := cost_target hcovers htarget
            have hleft := hsteps places hcovers
            have hpos := cost_pos (some s)
            have hmul := Nat.mul_le_mul_right (targetCost w) (Nat.succ_le_of_lt hroom)
            rw [Nat.succ_mul] at hmul
            dsimp only
            rw [hpq.inlining]
            omega
        · split
          · exact enumType_ensures s place
          · split
            · exact .pure (.ofValue _)
            · exact composedType_ensures hbelow hsingles place rfl

/-- A schema that can be met, if there is one at all. -/
def Met (w : Source) (s : Option Schema) : Prop := ∀ x, s = some x → w.Reaches (.schema x)

theorem room_le (places inlining : List String) : room places inlining ≤ places.length :=
  List.length_filter_le _ _

/-- The number of unfoldings that a schema is given is enough for it. -/
theorem schemaBody_unfoldings_ensures (hσ : HookFree σ) {s : Option Schema} (hs : Met w s)
    (place : String) :
    Ensures w σ p (do schemaBody (← unfoldings s) s place) (Typed w) := by
  apply Ensures.of_valid
  intro hp
  change Ensures w σ p (do
    let resolver := (← get).resolver
    let reach := resolver.external.elim 0 (·.reach)
    schemaBody (2 * (s.elim 0 (·.walk.length) + 1) +
      reach * (2 * (reach + resolver.index.length + 1))) s place) (Typed w)
  apply Ensures.get_bind
  dsimp only
  rw [hp.knows.external, hp.knows.index]
  apply schemaBody_ensures hσ _ s place fun x hx => .whole (hs x hx)
  intro places hcovers
  have hroom : room places p.inlining ≤ w.reach :=
    Nat.le_trans (room_le places p.inlining) hcovers.1
  have hmul := Nat.mul_le_mul_right (targetCost w) hroom
  have hcost : cost s ≤ 2 * (s.elim 0 (·.walk.length) + 1) := by
    cases s with
    | none => exact Nat.le_succ 1
    | some s =>
      have hle := cost_le s
      simp only [Option.elim_some]
      omega
  exact Nat.add_le_add hcost hmul

/-- The type of a schema at a place. -/
theorem schemaType_ensures (hσ : HookFree σ) {s : Option Schema} (hs : Met w s) (place : String) :
    Ensures w σ p (schemaType s place) (Typed w) := by
  apply Ensures.congr _ (schemaBody_unfoldings_ensures hσ hs place)
  unfold schemaType
  rw [exec_bind, exec_bind]
  cases exec (unfoldings s) σ p with
  | mk result q =>
    cases result with
    | error e => rfl
    | ok steps => exact exec_typeWith hσ _ _ _ _

theorem unfinishedType_ensures (hσ : HookFree σ) {s : Option Schema} (hs : Met w s)
    (place : String) : Ensures w σ p (unfinishedType s place) (Typed w) := by
  apply Ensures.congr _ (schemaBody_unfoldings_ensures hσ hs place)
  unfold unfinishedType
  rw [exec_bind, exec_bind]
  cases exec (unfoldings s) σ p with
  | mk result q =>
    cases result with
    | error e => rfl
    | ok steps => exact exec_unfinishedWith hσ _ _ _ _

theorem schemaRefType_ensures (hσ : HookFree σ) {ref : String} (hasks : w.Asks ref)
    (place : String) : Ensures w σ p (schemaRefType ref place) (Typed w) := by
  apply refType_ensures hasks
  intro target q htarget _ _ _
  apply schemaType_ensures hσ
  rintro x ⟨⟩
  exact htarget.reaches

end ApiTypes.Typing
