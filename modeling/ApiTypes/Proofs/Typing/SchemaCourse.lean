import ApiTypes.Proofs.Typing.Course
import ApiTypes.Proofs.Typing.SchemaTyped

/-!
The course of a run through schemas. One unfolding of the type of a schema goes to schemas below it
or to the target of its reference. The first leaves less of the schema, the second fewer places in
other documents that are not being written out, so the unfoldings come to an end: as many as the
size of the schema and the places allow are enough, and more do not change anything.
-/

namespace ApiTypes.Typing

variable {α : Type} {w : Source} {σ : Setting} {v : Option ExternalResolver} {inl : List String}
  {s : Schema} {body body' : SchemaBody}

/-- A schema that is met, seen as a whole, with other required keys or for one of its types. -/
inductive Sees (w : Source) (inl : List String) : Schema → Prop where
  | whole {s : Schema} : w.Meets inl (.schema s) → Sees w inl s
  | required {s : Schema} (keys : Option (List String)) :
    Sees w inl s → Sees w inl { s with required := keys }
  | singled {s : Schema} (name : String) : Sees w inl s → Sees w inl (singled s name)

namespace Sees

theorem held {child : Schema} (hs : Sees w inl s) (h : s.Holds child) :
    w.Meets inl (.schema child) := by
  induction hs with
  | whole hmeets => exact hmeets.held h
  | required keys _ ih => exact ih h
  | @singled whole name _ ih =>
    obtain ⟨path, hpath⟩ := h
    exact ih ⟨path, (children_singled { whole with bool := none } name).subset hpath⟩

/-- The reference of a schema that is seen is that of one that is met. -/
theorem ref (hs : Sees w inl s) : ∃ t, w.Meets inl (.schema t) ∧ s.ref = t.ref := by
  induction hs with
  | whole hmeets => exact ⟨_, hmeets, rfl⟩
  | required keys _ ih => exact ih
  | singled name _ ih => exact ih

theorem mixesNull (hs : Sees w inl s) (h : s.MixesNull) :
    ∃ t, w.Meets inl (.schema t) ∧ t.MixesNull := by
  induction hs with
  | whole hmeets => exact ⟨_, hmeets, h⟩
  | required keys _ ih => exact ih ⟨h.notBoolean, h.notReference, h.types, h.null⟩
  | singled name _ _ => exact absurd h.null List.not_mem_nil

end Sees

/-- From the type of a schema, an unfolding goes to the type of another. Beside each schema stand
the references that are being written out there. -/
inductive Calls (w : Source) :
    List String × Option Schema → List String × Option Schema → Prop where
  | null {inl : List String} {s : Schema} : s.bool = none → Calls w (inl, some s) (inl, none)
  | child {inl : List String} {s child : Schema} (keys : Option (List String)) : s.bool = none →
    s.Holds child → Calls w (inl, some s) (inl, some { child with required := keys })
  | singled {inl : List String} {s : Schema} (name : String) : 2 ≤ (s.types.getD []).length →
    Calls w (inl, some s) (inl, some (singled s name))
  | target {inl : List String} {s x : Schema} : Reference.isExternal s.ref = true →
    Reference.canonical s.ref ∉ inl → w.Resolves s.ref x →
      Calls w (inl, some s) (Reference.canonical s.ref :: inl, some x)

/-- The types that `body` gives to a schema are given along with those of `body'`. -/
def Treats (w : Source) (σ : Setting) (v : Option ExternalResolver) (body body' : SchemaBody)
    (state : List String × Option Schema) : Prop :=
  ∀ place, Course w σ v state.1 (body state.2 place) (body' state.2 place) fun _ => True

/-- The schema has no type that is left to alternatives with a null among them, or is to blame. -/
def NullBlamed (w : Source) (s : Schema) : Prop :=
  2 ≤ (s.types.getD []).length → none ∈ s.oneOf.getD [] → Blamed w .nullAlternative

/-- What the rules for a schema need of the schemas that are gone to from it. -/
structure Beneath (w : Source) (σ : Setting) (v : Option ExternalResolver) (inl : List String)
    (body body' : SchemaBody) (s : Schema) : Prop where
  meets : ∀ child, s.Holds child → w.Meets inl (.schema child)
  null : Treats w σ v body body' (inl, none)
  child : ∀ child, s.Holds child → ∀ keys,
    Treats w σ v body body' (inl, some { child with required := keys })
  single : 2 ≤ (s.types.getD []).length → ∀ name,
    Treats w σ v body body' (inl, some (singled s name))
  blamed : NullBlamed w s

theorem Beneath.held (h : Beneath w σ v inl body body' s) {child : Schema}
    (hchild : s.Holds child) : Treats w σ v body body' (inl, some child) := by
  have hsame := h.child child hchild child.required
  cases child
  exact hsame

theorem enumType_course (s : Schema) (place : String) :
    Proceeds w σ v inl (enumType s place) fun _ => True := by
  refine .options_bind ?_
  dsimp only
  split
  · refine .get_bind fun p _ _ => ?_
    refine .andThen ?_ fun _ => .pure trivial
    exact .modify (fun q => { q with enums := (p.enums.hoist place s).2 })
      (fun _ => ⟨rfl, rfl, rfl⟩) fun _ => rfl
  · exact .pure trivial

theorem isAlternative_course (name : String) (members : List (Option Schema))
    (hnull : none ∈ members → Blamed w .nullAlternative) :
    Proceeds w σ v inl (isAlternative name members) fun _ => True := by
  induction members with
  | nil => exact .pure trivial
  | cons member rest ih =>
    cases member with
    | none => exact .throw (hnull List.mem_cons_self)
    | some member =>
      rw [isAlternative]
      split
      · exact .pure trivial
      · exact ih fun h => hnull (List.mem_cons_of_mem _ h)

theorem isDeprecated_course (hs : w.Meets inl (.schema s)) :
    Proceeds w σ v inl (isDeprecated s) fun _ => True := by
  unfold isDeprecated
  split
  · exact (Course.find?_reaches hs.asks (α := Schema)).returns
  · exact .pure trivial

theorem isDropped_course (tag name : String) (hs : w.Meets inl (.schema s)) :
    Proceeds w σ v inl (isDropped tag name s) fun _ => True := by
  refine .options_bind ?_
  split
  · exact isDeprecated_course hs
  · exact .pure trivial

theorem partTag_course (hs : w.Meets inl (.schema s)) :
    Proceeds w σ v inl (partTag s) fun _ => True := by
  have hasks : w.Asks s.ref := hs.asks
  unfold partTag
  split
  · refine .andThen (.resolving (Resolver.target_kept hasks)
      fun hfits => Resolver.target_steady hfits hasks) fun _ => ?_
    exact .read_bind (.pure trivial)
  · exact .pure trivial

theorem withRequired_course (t : TypeExpr) (keys : List String) :
    Proceeds w σ v inl (withRequired t keys) fun _ => True :=
  (Course.modify (fun q => { q with usesWithRequired := true }) (fun _ => ⟨rfl, rfl, rfl⟩)
    fun _ => rfl).returns

section Below

variable {t : Option Schema}

theorem hookedType_course (h : Treats w σ v body body' (inl, t)) (place : String) :
    Course w σ v inl (hookedType body t place) (hookedType body' t place) fun _ => True := by
  refine .schemaHook_bind fun taken => ?_
  extract_lets finish
  have hfinish (typed : TypeExpr × Bool) : Proceeds w σ v inl (finish typed) fun _ => True := by
    refine .typeHook_bind fun result => ?_
    split
    · exact .pure trivial
    · exact .pure trivial
  cases taken with
  | some taken => exact hfinish taken
  | none => exact (h place).bind fun typed _ => hfinish (typed, false)

theorem typeWith_course (h : Treats w σ v body body' (inl, t)) (place : String) :
    Course w σ v inl (typeWith body t place) (typeWith body' t place) fun _ => True :=
  (hookedType_course h place).map fun _ _ => trivial

theorem unfinishedWith_course (h : Treats w σ v body body' (inl, t)) (place : String) :
    Course w σ v inl (unfinishedWith body t place) (unfinishedWith body' t place)
      fun _ => True := by
  refine .schemaHook_bind fun taken => ?_
  cases taken with
  | some taken => exact .pure trivial
  | none => exact h place

theorem typesAt_course (place : String) (list : List (Option Schema × Nat))
    (h : ∀ entry ∈ list, Treats w σ v body body' (inl, entry.1)) :
    Course w σ v inl (typesAt body place list) (typesAt body' place list) fun _ => True := by
  induction list with
  | nil => exact .pure trivial
  | cons entry rest ih =>
    obtain ⟨hfirst, hrest⟩ := List.forall_mem_cons.mp h
    refine (typeWith_course hfirst _).bind fun _ _ => ?_
    exact (ih hrest).returns

end Below

section Rules

variable (hbeneath : Beneath w σ v inl body body' s)

include hbeneath

theorem typeListMembers_course (hmany : 2 ≤ (s.types.getD []).length) (place : String)
    (names : List String) :
    Course w σ v inl (typeListMembers body s place names) (typeListMembers body' s place names)
      fun _ => True := by
  induction names with
  | nil => exact .pure trivial
  | cons name rest ih =>
    have hleft : Proceeds w σ v inl (isLeftToAlternatives s name) fun _ => True := by
      unfold isLeftToAlternatives
      split
      · exact isAlternative_course name _ (hbeneath.blamed hmany)
      · exact .pure trivial
    have hsingled : Course w σ v inl (singledType body s place name)
        (singledType body' s place name) fun _ => True := by
      unfold singledType
      split
      · exact .pure trivial
      · exact unfinishedWith_course (hbeneath.single hmany name) place
    rw [typeListMembers, typeListMembers]
    refine hleft.bind fun left _ => ?_
    split
    · exact ih
    · exact hsingled.bind fun _ _ => ih.returns

theorem typesAt_zipIdx_course (place : String) (schemas : List (Option Schema))
    (h : ∀ child, some child ∈ schemas → s.Holds child) :
    Course w σ v inl (typesAt body place schemas.zipIdx) (typesAt body' place schemas.zipIdx)
      fun _ => True := by
  refine typesAt_course place _ ?_
  rintro ⟨child, i⟩ hentry
  have hmem := List.fst_mem_of_mem_zipIdx hentry
  cases child with
  | none => exact hbeneath.null
  | some child => exact hbeneath.held (h child hmem)

theorem itemType_course (place : String) :
    Course w σ v inl (itemType body s place) (itemType body' s place) fun _ => True := by
  unfold itemType
  dsimp only
  split
  · rename_i schemas hfirst
    refine (typesAt_zipIdx_course hbeneath _ schemas fun child h => ?_).map fun _ _ => trivial
    exact .prefixItem (by rw [hfirst]; exact h)
  · rename_i schemas _ hitems
    exact (typesAt_zipIdx_course hbeneath _ schemas fun child h =>
      .tupleItem hitems h).map fun _ _ => trivial
  · rename_i item _ hitem
    exact typeWith_course (hbeneath.held (.item hitem)) _
  · exact (Course.warn (by rintro ⟨⟩)).returns

theorem propertyMembers_course (place tag : String) (list : List (String × Option Schema))
    (hlist : list ⊆ entriesOf s.properties) :
    Course w σ v inl (propertyMembers body s place tag list)
      (propertyMembers body' s place tag list) fun _ => True := by
  induction list with
  | nil => exact .pure trivial
  | cons entry rest ih =>
    obtain ⟨hfirst, hrest⟩ := List.cons_subset.mp hlist
    obtain ⟨name, property⟩ := entry
    cases property with
    | none => exact ih hrest
    | some property =>
      have hholds : s.Holds property := .property hfirst
      rw [propertyMembers, propertyMembers]
      refine (isDropped_course tag name (hbeneath.meets _ hholds)).bind fun dropped _ => ?_
      split
      · exact ih hrest
      · refine .options_bind ?_
        refine (hookedType_course (hbeneath.held hholds) _).bind fun _ _ => ?_
        exact (ih hrest).returns

theorem definitionMembers_course (place : String) (list : List (String × Option Schema))
    (hlist : list ⊆ entriesOf s.defs) :
    Course w σ v inl (definitionMembers body place list) (definitionMembers body' place list)
      fun _ => True := by
  induction list with
  | nil => exact .pure trivial
  | cons entry rest ih =>
    obtain ⟨hfirst, hrest⟩ := List.cons_subset.mp hlist
    obtain ⟨name, definition⟩ := entry
    have hdefinition : Treats w σ v body body' (inl, definition) := by
      cases definition with
      | none => exact hbeneath.null
      | some child => exact hbeneath.held (.definition hfirst)
    refine (typeWith_course hdefinition _).bind fun _ _ => ?_
    exact .options_bind ((ih hrest).returns)

theorem indexType?_course (place : String) :
    Course w σ v inl (indexType? body s place) (indexType? body' s place) fun _ => True := by
  unfold indexType?
  cases hfurther : s.additionalProperties with
  | some further =>
    dsimp only
    split
    · exact .pure trivial
    · exact (typeWith_course (hbeneath.held (.further hfurther)) _).map fun _ _ => trivial
  | none => exact .options_bind (.pure trivial)

theorem objectType?_course (place : String) :
    Course w σ v inl (objectType? body s place) (objectType? body' s place) fun _ => True := by
  refine .options_bind ?_
  refine .read_bind ?_
  refine (Course.entries s.properties).bind fun listed hlisted => ?_
  refine (propertyMembers_course hbeneath place _ listed hlisted.subset).bind fun _ _ => ?_
  refine (Course.entries s.defs).bind fun defined hdefined => ?_
  refine (definitionMembers_course hbeneath place defined hdefined.subset).bind fun _ _ => ?_
  exact (indexType?_course hbeneath place).returns

theorem coreType?_course (place : String) :
    Course w σ v inl (coreType? body s place) (coreType? body' s place) fun _ => True := by
  unfold coreType?
  split
  · exact objectType?_course hbeneath place
  · exact objectType?_course hbeneath place
  · exact .pure trivial
  · exact .pure trivial
  · exact .pure trivial
  · exact .pure trivial
  · exact .pure trivial
  · refine (itemType_course hbeneath place).bind fun item _ => .options_bind ?_
    refine (Course.ofExcept fun e he => ?_).map fun _ _ => trivial
    obtain ⟨rfl, -⟩ := (arrayType_error_iff s item σ.options e).mp he
    trivial
  · exact (Course.warn (by rintro ⟨⟩)).returns
  · rename_i names hnil _ _ _ _ _ _ _ hone
    have hmany : 2 ≤ (s.types.getD []).length := by
      match hnames : s.types.getD [] with
      | [] => exact absurd hnames hnil
      | [name] => exact absurd hnames (hone name)
      | _ :: _ :: _ => exact Nat.le_add_left 2 _
    exact (typeListMembers_course hbeneath hmany place _).returns

theorem partType_course {part : Schema} (hpart : s.Holds part) (place : String) :
    Course w σ v inl (partType body s part place) (partType body' s part place)
      fun _ => True := by
  have hasks : w.Asks part.ref := (hbeneath.meets part hpart).asks
  unfold partType
  split
  · refine (typeWith_course (hbeneath.held hpart) place).bind fun t _ => ?_
    refine (Course.find?_reaches hasks (α := Schema)).bind fun found _ => ?_
    extract_lets missing
    split
    · exact .pure trivial
    · exact withRequired_course t _
  · exact typeWith_course (hbeneath.child part hpart _) place

theorem partTypes_course (place : String) (list : List (Option Schema × Nat))
    (hlist : ∀ part i, (some part, i) ∈ list → s.Holds part) :
    Course w σ v inl (partTypes body s place list) (partTypes body' s place list)
      fun _ => True := by
  induction list with
  | nil => exact .pure trivial
  | cons entry rest ih =>
    have hrest := ih fun part i h => hlist part i (List.mem_cons_of_mem _ h)
    obtain ⟨part, i⟩ := entry
    cases part with
    | none => exact hrest
    | some part =>
      have hpart : s.Holds part := hlist part i List.mem_cons_self
      rw [partTypes, partTypes]
      refine (partType_course hbeneath hpart _).bind fun _ _ => ?_
      refine (partTag_course (hbeneath.meets part hpart)).bind fun _ _ => ?_
      exact hrest.returns

theorem composedType_course (place : String) :
    Course w σ v inl (composedType body s place) (composedType body' s place)
      fun _ => True := by
  have hcomposition : Course w σ v inl (composition body s place) (composition body' s place)
      fun _ => True := by
    refine (coreType?_course hbeneath place).bind fun _ _ => ?_
    exact (partTypes_course hbeneath place _ fun part i h =>
      .allOf (List.fst_mem_of_mem_zipIdx h)).returns
  refine hcomposition.bind fun _ _ => ?_
  refine (typesAt_zipIdx_course hbeneath _ _ fun _ h => .anyOf h).bind fun _ _ => ?_
  refine (typesAt_zipIdx_course hbeneath _ _ fun _ h => .oneOf h).bind fun _ _ => ?_
  exact .options_bind (.pure trivial)

end Rules

/-- One unfolding runs along if the unfoldings do that it goes to. -/
theorem bodyStep_course (hs : Sees w inl s)
    (hcalls : ∀ state, Calls w (inl, some s) state → Treats w σ v body body' state) :
    Treats w σ v (bodyStep body) (bodyStep body') (inl, some s) := by
  intro place
  dsimp only [bodyStep]
  cases hbool : s.bool with
  | some b => exact .pure trivial
  | none =>
    dsimp only
    split
    · obtain ⟨t, ht, href⟩ := hs.ref
      rw [href]
      refine .refType ht rfl place fun x hexternal hnew hresolves _ place => ?_
      simp only [Object.ref, ← href] at hexternal hnew hresolves ⊢
      exact typeWith_course (hcalls _ (.target hexternal hnew hresolves)) place
    · rename_i hnotRef
      split
      · exact enumType_course s place
      · split
        · exact .pure trivial
        · refine composedType_course ⟨fun child h => hs.held h, hcalls _ (.null hbool),
            fun child h keys => hcalls _ (.child keys hbool h),
            fun hmany name => hcalls _ (.singled name hmany), fun hmany hnull => ?_⟩ place
          obtain ⟨t, ht, hmixes⟩ := hs.mixesNull ⟨hbool, by simpa using hnotRef, hmany, hnull⟩
          exact ⟨inl, t, ht, hmixes⟩

/-! How far unfoldings go. -/

/-- What a reference leads to lies in the index or in another document. -/
theorem finds_of_resolves {ref : String} {x : Schema} (hasks : w.Asks ref)
    (h : w.Resolves ref x) : w.Finds (.schema x) ∧
      (Reference.isExternal ref = true → ∃ o, w.Serves (Reference.canonical ref) o) := by
  obtain ⟨r, hr, hfound⟩ := h
  have hleads := (Resolver.find?_kept (α := Schema) hasks r hr).2 x hfound
  exact ⟨hleads.finds, hleads.exists_served⟩

theorem Sees.asks (hs : Sees w inl s) : w.Asks s.ref := by
  obtain ⟨t, ht, href⟩ := hs.ref
  rw [href]
  exact ht.asks

/-- A schema that is seen, if there is one at all. -/
def Seen (w : Source) (state : List String × Option Schema) : Prop :=
  ∀ s, state.2 = some s → Sees w state.1 s

/-- What is gone to from a schema that is seen is seen as well. -/
theorem Calls.seen {state next : List String × Option Schema} (hstate : Seen w state)
    (h : Calls w state next) : Seen w next := by
  cases h with
  | null _ => exact nofun
  | child keys _ hchild =>
    rintro _ ⟨⟩
    exact .required keys (.whole ((hstate _ rfl).held hchild))
  | singled name _ =>
    rintro _ ⟨⟩
    exact .singled name (hstate _ rfl)
  | target hexternal hnew hresolves =>
    rintro _ ⟨⟩
    obtain ⟨t, ht, href⟩ := (hstate _ rfl).ref
    rw [href] at hexternal hnew hresolves ⊢
    exact .whole (ht.schemaTarget hexternal hnew hresolves)

/-- The measure of a schema: the places that are not being written out, then the size. -/
def measure (places : List String) (state : List String × Option Schema) : Nat × Nat :=
  (room places state.1, cost state.2)

variable {places : List String} {state next : List String × Option Schema}

/-- An unfolding goes to a smaller schema, or to one beside which fewer places are left. -/
theorem Calls.smaller (hcovers : w.Covers places) (hstate : Seen w state) (h : Calls w state next) :
    (room places next.1 = room places state.1 ∧ cost next.2 < cost state.2) ∨
      (room places next.1 < room places state.1 ∧ cost next.2 < targetCost w) := by
  cases h with
  | null _ => exact .inl ⟨rfl, cost_null _⟩
  | child keys hbool hchild => exact .inl ⟨rfl, cost_child hbool hchild keys⟩
  | singled name hmany => exact .inl ⟨rfl, cost_singled hmany name⟩
  | target hexternal hnew hresolves =>
    obtain ⟨hfinds, hserves⟩ := finds_of_resolves (hstate _ rfl).asks hresolves
    obtain ⟨o, ho⟩ := hserves hexternal
    exact .inr ⟨room_cons (hcovers.2 _ o ho).1 hnew, cost_target hcovers hfinds⟩

theorem Calls.measure_lt (hcovers : w.Covers places) (hstate : Seen w state)
    (h : Calls w state next) :
    Prod.Lex (· < ·) (· < ·) (measure places next) (measure places state) := by
  rcases h.smaller hcovers hstate with ⟨hroom, hcost⟩ | ⟨hroom, -⟩
  · exact Prod.lex_def.mpr (.inr ⟨hroom, hcost⟩)
  · exact Prod.lex_def.mpr (.inl hroom)

/-- No run goes from one unfolding to the next for ever. -/
theorem calls_wellFounded (h : w.Bounded) :
    WellFounded fun next state => Seen w state ∧ Calls w state next := by
  obtain ⟨places, hcovers⟩ := h
  refine Subrelation.wf (r := InvImage (Prod.Lex (· < ·) (· < ·)) (measure places)) ?_
    (InvImage.wf _ (Prod.lex Nat.lt_wfRel Nat.lt_wfRel).wf)
  exact fun ⟨hstate, hcall⟩ => hcall.measure_lt hcovers hstate

/-- How many unfoldings a schema takes. -/
def weight (w : Source) (places : List String) (state : List String × Option Schema) : Nat :=
  cost state.2 + room places state.1 * targetCost w

theorem Calls.weight_lt (hcovers : w.Covers places) (hstate : Seen w state)
    (h : Calls w state next) : weight w places next < weight w places state := by
  unfold weight
  rcases h.smaller hcovers hstate with ⟨hroom, hcost⟩ | ⟨hroom, hcost⟩
  · rw [hroom]
    omega
  · have hmul := Nat.mul_le_mul_right (targetCost w) (Nat.succ_le_of_lt hroom)
    rw [Nat.succ_mul] at hmul
    omega

/-- If there is a bound on the places in other documents, the unfoldings suffice. -/
def Suffices (w : Source) (state : List String × Option Schema) (steps : Nat) : Prop :=
  w.Bounded → ∃ places, w.Covers places ∧ weight w places state ≤ steps

/-- Further unfoldings than suffice do not change anything. -/
theorem schemaBody_course (steps extra : Nat) (hstate : Seen w state)
    (hsteps : Suffices w state steps) (hextra : w.Fits v → extra = 0 ∨ w.Bounded) :
    Treats w σ v (schemaBody steps) (schemaBody (steps + extra)) state := by
  induction steps generalizing state with
  | zero =>
    have hunbounded : ¬ w.Bounded := by
      intro hbounded
      obtain ⟨places, -, hweight⟩ := hsteps hbounded
      have hpos := cost_pos state.2
      unfold weight at hweight
      omega
    intro place
    have hthrow : Proceeds w σ v state.1 (throw .exhausted : Typing TypeExpr) fun _ => True :=
      .throw hunbounded
    cases extra with
    | zero => exact hthrow
    | succ extra =>
      exact hthrow.of_unfit fun hfits => (hextra hfits).elim nofun hunbounded
  | succ steps ih =>
    obtain ⟨inl, t⟩ := state
    rw [Nat.add_right_comm]
    cases t with
    | none => exact fun place => .pure trivial
    | some s =>
      refine bodyStep_course (hstate s rfl) fun next hcall => ?_
      refine ih (hcall.seen hstate) fun hbounded => ?_
      obtain ⟨places, hcovers, hweight⟩ := hsteps hbounded
      have hlt := hcall.weight_lt hcovers hstate
      exact ⟨places, hcovers, Nat.le_of_lt_succ (Nat.lt_of_lt_of_le hlt hweight)⟩

/-- A schema is given as many unfoldings as it takes. -/
theorem unfoldings_bind_course {t : Option Schema} {next : Nat → Typing α} {post : α → Prop}
    (h : ∀ steps steps', Suffices w (inl, t) steps →
      (w.Fits v → steps' = steps ∨ w.Bounded ∧ steps ≤ steps') →
        Course w σ v inl (next steps) (next steps') post) :
    Proceeds w σ v inl (unfoldings t >>= next) post := by
  refine ⟨fun p hknows hinl => (h _ _ (fun ⟨places, hcovers⟩ => ⟨places, hcovers, ?_⟩)
    fun hfits => ?_).along p hknows hinl⟩
  · rw [hknows.external, hknows.index]
    have hroom : room places inl ≤ w.reach :=
      Nat.le_trans (room_le places inl) hcovers.1
    have hmul := Nat.mul_le_mul_right (targetCost w) hroom
    have hcost : cost t ≤ 2 * (t.elim 0 (·.walk.length) + 1) := by
      cases t with
      | none => exact Nat.le_succ 1
      | some s =>
        have hle := cost_le s
        simp only [Option.elim_some]
        omega
    exact Nat.add_le_add hcost hmul
  · dsimp only [Progress.via, Resolver.via]
    rw [hknows.external]
    rcases hfits.reach with hsame | ⟨hbounded, hreach⟩
    · rw [hsame]
      exact .inl rfl
    · have hmul := Nat.mul_le_mul hreach (Nat.mul_le_mul_left 2 (Nat.succ_le_succ
        (Nat.add_le_add_right hreach p.resolver.index.length)))
      exact .inr ⟨hbounded, Nat.add_le_add_left hmul _⟩

/-- With the unfoldings that a schema is given, its type is given along with those that
another resolver allows. -/
theorem treats_unfoldings {t : Option Schema} (hstate : Seen w (inl, t)) {steps steps' : Nat}
    (hsteps : Suffices w (inl, t) steps)
    (hother : w.Fits v → steps' = steps ∨ w.Bounded ∧ steps ≤ steps') :
    Treats w σ v (schemaBody steps) (schemaBody steps') (inl, t) := by
  by_cases hle : steps ≤ steps'
  · obtain ⟨extra, rfl⟩ := Nat.exists_eq_add_of_le hle
    refine schemaBody_course steps extra hstate hsteps fun hfits => ?_
    exact (hother hfits).imp Nat.add_eq_left.mp And.left
  · intro place
    have hcourse := schemaBody_course (v := v) (σ := σ) steps 0 hstate hsteps fun _ => .inl rfl
    refine (hcourse place).of_unfit fun hfits => ?_
    rcases hother hfits with hsame | ⟨-, hmore⟩
    · exact hle (Nat.le_of_eq hsame.symm)
    · exact hle hmore

/-- The type of a schema at a place. -/
theorem schemaType_course {t : Option Schema} (hstate : Seen w (inl, t)) (place : String) :
    Proceeds w σ v inl (schemaType t place) fun _ => True :=
  unfoldings_bind_course fun _ _ hsteps hother =>
    typeWith_course (treats_unfoldings hstate hsteps hother) place

theorem unfinishedType_course {t : Option Schema} (hstate : Seen w (inl, t)) (place : String) :
    Proceeds w σ v inl (unfinishedType t place) fun _ => True :=
  unfoldings_bind_course fun _ _ hsteps hother =>
    unfinishedWith_course (treats_unfoldings hstate hsteps hother) place

/-- The type of a reference to a schema that stands in an object that is met. -/
theorem schemaRefType_course {o : Object} (ho : w.Meets inl o) (hwanted : o.wanted? = some .schema)
    (place : String) : Proceeds w σ v inl (schemaRefType o.ref place) fun _ => True := by
  refine .refType ho hwanted place fun x _ _ _ hx place => schemaType_course ?_ place
  rintro _ ⟨⟩
  exact .whole hx

end ApiTypes.Typing
