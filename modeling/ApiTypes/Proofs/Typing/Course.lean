import ApiTypes.Proofs.Chains
import ApiTypes.Proofs.Typing.Run
import Mathlib.Logic.Relation

/-!
What is met while the targets of references into other documents are being written out, and what a
run does there. Wherever it starts, a run leaves the references being written out as they were,
whether it succeeds or fails. It reports a reference as circular only where its target is being
written out, fails over a null only at a schema that is met, and does the same with a resolver that
answers the same.
-/

namespace ApiTypes

/-- The same state with another way to other documents. -/
def Progress.via (v : Option ExternalResolver) (p : Progress) : Progress :=
  { p with resolver := p.resolver.via v }

/-- Several type names stand beside a null among the alternatives. -/
structure Schema.MixesNull (s : Schema) : Prop where
  notBoolean : s.bool = none
  notReference : s.isRef = false
  types : 2 ≤ (s.types.getD []).length
  null : none ∈ s.oneOf.getD []

/-- What the reference in an object is read as. -/
def Object.wanted? : Object → Option Kind
  | .schema _ => some .schema
  | .mediaType _ => some .schema
  | .parameter _ => some .parameter
  | .header _ => some .header
  | .requestBody _ => some .requestBody
  | .response _ => some .response
  | .pathItem _ => some .pathItem
  | .operation _ => none

open LawfulReferable (toObject)

namespace Source

/-- A reference leads to the object in the end, whatever has been fetched before. -/
def Resolves {α : Type} [Referable α] (w : Source) (ref : String) (x : α) : Prop :=
  ∃ r, w.Knows r ∧ ((Resolver.find? α ref).run r).1 = some x

/-- The objects that are met while the targets of the references `inl` are being written out, the
innermost first. -/
inductive Meets (w : Source) : List String → Object → Prop where
  | root {o : Object} : o ∈ w.doc.objects → w.Meets [] o
  | part {inl : List String} {o inner : Object} :
    w.Meets inl o → inner ∈ o.parts → w.Meets inl inner
  | target {α : Type} [Referable α] [LawfulReferable α] {inl : List String} {o : Object} {x : α} :
    w.Meets inl o → o.wanted? = some (Referable.kind α) → Reference.isExternal o.ref = true →
      Reference.canonical o.ref ∉ inl → w.Resolves o.ref x →
      w.Meets (Reference.canonical o.ref :: inl) (toObject x)

variable {w : Source} {inl : List String} {o : Object}

/-- Whatever is met can be met. -/
theorem Meets.reaches (h : w.Meets inl o) : w.Reaches o := by
  induction h with
  | root hmem => exact .root hmem
  | part _ hinner ih => exact .part ih hinner
  | target _ _ _ _ hresolves ih =>
    obtain ⟨r, hr, hfound⟩ := hresolves
    exact ((Resolver.find?_kept (.held ih) r hr).2 _ hfound).finds.reaches

theorem Meets.asks (h : w.Meets inl o) : w.Asks o.ref := .held h.reaches

theorem Meets.held {s child : Schema} (h : w.Meets inl (.schema s)) (hchild : s.Holds child) :
    w.Meets inl (.schema child) := by
  obtain ⟨path, hpath⟩ := hchild
  exact h.part (List.mem_filterMap.mpr ⟨(path, some child), hpath, rfl⟩)

theorem Meets.schemaTarget {s x : Schema} (h : w.Meets inl (.schema s))
    (hexternal : Reference.isExternal s.ref = true) (hnew : Reference.canonical s.ref ∉ inl)
    (hresolves : w.Resolves s.ref x) : w.Meets (Reference.canonical s.ref :: inl) (.schema x) :=
  Meets.target (α := Schema) (o := .schema s) (x := x) h rfl hexternal hnew hresolves

/-- While the target of `key` is being written out, a reference spelled `key'` in the uniform way is
met. -/
def Cites (w : Source) (key key' : String) : Prop :=
  ∃ inl o, w.Meets (key :: inl) o ∧ Reference.isExternal o.ref = true ∧
    Reference.canonical o.ref = key'

/-- The references being written out cite one another, each the one inside it. -/
theorem Meets.cites (h : w.Meets inl o) :
    ∀ key ∈ inl, ∀ top ∈ inl.head?, Relation.ReflTransGen w.Cites key top := by
  induction h with
  | root _ => exact nofun
  | part _ _ ih => exact ih
  | @target _ _ _ inl o x hmeets _ hexternal _ _ ih =>
    intro key hkey top htop
    rw [← Option.some.inj htop]
    rcases List.mem_cons.mp hkey with hkey | hold
    · rw [hkey]
    · cases inl with
      | nil => cases hold
      | cons top rest => exact (ih key hold top rfl).tail ⟨rest, o, hmeets, hexternal, rfl⟩

/-- A reference whose target is being written out cites itself in the end. -/
theorem Meets.cites_self (h : w.Meets inl o) (hexternal : Reference.isExternal o.ref = true)
    (hmem : Reference.canonical o.ref ∈ inl) :
    Relation.TransGen w.Cites (Reference.canonical o.ref) (Reference.canonical o.ref) := by
  cases inl with
  | nil => cases hmem
  | cons top rest =>
    have hinner : w.Cites top (Reference.canonical o.ref) := ⟨rest, o, h, hexternal, rfl⟩
    exact Relation.TransGen.tail' (h.cites _ hmem top rfl) hinner

end Source

namespace Typing

variable {α β : Type} {w : Source} {σ : Setting} {v : Option ExternalResolver} {inl : List String}

/-- The report of a reference whose target is being written out. -/
def cycleWarning (ref place : String) : Warning :=
  ⟨.refCycle, place,
    "circular $ref " ++ Text.quoteDiagnostic ref ++ " into another document, using unknown"⟩

/-- The warning reports a reference that is met while its target is being written out. -/
def Closes (w : Source) (m : Warning) : Prop :=
  ∃ inl o place, w.Meets inl o ∧ Reference.isExternal o.ref = true ∧
    Reference.canonical o.ref ∈ inl ∧ m = cycleWarning o.ref place

/-- What is behind a failure. -/
def Blamed (w : Source) : TypingError → Prop
  | .nullAlternative => ∃ inl s, w.Meets inl (.schema s) ∧ s.MixesNull
  | .exhausted => ¬ w.Bounded
  | _ => True

/-- A run from the state `p`, beside one whose way to other documents is `v`. -/
structure Along (w : Source) (v : Option ExternalResolver) (p : Progress) (post : α → Prop)
    (run other : Except TypingError α × Progress) : Prop where
  knows : w.Knows run.2.resolver
  inlining : run.2.inlining = p.inlining
  warnings : ∃ added, run.2.warnings = p.warnings ++ added ∧
    ∀ m ∈ added, m.kind = .refCycle → Closes w m
  fails : ∀ e, run.1 = .error e → Blamed w e
  gives : ∀ x, run.1 = .ok x → post x
  follows : w.Fits v → other = (run.1, run.2.via v)

/-- Wherever the targets of the references `inl` are being written out, the action `act` runs along
with `other`, and its results satisfy `post`. -/
structure Course (w : Source) (σ : Setting) (v : Option ExternalResolver) (inl : List String)
    (act other : Typing α) (post : α → Prop) : Prop where
  along : ∀ p, w.Knows p.resolver → p.inlining = inl →
    Along w v p post (exec act σ p) (exec other σ (p.via v))

/-- An action that runs along with itself. -/
abbrev Proceeds (w : Source) (σ : Setting) (v : Option ExternalResolver) (inl : List String)
    (act : Typing α) (post : α → Prop) : Prop := Course w σ v inl act act post

namespace Course

/-- A step that gives a result and changes neither the references being written out nor the
reports. -/
theorem of_ok {act other : Typing α} {post : α → Prop} (result : Progress → α)
    (after : Progress → Progress)
    (hact : ∀ p, exec act σ p = (.ok (result p), after p))
    (hother : ∀ p, exec other σ (p.via v) = (.ok (result p), (after p).via v))
    (hafter : ∀ p, (after p).resolver = p.resolver ∧ (after p).inlining = p.inlining ∧
      (after p).warnings = p.warnings)
    (hpost : ∀ p, post (result p)) : Course w σ v inl act other post := by
  constructor
  intro p hknows _
  obtain ⟨hresolver, hinlining, hwarnings⟩ := hafter p
  rw [hact, hother]
  refine ⟨hresolver ▸ hknows, hinlining, ⟨[], ?_, nofun⟩, nofun, ?_, fun _ => rfl⟩
  · rw [hwarnings, List.append_nil]
  · rintro _ ⟨⟩
    exact hpost p

theorem pure {x : α} {post : α → Prop} (h : post x) :
    Proceeds w σ v inl (Pure.pure x) post :=
  of_ok (fun _ => x) id (fun _ => rfl) (fun _ => rfl) (fun _ => ⟨rfl, rfl, rfl⟩) fun _ => h

theorem modify (change : Progress → Progress)
    (hkept : ∀ p, (change p).resolver = p.resolver ∧ (change p).inlining = p.inlining ∧
      (change p).warnings = p.warnings)
    (hvia : ∀ p, change (p.via v) = (change p).via v) :
    Proceeds w σ v inl (modify change : Typing Unit) fun _ => True :=
  of_ok (fun _ => ()) change (fun _ => rfl)
    (fun p => by rw [← hvia]; rfl) hkept fun _ => trivial

theorem throw {e : TypingError} {post : α → Prop} (h : Blamed w e) :
    Proceeds w σ v inl (MonadExcept.throw e : Typing α) post := by
  constructor
  intro p hknows _
  refine ⟨hknows, rfl, ⟨[], (List.append_nil _).symm, nofun⟩, ?_, nofun, fun _ => rfl⟩
  rintro _ ⟨⟩
  exact h

/-- Steps in turn: the second starts where the first ended. -/
theorem bind {act other : Typing α} {next next' : α → Typing β} {mid : α → Prop} {post : β → Prop}
    (hact : Course w σ v inl act other mid)
    (hnext : ∀ x, mid x → Course w σ v inl (next x) (next' x) post) :
    Course w σ v inl (act >>= next) (other >>= next') post := by
  constructor
  intro p hknows hinl
  have hfirst := hact.along p hknows hinl
  rw [exec_bind, exec_bind]
  generalize exec act σ p = run, exec other σ (p.via v) = run' at hfirst
  obtain ⟨result, q⟩ := run
  cases result with
  | error e =>
    refine ⟨hfirst.knows, hfirst.inlining, hfirst.warnings, fun e' he' => ?_, nofun,
      fun hfits => ?_⟩
    · cases he'
      exact hfirst.fails e rfl
    · rw [hfirst.follows hfits]
  | ok x =>
    have hsecond := (hnext x (hfirst.gives x rfl)).along q hfirst.knows
      (hfirst.inlining.trans hinl)
    obtain ⟨added, hadded, hcloses⟩ := hfirst.warnings
    obtain ⟨more, hmore, hcloses'⟩ := hsecond.warnings
    refine ⟨hsecond.knows, hsecond.inlining.trans hfirst.inlining, ⟨added ++ more, ?_, ?_⟩,
      hsecond.fails, hsecond.gives, fun hfits => ?_⟩
    · dsimp only at hadded ⊢
      rw [hmore, hadded, List.append_assoc]
    · intro m hm
      exact (List.mem_append.mp hm).elim (hcloses m) (hcloses' m)
    · rw [hfirst.follows hfits]
      exact hsecond.follows hfits

/-- Beside a resolver that answers something else, any action will do. -/
theorem of_unfit {act other other' : Typing α} {post : α → Prop}
    (hact : Course w σ v inl act other post) (h : ¬ w.Fits v) : Course w σ v inl act other' post :=
  ⟨fun p hknows hinl =>
    { hact.along p hknows hinl with follows := fun hfits => absurd hfits h }⟩

/-- Steps in turn, whatever the first one gives. -/
theorem andThen {act other : Typing α} {next next' : α → Typing β} {post : β → Prop}
    (hact : Course w σ v inl act other fun _ => True)
    (hnext : ∀ x, Course w σ v inl (next x) (next' x) post) :
    Course w σ v inl (act >>= next) (other >>= next') post := hact.bind fun x _ => hnext x

/-- The result of a step is put into something else. -/
theorem returns {act other : Typing α} {f : α → β} {mid : α → Prop}
    (hact : Course w σ v inl act other mid) :
    Course w σ v inl (act >>= fun x => Pure.pure (f x)) (other >>= fun x => Pure.pure (f x))
      fun _ => True := hact.bind fun _ _ => .pure trivial

theorem weaken {act other : Typing α} {mid post : α → Prop} (hact : Course w σ v inl act other mid)
    (h : ∀ x, mid x → post x) : Course w σ v inl act other post := by
  rw [← bind_pure act, ← bind_pure other]
  exact hact.bind fun x hx => .pure (h x hx)

theorem map {act other : Typing α} {f : α → β} {mid : α → Prop} {post : β → Prop}
    (hact : Course w σ v inl act other mid) (h : ∀ x, mid x → post (f x)) :
    Course w σ v inl (f <$> act) (f <$> other) post := by
  rw [← bind_pure_comp, ← bind_pure_comp]
  exact hact.bind fun x hx => .pure (h x hx)

theorem options_bind {next next' : Options → Typing β} {post : β → Prop}
    (h : Course w σ v inl (next σ.options) (next' σ.options) post) :
    Course w σ v inl (options >>= next) (options >>= next') post := ⟨h.along⟩

theorem read_bind {next next' : Setting → Typing β} {post : β → Prop}
    (h : Course w σ v inl (next σ) (next' σ) post) :
    Course w σ v inl (read >>= next) (read >>= next') post := ⟨h.along⟩

theorem get_bind {next next' : Progress → Typing β} {post : β → Prop}
    (h : ∀ p, w.Knows p.resolver → p.inlining = inl →
      Course w σ v inl (next p) (next' (p.via v)) post) :
    Course w σ v inl (get >>= next) (get >>= next') post :=
  ⟨fun p hknows hinl => (h p hknows hinl).along p hknows hinl⟩

theorem schemaHook_bind {s : Option Schema} {place : String}
    {next next' : Option (TypeExpr × Bool) → Typing β} {post : β → Prop}
    (h : ∀ taken, Course w σ v inl (next taken) (next' taken) post) :
    Course w σ v inl (schemaHook? s place >>= next) (schemaHook? s place >>= next') post :=
  ⟨fun p => (h _).along p⟩

theorem typeHook_bind {t : TypeExpr} {s : Option Schema} {place : String}
    {next next' : Option HookResult → Typing β} {post : β → Prop}
    (h : ∀ result, Course w σ v inl (next result) (next' result) post) :
    Course w σ v inl (typeHook? t s place >>= next) (typeHook? t s place >>= next') post :=
  ⟨fun p => (h _).along p⟩

theorem ofExcept {x : Except TypingError α} (h : ∀ e, x = .error e → Blamed w e) :
    Proceeds w σ v inl (ofExcept x) fun _ => True := by
  cases x with
  | ok y => exact .pure trivial
  | error e => exact .throw (h e rfl)

theorem warn {kind : WarningKind} {place message : String}
    (h : kind = .refCycle → Closes w ⟨kind, place, message⟩) :
    Proceeds w σ v inl (warn kind place message) fun _ => True := by
  constructor
  intro p hknows _
  rw [exec_warn, exec_warn]
  refine ⟨hknows, rfl, ⟨_, rfl, ?_⟩, nofun, fun _ _ => trivial, fun _ => rfl⟩
  intro m hm
  rw [List.mem_singleton.mp hm]
  exact h

/-- Asking the resolver. -/
theorem resolving {act : Resolver.Resolving α} {post : α → Prop} (hkept : Resolver.Kept w act post)
    (hsteady : w.Fits v → Resolver.Steady w v act) :
    Proceeds w σ v inl (resolving act) post := by
  constructor
  intro p hknows _
  obtain ⟨hknows', hpost⟩ := hkept p.resolver hknows
  rw [exec_resolving, exec_resolving]
  refine ⟨hknows', rfl, ⟨[], (List.append_nil _).symm, nofun⟩, nofun, ?_, ?_⟩
  · rintro _ ⟨⟩
    exact hpost
  · intro hfits
    change (Except.ok (act.run (p.resolver.via v)).1,
      { p with resolver := (act.run (p.resolver.via v)).2 }) = _
    rw [hsteady hfits p.resolver hknows]
    rfl

/-- Looking for what a reference leads to. -/
theorem find? [Referable α] [LawfulReferable α] {ref : String} (hasks : w.Asks ref) :
    Proceeds w σ v inl (find? α ref) fun found => ∀ x, found = some x → w.Resolves ref x := by
  refine resolving (fun r hr => ?_) fun hfits => Resolver.find?_steady hfits hasks
  exact ⟨(Resolver.find?_kept (α := α) hasks r hr).1, fun x hx => ⟨r, hr, hx⟩⟩

/-- The object that a reference leads to can be met. -/
theorem find?_reaches [Referable α] [LawfulReferable α] {ref : String} (hasks : w.Asks ref) :
    Proceeds w σ v inl (Typing.find? α ref) fun found =>
      ∀ x, found = some x → w.Reaches (toObject x) :=
  resolving (Resolver.Kept.weaken (Resolver.find?_kept hasks)
    fun _ hfound x hx => (hfound x hx).finds.reaches)
    fun hfits => Resolver.find?_steady hfits hasks

/-- While a target is being written out, its reference is among those that are. -/
theorem inliningRef {key : String} {act other : Typing α} {post : α → Prop}
    (hact : Course w σ v (key :: inl) act other post) :
    Course w σ v inl (inliningRef key act) (inliningRef key other) post := by
  constructor
  intro p hknows hinl
  have hinner := hact.along { p with inlining := key :: p.inlining } hknows (by rw [hinl])
  rw [exec_inliningRef, exec_inliningRef]
  refine ⟨hinner.knows, ?_, hinner.warnings, hinner.fails, hinner.gives, fun hfits => ?_⟩
  · dsimp only
    rw [hinner.inlining, List.erase_cons_head]
  · have hstart : { p.via v with inlining := key :: (p.via v).inlining } =
        Progress.via v { p with inlining := key :: p.inlining } := rfl
    rw [hstart, hinner.follows hfits]
    rfl

theorem entries (m : Option (OrderedMap α)) :
    Proceeds w σ v inl (entries m) fun listed => listed.Perm (entriesOf m) := by
  apply options_bind
  split
  · exact .pure (List.mergeSort_perm _ _)
  · exact .pure (.refl _)

theorem mapM {f g : α → Typing β} {post : β → Prop} {list : List α}
    (hf : ∀ x ∈ list, Course w σ v inl (f x) (g x) post) :
    Course w σ v inl (list.mapM f) (list.mapM g) fun ys => ∀ y ∈ ys, post y := by
  induction list with
  | nil =>
    rw [List.mapM_nil, List.mapM_nil]
    exact .pure nofun
  | cons x rest ih =>
    rw [List.mapM_cons, List.mapM_cons]
    refine (hf x List.mem_cons_self).bind fun y hy => ?_
    refine (ih fun z hz => hf z (List.mem_cons_of_mem x hz)).bind fun ys hys => .pure ?_
    exact List.forall_mem_cons.mpr ⟨hy, hys⟩

/-- A step for each entry of a list, whatever it gives. -/
theorem eachM {f g : α → Typing β} {list : List α}
    (hf : ∀ x ∈ list, Course w σ v inl (f x) (g x) fun _ => True) :
    Course w σ v inl (list.mapM f) (list.mapM g) fun _ => True :=
  (mapM hf).weaken fun _ _ => trivial

theorem filterMapM {f : α → Typing (Option β)} {post : β → Prop} {list : List α}
    (hf : ∀ x ∈ list, Proceeds w σ v inl (f x) fun y => ∀ z, y = some z → post z) :
    Proceeds w σ v inl (list.filterMapM f) fun ys => ∀ y ∈ ys, post y := by
  induction list with
  | nil =>
    rw [List.filterMapM_nil]
    exact .pure nofun
  | cons x rest ih =>
    have hrest := ih fun z hz => hf z (List.mem_cons_of_mem x hz)
    rw [List.filterMapM_cons]
    refine (hf x List.mem_cons_self).bind fun y hy => ?_
    cases y with
    | none => exact hrest
    | some y =>
      exact hrest.bind fun ys hys => .pure (List.forall_mem_cons.mpr ⟨hy y rfl, hys⟩)

/-- A dangling reference. -/
theorem unresolved (ref place : String) :
    Proceeds w σ v inl (unresolved ref place) fun _ => True := by
  have hwarn (message : String) :
      Proceeds w σ v inl (Typing.warn .unresolvedRef place message) fun _ => True :=
    .warn (by rintro ⟨⟩)
  apply options_bind
  dsimp only
  split
  · exact andThen (.throw trivial) fun _ => (hwarn _).returns
  · exact (hwarn _).returns

/-- A reference that is met. Its target is written out with one more reference being written out,
unless that one is already. -/
theorem refType [Referable α] [LawfulReferable α] {inline inline' : α → String → Typing TypeExpr}
    {o : Object} (ho : w.Meets inl o) (hwanted : o.wanted? = some (Referable.kind α))
    (place : String)
    (hinline : ∀ x, Reference.isExternal o.ref = true → Reference.canonical o.ref ∉ inl →
      w.Resolves o.ref x → w.Meets (Reference.canonical o.ref :: inl) (toObject x) → ∀ place,
        Course w σ v (Reference.canonical o.ref :: inl) (inline x place) (inline' x place)
          fun _ => True) :
    Course w σ v inl (refType inline o.ref place) (refType inline' o.ref place)
      fun _ => True := by
  unfold Typing.refType
  cases hexternal : Reference.isExternal o.ref with
  | false =>
    rw [if_pos (by decide), if_pos (by decide)]
    refine get_bind fun p _ _ => ?_
    -- The index is the same.
    change Course w σ v inl _ (if p.resolver.exists? o.ref = true then _ else _) _
    split
    · exact .pure trivial
    · exact unresolved o.ref place
  | true =>
    rw [if_neg (by decide), if_neg (by decide)]
    refine get_bind fun p _ hp => ?_
    change Course w σ v inl _ (if p.inlining.contains _ = true then _ else _) _
    rw [hp]
    split
    · rename_i hold
      refine (Course.warn fun _ => ?_).bind fun _ _ => .pure trivial
      exact ⟨inl, o, place, ho, hexternal, List.contains_iff_mem.mp hold, rfl⟩
    · rename_i hnew
      have hnotMem : Reference.canonical o.ref ∉ inl := by simpa using hnew
      refine (Course.find? ho.asks).bind fun found hfound => ?_
      cases found with
      | none => exact unresolved o.ref place
      | some x =>
        have hresolves := hfound x rfl
        exact .inliningRef (hinline x hexternal hnotMem hresolves
          (.target ho hwanted hexternal hnotMem hresolves) _)

end Course

end Typing

end ApiTypes
