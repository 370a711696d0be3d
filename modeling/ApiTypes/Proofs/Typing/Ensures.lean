import ApiTypes.Proofs.ArrayLength
import ApiTypes.Proofs.Typing.Run
import ApiTypes.Proofs.Uses

/-!
What every step on the way to the types of a document keeps. A type that has been made uses only
names that stand for something: an entry of the document, an operation or an enum that has been
declared, or one of a few helpers. What has been declared stays declared, so a type that is fine
once is fine at the end. A step that fails does so for one of a few causes.

`Ensures` says this of one step from a given state, and a rule for each way of putting steps
together carries it to larger ones.
-/

namespace ApiTypes

/-- An enum of this name is declared. -/
def EnumRegistry.Declares (r : EnumRegistry) (name : String) : Prop :=
  ∃ members doc, Decl.enum name members true doc ∈ r.decls

/-- A reference into the document that can be asked for starts with these tokens. -/
def Source.Refers (w : Source) (tokens : List String) : Prop :=
  ∃ ref rest, w.Asks ref ∧ Reference.isExternal ref = false ∧
    Reference.tokens? ref = some (tokens ++ rest)

/-- How many tokens of a pointer below a root name an entry of the document. -/
def entryDepth (root : String) : Nat := if root = "components" then 3 else 2

namespace Typing

/-- The use of a name stands for something. -/
inductive Named (w : Source) (p : Progress) : Use → Prop where
  | builtin {name : String} : name = "Record" ∨ name = "Omit" → Named w p ⟨name, 2, []⟩
  | helper : p.usesWithRequired = true → Named w p ⟨"WithRequired", 2, []⟩
  | enum {name : String} : p.enums.Declares name → Named w p ⟨name, 0, []⟩
  | operation {id : String} : id ∈ p.operations.keys → Named w p ⟨"operations", 0, [id]⟩
  | entry {root : String} {keys : List String} :
    w.doc.Names (root :: keys) → w.Refers ((root :: keys).take (entryDepth root)) →
      Named w p ⟨root, 0, keys⟩

/-- All that has been declared is still declared. -/
structure Grows (p q : Progress) : Prop where
  enums : ∀ name, p.enums.Declares name → q.enums.Declares name
  operations : p.operations.keys ⊆ q.operations.keys
  helper : p.usesWithRequired = true → q.usesWithRequired = true

/-- Besides, the same references are being written out. -/
structure Extends (p q : Progress) : Prop extends Grows p q where
  inlining : q.inlining = p.inlining

namespace Extends

variable {p q r : Progress}

theorem refl (p : Progress) : Extends p p := ⟨⟨fun _ h => h, fun _ h => h, id⟩, rfl⟩

theorem trans (hpq : Extends p q) (hqr : Extends q r) : Extends p r where
  enums name h := hqr.enums name (hpq.enums name h)
  operations _ h := hqr.operations (hpq.operations h)
  helper h := hqr.helper (hpq.helper h)
  inlining := hqr.inlining.trans hpq.inlining

end Extends

/-- A type all of whose names stand for something. -/
def Typed (w : Source) (p : Progress) (t : TypeExpr) : Prop := t.UsesOnly (Named w p)

/-- A member of an object type all of whose names stand for something. -/
def MemberTyped (w : Source) (p : Progress) (m : Member) : Prop := m.UsesOnly (Named w p)

theorem Named.mono {w : Source} {p q : Progress} (h : Grows p q) {u : Use} (hu : Named w p u) :
    Named w q u := by
  cases hu with
  | builtin hname => exact .builtin hname
  | helper huses => exact .helper (h.helper huses)
  | enum hdeclared => exact .enum (h.enums _ hdeclared)
  | operation hid => exact .operation (h.operations hid)
  | entry hnames hrefers => exact .entry hnames hrefers

theorem Typed.mono {w : Source} {p q : Progress} (h : Grows p q) {t : TypeExpr}
    (ht : Typed w p t) : Typed w q t := fun u hu => (ht u hu).mono h

theorem MemberTyped.mono {w : Source} {p q : Progress} (h : Grows p q) {m : Member}
    (hm : MemberTyped w p m) : MemberTyped w q m := fun u hu => (hm u hu).mono h

/-- What holds of everything that has been collected. -/
structure Valid (w : Source) (p : Progress) : Prop where
  knows : w.Knows p.resolver
  places : ∀ place name, (place, name) ∈ p.enums.byPlace → p.enums.Declares name
  enums : ∀ d ∈ p.enums.decls, ∃ name members doc, d = .enum name members true doc
  operations : ∀ key e, (key, e) ∈ p.operations.toList → e.id = key ∧ Typed w p e.type

/-- A change to what is collected besides declarations keeps the state valid. -/
theorem Valid.carry {w : Source} {p q : Progress} (hp : Valid w p) (hpq : Grows p q)
    (hknows : w.Knows q.resolver) (henums : q.enums = p.enums)
    (hoperations : q.operations = p.operations) : Valid w q where
  knows := hknows
  places := henums ▸ hp.places
  enums := henums ▸ hp.enums
  operations key e h := by
    rw [hoperations] at h
    exact ⟨(hp.operations key e h).1, (hp.operations key e h).2.mono hpq⟩

/-- Why a step can fail. -/
def Cause (w : Source) (options : Options) : TypingError → Prop
  | .unresolvedRef _ _ => options.silent = false
  | .duplicateOperationId _ _ => options.strictOperationIds = true
  | .nullAlternative => ∃ s, w.Reaches (.schema s) ∧ none ∈ s.oneOf.getD []
  | .oversizedTuple => options.arrayLength = true ∧ ∃ s, w.Reaches (.schema s) ∧ s.Oversized
  | .exhausted => ¬ w.Bounded

/-- From a valid state, the step either gives a result that satisfies `post` in a valid state that
extends the first one, or fails for a cause. -/
structure Ensures {α : Type} (w : Source) (σ : Setting) (p : Progress) (act : Typing α)
    (post : Progress → α → Prop) : Prop where
  outcome : Valid w p →
    match exec act σ p with
    | (.ok x, q) => Valid w q ∧ Extends p q ∧ post q x
    | (.error e, _) => Cause w σ.options e

/-- What holds of a value goes on to hold. -/
def Stable {α : Type} (good : Progress → α → Prop) : Prop :=
  ∀ p q x, Extends p q → good p x → good q x

variable {α β : Type} {w : Source} {σ : Setting} {p : Progress}

theorem MemberTyped.stable : Stable (MemberTyped w) := fun _ _ _ h hm => hm.mono h.toGrows

namespace Ensures

theorem pure {post : Progress → α → Prop} {x : α} (h : post p x) :
    Ensures w σ p (Pure.pure x) post := ⟨fun hp => ⟨hp, .refl p, h⟩⟩

theorem throw {post : Progress → α → Prop} {e : TypingError} (h : Cause w σ.options e) :
    Ensures w σ p (MonadExcept.throw e : Typing α) post := ⟨fun _ => h⟩

theorem throw_bind {next : α → Typing β} {post : Progress → β → Prop} {e : TypingError}
    (h : Cause w σ.options e) : Ensures w σ p (MonadExcept.throw e >>= next) post :=
  ⟨fun _ => h⟩

/-- Steps in turn: the second starts where the first ended. -/
theorem bind {act : Typing α} {next : α → Typing β} {mid : Progress → α → Prop}
    {post : Progress → β → Prop} (hact : Ensures w σ p act mid)
    (hnext : ∀ q x, Extends p q → mid q x → Ensures w σ q (next x) post) :
    Ensures w σ p (act >>= next) post := by
  constructor
  intro hp
  have hfirst := hact.outcome hp
  rw [exec_bind]
  cases hrun : exec act σ p with
  | mk result q =>
    rw [hrun] at hfirst
    cases result with
    | error e => exact hfirst
    | ok x =>
      obtain ⟨hq, hpq, hmid⟩ := hfirst
      have hsecond := (hnext q x hpq hmid).outcome hq
      dsimp only
      cases hrest : exec (next x) σ q with
      | mk result' r =>
        rw [hrest] at hsecond
        cases result' with
        | error e => exact hsecond
        | ok y =>
          obtain ⟨hr, hqr, hpost⟩ := hsecond
          exact ⟨hr, hpq.trans hqr, hpost⟩

theorem weaken {act : Typing α} {mid post : Progress → α → Prop} (hact : Ensures w σ p act mid)
    (h : ∀ q x, Extends p q → mid q x → post q x) : Ensures w σ p act post := by
  constructor
  intro hp
  have hfirst := hact.outcome hp
  cases hrun : exec act σ p with
  | mk result q =>
    rw [hrun] at hfirst
    cases result with
    | error e => exact hfirst
    | ok x => exact ⟨hfirst.1, hfirst.2.1, h q x hfirst.2.1 hfirst.2.2⟩

theorem map {act : Typing α} {f : α → β} {mid : Progress → α → Prop} {post : Progress → β → Prop}
    (hact : Ensures w σ p act mid) (h : ∀ q x, Extends p q → mid q x → post q (f x)) :
    Ensures w σ p (f <$> act) post := by
  rw [← bind_pure_comp]
  exact hact.bind fun q x hpq hmid => .pure (h q x hpq hmid)

/-- A step that only reads the setting. -/
theorem options_bind {next : Options → Typing β} {post : Progress → β → Prop}
    (h : Ensures w σ p (next σ.options) post) : Ensures w σ p (options >>= next) post :=
  ⟨h.outcome⟩

theorem read_bind {next : Setting → Typing β} {post : Progress → β → Prop}
    (h : Ensures w σ p (next σ) post) : Ensures w σ p (read >>= next) post := ⟨h.outcome⟩

theorem get_bind {next : Progress → Typing β} {post : Progress → β → Prop}
    (h : Ensures w σ p (next p) post) : Ensures w σ p (get >>= next) post := ⟨h.outcome⟩

/-- Only the run of a step counts. -/
theorem congr {act act' : Typing α} {post : Progress → α → Prop}
    (hexec : exec act σ p = exec act' σ p) (h : Ensures w σ p act' post) :
    Ensures w σ p act post := by
  constructor
  intro hp
  rw [hexec]
  exact h.outcome hp

/-- What every result satisfies can be used besides. -/
theorem gives {act : Typing α} {post : Progress → α → Prop} {post' : α → Prop}
    (hact : Ensures w σ p act post) (hgives : Gives σ act post') :
    Ensures w σ p act fun q x => post q x ∧ post' x := by
  constructor
  intro hp
  have houtcome := hact.outcome hp
  cases hrun : exec act σ p with
  | mk result q =>
    rw [hrun] at houtcome
    cases result with
    | error e => exact houtcome
    | ok x => exact ⟨houtcome.1, houtcome.2.1, houtcome.2.2, hgives.result p x q hrun⟩

/-- The validity of the state can be used in the step itself. -/
theorem of_valid {act : Typing α} {post : Progress → α → Prop}
    (h : Valid w p → Ensures w σ p act post) : Ensures w σ p act post :=
  ⟨fun hp => (h hp).outcome hp⟩

theorem entries_bind {m : Option (OrderedMap α)} {next : List (String × α) → Typing β}
    {post : Progress → β → Prop}
    (h : ∀ listed : List (String × α), listed.Perm (entriesOf m) →
      Ensures w σ p (next listed) post) :
    Ensures w σ p (entries m >>= next) post := by
  obtain ⟨listed, hperm, hrun⟩ := exec_entries_bind (m := m) next σ p
  constructor
  intro hp
  rw [hrun]
  exact (h listed hperm).outcome hp

theorem warn (kind : WarningKind) (place message : String) :
    Ensures w σ p (warn kind place message) fun _ _ => True := by
  constructor
  intro hp
  rw [exec_warn]
  have hext : Extends p { p with warnings := p.warnings ++ [⟨kind, place, message⟩] } :=
    ⟨⟨fun _ h => h, fun _ h => h, id⟩, rfl⟩
  exact ⟨hp.carry hext.toGrows hp.knows rfl rfl, hext, trivial⟩

/-- Asking the resolver changes nothing else. -/
theorem resolving {act : Resolver.Resolving α} {post : α → Prop}
    (hact : Resolver.Kept w act post) :
    Ensures w σ p (resolving act) fun _ x => post x := by
  constructor
  intro hp
  obtain ⟨hknows, hpost⟩ := hact p.resolver hp.knows
  rw [exec_resolving]
  have hext : Extends p { p with resolver := (act.run p.resolver).2 } :=
    ⟨⟨fun _ h => h, fun _ h => h, id⟩, rfl⟩
  exact ⟨hp.carry hext.toGrows hknows rfl rfl, hext, hpost⟩

theorem ofExcept {x : Except TypingError α} {post : Progress → α → Prop}
    (hok : ∀ y, x = .ok y → post p y) (herror : ∀ e, x = .error e → Cause w σ.options e) :
    Ensures w σ p (ofExcept x) post := by
  cases x with
  | ok y => exact .pure (hok y rfl)
  | error e => exact .throw (herror e rfl)

/-- A step for each entry of a list. What holds of each result when it is made holds of all of them
in the end. -/
theorem mapM {f : α → Typing β} {good : Progress → β → Prop} (hstable : Stable good)
    (list : List α) (hf : ∀ x ∈ list, ∀ q, Extends p q → Ensures w σ q (f x) good) :
    Ensures w σ p (list.mapM f) fun q ys => ∀ y ∈ ys, good q y := by
  induction list generalizing p with
  | nil =>
    rw [List.mapM_nil]
    exact .pure nofun
  | cons x rest ih =>
    rw [List.mapM_cons]
    apply (hf x List.mem_cons_self p (.refl p)).bind
    intro q y hpq hy
    apply Ensures.bind (ih fun z hz r hqr => hf z (List.mem_cons_of_mem x hz) r (hpq.trans hqr))
    intro r ys hqr hys
    apply Ensures.pure
    intro z hz
    rcases List.mem_cons.mp hz with rfl | hrest
    · exact hstable q r _ hqr hy
    · exact hys z hrest

theorem filterMapM {f : α → Typing (Option β)} {good : Progress → β → Prop}
    (hstable : Stable good) (list : List α)
    (hf : ∀ x ∈ list, ∀ q, Extends p q →
      Ensures w σ q (f x) fun r y => ∀ z, y = some z → good r z) :
    Ensures w σ p (list.filterMapM f) fun q ys => ∀ y ∈ ys, good q y := by
  induction list generalizing p with
  | nil =>
    rw [List.filterMapM_nil]
    exact .pure nofun
  | cons x rest ih =>
    rw [List.filterMapM_cons]
    apply (hf x List.mem_cons_self p (.refl p)).bind
    intro q y hpq hy
    have hrest := ih (p := q) fun z hz r hqr => hf z (List.mem_cons_of_mem x hz) r (hpq.trans hqr)
    cases y with
    | none => exact hrest
    | some y =>
      apply hrest.bind
      intro r ys hqr hys
      apply Ensures.pure
      intro z hz
      rcases List.mem_cons.mp hz with rfl | hmem
      · exact hstable q r _ hqr (hy _ rfl)
      · exact hys z hmem

/-- Writing out a reference keeps what its target keeps. -/
theorem inliningRef {key : String} {act : Typing TypeExpr}
    (hact : Ensures w σ { p with inlining := key :: p.inlining } act (Typed w)) :
    Ensures w σ p (inliningRef key act) (Typed w) := by
  constructor
  intro hp
  have hfirst := hact.outcome
    (hp.carry ⟨fun _ h => h, fun _ h => h, id⟩ hp.knows rfl rfl)
  rw [exec_inliningRef]
  cases hrun : exec act σ { p with inlining := key :: p.inlining } with
  | mk result q =>
    rw [hrun] at hfirst
    cases result with
    | error e => exact hfirst
    | ok t =>
      obtain ⟨hq, hext, ht⟩ := hfirst
      have hback : Grows q { q with inlining := q.inlining.erase key } :=
        ⟨fun _ h => h, fun _ h => h, id⟩
      refine ⟨hq.carry hback hq.knows rfl rfl, ⟨⟨hext.enums, hext.operations, hext.helper⟩, ?_⟩,
        ht.mono hback⟩
      dsimp only
      rw [hext.inlining, List.erase_cons_head]

end Ensures

/-! Steps that are the same for all kinds of objects. -/

theorem Typed.keyword (name : String) : Typed w p (.keyword name) := TypeExpr.UsesOnly.keyword name

theorem Typed.record_never : Typed w p (.record .string .never) :=
  TypeExpr.UsesOnly.record (.builtin (.inl rfl)) (.keyword _) (.keyword _)

/-- The type of a reference into the document accesses an entry of it. -/
theorem typed_toType {r : Resolver} (hr : w.Knows r) {ref : String} (hasks : w.Asks ref)
    (hlocal : Reference.isExternal ref = false) (hexists : r.exists? ref = true) :
    Typed w p (Reference.toType ref) := by
  obtain ⟨o, ho⟩ := Option.isSome_iff_exists.mp hexists
  have hmem := Resolver.mem_index_of_at? ho
  rw [hr.index] at hmem
  obtain ⟨tokens, hnames, hkey⟩ :=
    (Index.ofDocument_mem w.closed_reaches (fun _ ho => .root ho) hmem).1
  dsimp only at hkey
  intro u hu
  cases htokens : Reference.tokens? ref with
  | none =>
    rw [Reference.uses_toType_of_not_pointer htokens] at hu
    cases hu
  | some found =>
    -- The uniform spelling of a reference into the document is its tokens again.
    have hfile : (Reference.split ref).1 = "" := by
      simpa [Reference.isExternal] using hlocal
    have hfound : found = tokens := by
      apply Reference.join_root_injective
      rw [← hkey, Reference.canonical_of_tokens htokens, hfile, String.empty_append]
    subst hfound
    have hroot (root name : String) (rest : List String)
        (hcase : found = root :: name :: rest) (hne : root ≠ "components")
        (hentry : ∀ more, w.doc.Names (root :: name :: more)) : Named w p u := by
      rw [hcase] at htokens
      obtain ⟨more, hmore⟩ := Reference.uses_toType htokens hne
      rw [hmore, List.mem_singleton] at hu
      rw [hu]
      refine .entry (hentry more) ⟨ref, rest, hasks, hlocal, ?_⟩
      rw [entryDepth, if_neg hne]
      exact htokens
    rcases hnames with ⟨c, category, name, rest, hc, hentry, hcase⟩ | ⟨name, rest, hentry, hcase⟩ |
      ⟨name, rest, hentry, hcase⟩ | ⟨name, rest, hentry, hcase⟩
    · rw [hcase] at htokens
      obtain ⟨more, hmore⟩ := Reference.uses_toType_components htokens
      rw [hmore, List.mem_singleton] at hu
      rw [hu]
      exact .entry (.inl ⟨c, category, name, more, hc, hentry, rfl⟩)
        ⟨ref, rest, hasks, hlocal, htokens⟩
    · exact hroot "paths" name rest hcase (by decide)
        fun more => .inr (.inl ⟨name, more, hentry, rfl⟩)
    · exact hroot "webhooks" name rest hcase (by decide)
        fun more => .inr (.inr (.inl ⟨name, more, hentry, rfl⟩))
    · exact hroot "$defs" name rest hcase (by decide)
        fun more => .inr (.inr (.inr ⟨name, more, hentry, rfl⟩))

theorem unresolved_ensures (ref place : String) :
    Ensures w σ p (unresolved ref place) (Typed w) := by
  unfold unresolved
  apply Ensures.options_bind
  dsimp only
  split
  · rename_i hsilent
    exact .throw_bind (by simpa [Cause] using hsilent)
  · apply Ensures.bind (Ensures.warn _ _ _)
    intro q _ _ _
    exact .pure (.keyword _)

section References

open LawfulReferable (toObject)

variable [Referable α] [LawfulReferable α]

/-- A reference leads to what is found behind it. -/
theorem find?_ensures {ref : String} (hasks : w.Asks ref) :
    Ensures w σ p (find? α ref) fun _ found => ∀ x, found = some x → w.LeadsTo ref x :=
  .resolving (Resolver.find?_kept hasks)

/-- The type of a reference is fine if the types of the targets in other documents are, when they
are written out in place. -/
theorem refType_ensures {inline : α → String → Typing TypeExpr} {ref : String}
    (hasks : w.Asks ref) (place : String)
    (hinline : ∀ target q, w.Finds (toObject target) → Extends p q →
      (∃ o, w.Serves (Reference.canonical ref) o) → Reference.canonical ref ∉ p.inlining →
      Ensures w σ { q with inlining := Reference.canonical ref :: q.inlining }
        (inline target (Reference.canonical ref)) (Typed w)) :
    Ensures w σ p (refType inline ref place) (Typed w) := by
  apply Ensures.of_valid
  intro hp
  unfold refType
  cases hexternal : Reference.isExternal ref with
  | false =>
    rw [if_pos (by decide)]
    apply Ensures.get_bind
    split
    · rename_i hexists
      exact .pure (typed_toType hp.knows hasks hexternal hexists)
    · exact unresolved_ensures ref place
  | true =>
    rw [if_neg (by decide)]
    apply Ensures.get_bind
    split
    · apply Ensures.bind (Ensures.warn _ _ _)
      intro q _ _ _
      exact .pure (.keyword _)
    · rename_i hnew
      apply Ensures.bind (find?_ensures hasks)
      intro q found hpq hfound
      cases found with
      | none => exact unresolved_ensures ref place
      | some target =>
        have htarget := hfound target rfl
        exact .inliningRef (hinline target q htarget.finds hpq (htarget.exists_served hexternal)
          (by simpa using hnew))

end References

end Typing

end ApiTypes
