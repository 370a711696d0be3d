import ApiTypes.Proofs.Rearranged
import ApiTypes.Proofs.Typing.Run

/-!
Two runs side by side, on things that are alike. What the first run looks up and writes, the second
looks up and writes as well, so that both fail in the same way or give related results and go on
from states that agree.

The operations declared so far are compared by a relation of their own: most actions neither read
nor change them.
-/

namespace ApiTypes

/-- The types of objects that references are resolved to, with what it means to be alike. -/
class Comparable (α : Type) [Referable α] where
  Alike : Bool → α → α → Prop
  ofObject?_alike : ∀ {sorted : Bool} {o o' : Object}, o.Alike sorted o' →
    Option.Rel (Alike sorted) (Referable.ofObject? o) (Referable.ofObject? o')
  refOf_eq : ∀ {sorted : Bool} {x y : α}, Alike sorted x y →
    Referable.refOf x = Referable.refOf y

instance : Comparable Schema where
  Alike := Schema.Alike
  ofObject?_alike h := by
    cases h with
    | schema h => exact .some h
    | _ => exact .none
  refOf_eq h := h.congr Schema.ref fun _ => rfl

instance : Comparable Parameter where
  Alike := Parameter.Alike
  ofObject?_alike h := by
    cases h with
    | parameter h => exact .some h
    | _ => exact .none
  refOf_eq h := congr_of_bare h.bare Parameter.ref fun _ => rfl

instance : Comparable RequestBody where
  Alike := RequestBody.Alike
  ofObject?_alike h := by
    cases h with
    | requestBody h => exact .some h
    | _ => exact .none
  refOf_eq h := congr_of_bare h.bare RequestBody.ref fun _ => rfl

instance : Comparable Response where
  Alike := Response.Alike
  ofObject?_alike h := by
    cases h with
    | response h => exact .some h
    | _ => exact .none
  refOf_eq h := congr_of_bare h.bare Response.ref fun _ => rfl

instance : Comparable Header where
  Alike := Header.Alike
  ofObject?_alike h := by
    cases h with
    | header h => exact .some h
    | _ => exact .none
  refOf_eq h := congr_of_bare h.bare Header.ref fun _ => rfl

instance : Comparable PathItem where
  Alike := PathItem.Alike
  ofObject?_alike h := by
    cases h with
    | pathItem h => exact .some h
    | _ => exact .none
  refOf_eq h := congr_of_bare h.bare PathItem.ref fun _ => rfl

variable {α β γ δ : Type} {sorted : Bool}

/-- Resolvers of documents that are alike, which have fetched the same. -/
structure Resolver.Alike (sorted : Bool) (r r' : Resolver) : Prop where
  index : Index.Alike sorted r.index r'.index
  external : r.external = r'.external
  fetched : ∀ place, r.fetched.lookup place = r'.fetched.lookup place

namespace Resolver

theorem Alike.exists_eq {r r' : Resolver} (h : r.Alike sorted r') (ref : String) :
    r.exists? ref = r'.exists? ref := by
  have hobject := at?_rel h.index (Reference.canonical ref)
  unfold exists? resolve?
  generalize r.at? (Reference.canonical ref) = o, r'.at? (Reference.canonical ref) = o' at hobject
  cases hobject <;> rfl

theorem Alike.chainBound_eq {r r' : Resolver} (h : r.Alike sorted r') :
    r.chainBound = r'.chainBound := by
  rw [chainBound, chainBound, h.index.length_eq, h.external]

/-- Resolvers that are alike give related answers and stay alike. -/
def Agree (sorted : Bool) (act : Resolving α) (act' : Resolving β) (R : α → β → Prop) : Prop :=
  ∀ r r', r.Alike sorted r' →
    (act.run r).2.Alike sorted (act'.run r').2 ∧ R (act.run r).1 (act'.run r').1

namespace Agree

variable {R : α → β → Prop} {S : γ → δ → Prop}

theorem pure {x : α} {y : β} (h : R x y) : Agree sorted (Pure.pure x) (Pure.pure y) R :=
  fun _ _ hr => ⟨hr, h⟩

theorem bind {act : Resolving α} {act' : Resolving β} {next : α → Resolving γ}
    {next' : β → Resolving δ} (hact : Agree sorted act act' R)
    (hnext : ∀ x y, R x y → Agree sorted (next x) (next' y) S) :
    Agree sorted (act >>= next) (act' >>= next') S := by
  intro r r' hr
  obtain ⟨halike, hxy⟩ := hact r r' hr
  exact hnext _ _ hxy _ _ halike

theorem get_bind {next : Resolver → Resolving γ} {next' : Resolver → Resolving δ}
    (hnext : ∀ r r', r.Alike sorted r' → Agree sorted (next r) (next' r') S) :
    Agree sorted (get >>= next) (get >>= next') S :=
  fun r r' hr => hnext r r' hr r r' hr

end Agree

variable [Referable α] [Comparable α]

theorem lookup?_agree (ref : String) :
    Agree sorted (lookup? α ref) (lookup? α ref) (Option.Rel (Comparable.Alike sorted)) := by
  have hsame (o : Object) : Option.Rel (Comparable.Alike sorted)
      (Referable.ofObject? (α := α) o) (Referable.ofObject? o) :=
    Comparable.ofObject?_alike (Object.Alike.refl o)
  intro r r' hr
  have hfetched := hr.fetched (Reference.canonical ref)
  unfold lookup?
  cases hexternal : Reference.isExternal ref with
  | false =>
    simp only [StateT.run_bind, StateT.run_get, pure_bind, Bool.not_false, if_true]
    refine ⟨hr, ?_⟩
    have hobject := at?_rel hr.index (Reference.canonical ref)
    change Option.Rel _ ((r.at? (Reference.canonical ref)).bind _)
      ((r'.at? (Reference.canonical ref)).bind _)
    generalize r.at? (Reference.canonical ref) = o, r'.at? (Reference.canonical ref) = o' at hobject
    cases hobject with
    | none => exact .none
    | some ho => exact Comparable.ofObject?_alike ho
  | true =>
    simp only [StateT.run_bind, StateT.run_get, pure_bind, Bool.not_true, Bool.false_eq_true,
      if_false, ← hr.external, ← hfetched]
    cases r.fetched.lookup (Reference.canonical ref) with
    | some o => exact ⟨hr, hsame o⟩
    | none =>
      cases r.external.bind (·.fetch ref (Referable.kind α)) with
      | none => exact ⟨hr, .none⟩
      | some o =>
        refine ⟨⟨hr.index, rfl, fun place => ?_⟩, hsame o⟩
        change List.lookup place ((_, o) :: r.fetched) = List.lookup place ((_, o) :: r'.fetched)
        rw [List.lookup_cons, List.lookup_cons, hr.fetched]

theorem follow_agree (steps : Nat) (visited : List String) {last last' : Option (String × α)}
    (hlast : Option.Rel (EntryRel (Comparable.Alike sorted)) last last') (ref : String) :
    Agree sorted (follow α steps visited last ref) (follow α steps visited last' ref)
      (Option.Rel (EntryRel (Comparable.Alike sorted))) := by
  induction steps generalizing visited last last' ref with
  | zero => exact .pure hlast
  | succ steps ih =>
    rw [follow, follow]
    split
    · exact .pure hlast
    · dsimp only
      split
      · exact .pure hlast
      · apply (lookup?_agree ref).bind
        intro found found' hfound
        cases hfound with
        | none => exact .pure .none
        | @some x y h =>
          dsimp only
          rw [Comparable.refOf_eq h]
          have hnode : EntryRel (Comparable.Alike sorted) (Reference.canonical ref, x)
              (Reference.canonical ref, y) := ⟨rfl, h⟩
          exact ih _ (.some hnode) _

theorem locate?_agree (ref : String) : Agree sorted (locate? α ref) (locate? α ref)
    (Option.Rel (EntryRel (Comparable.Alike sorted))) := by
  apply Agree.get_bind
  intro r r' hr
  rw [hr.chainBound_eq]
  exact follow_agree _ [] .none ref

theorem find?_agree (ref : String) : Agree sorted (find? α ref) (find? α ref)
    (Option.Rel (Comparable.Alike sorted)) := by
  apply (locate?_agree ref).bind
  intro found found' hfound
  cases hfound with
  | none => exact .pure .none
  | some h => exact .pure (.some h.2)

theorem followTarget_agree (steps : Nat) (visited : List String) (key : String) :
    Agree sorted (followTarget steps visited key) (followTarget steps visited key) Eq := by
  induction steps generalizing visited key with
  | zero => exact .pure rfl
  | succ steps ih =>
    rw [followTarget]
    split
    · exact .pure rfl
    · apply (lookup?_agree key).bind
      intro found found' hfound
      cases hfound with
      | none => exact .pure rfl
      | @some s t h =>
        have href : s.ref = t.ref := Comparable.refOf_eq h
        have hisRef : s.isRef = t.isRef := congrArg (fun ref => decide (ref ≠ "")) href
        dsimp only
        rw [hisRef, href]
        split
        · exact ih _ _
        · exact .pure rfl

theorem target_agree (ref : String) : Agree sorted (target ref) (target ref) Eq := by
  apply Agree.get_bind
  intro r r' hr
  rw [hr.chainBound_eq]
  exact followTarget_agree _ [] _

end Resolver

namespace Typing

/-- States that agree in what has been collected, and whose resolvers are alike. -/
structure Twins (sorted : Bool) (O : OperationRegistry → OperationRegistry → Prop)
    (p q : Progress) : Prop where
  resolver : p.resolver.Alike sorted q.resolver
  warnings : p.warnings = q.warnings
  operations : O p.operations q.operations
  enums : p.enums = q.enums
  inlining : p.inlining = q.inlining
  usesWithRequired : p.usesWithRequired = q.usesWithRequired

/-- Two runs end alike: with related results in states that agree, or with the same failure. -/
inductive Ends (sorted : Bool) (O : OperationRegistry → OperationRegistry → Prop)
    (R : α → β → Prop) : Except TypingError α × Progress → Except TypingError β × Progress → Prop
    where
  | ok {x : α} {y : β} {q q' : Progress} : R x y → Twins sorted O q q' →
    Ends sorted O R (.ok x, q) (.ok y, q')
  | error (e : TypingError) (q q' : Progress) : Ends sorted O R (.error e, q) (.error e, q')

/-- From states that agree, the two actions end alike. -/
structure Parallel (σ : Setting) (O : OperationRegistry → OperationRegistry → Prop)
    (act : Typing α) (act' : Typing β) (R : α → β → Prop) : Prop where
  ends : ∀ p p', Twins σ.options.alphabetize O p p' →
    Ends σ.options.alphabetize O R (exec act σ p) (exec act' σ p')

variable {σ : Setting} {O : OperationRegistry → OperationRegistry → Prop}

namespace Parallel

variable {R : α → β → Prop} {S : γ → δ → Prop} {act : Typing α} {act' : Typing β}

theorem pure {x : α} {y : β} (h : R x y) : Parallel σ O (Pure.pure x) (Pure.pure y) R :=
  ⟨fun _ _ hp => .ok h hp⟩

theorem throw (e : TypingError) :
    Parallel σ O (MonadExcept.throw e : Typing α) (MonadExcept.throw e : Typing β) R :=
  ⟨fun p p' _ => .error e p p'⟩

theorem bind {next : α → Typing γ} {next' : β → Typing δ} (hact : Parallel σ O act act' R)
    (hnext : ∀ x y, R x y → Parallel σ O (next x) (next' y) S) :
    Parallel σ O (act >>= next) (act' >>= next') S := by
  constructor
  intro p p' hp
  have hends := hact.ends p p' hp
  rw [exec_bind, exec_bind]
  generalize exec act σ p = run, exec act' σ p' = run' at hends
  cases hends with
  | ok hxy hq => exact (hnext _ _ hxy).ends _ _ hq
  | error e q q' => exact .error e q q'

/-- Two actions with the same result, and what follows on it. -/
theorem bind_eq {act act' : Typing α} {next : α → Typing γ} {next' : α → Typing δ}
    (hact : Parallel σ O act act' Eq) (hnext : ∀ x, Parallel σ O (next x) (next' x) S) :
    Parallel σ O (act >>= next) (act' >>= next') S := by
  apply hact.bind
  rintro x _ rfl
  exact hnext x

theorem map {f : α → γ} {g : β → δ} (hact : Parallel σ O act act' R)
    (h : ∀ x y, R x y → S (f x) (g y)) : Parallel σ O (f <$> act) (g <$> act') S := by
  rw [← bind_pure_comp, ← bind_pure_comp]
  exact hact.bind fun x y hxy => .pure (h x y hxy)

theorem map_eq {act act' : Typing α} (f : α → γ) (hact : Parallel σ O act act' Eq) :
    Parallel σ O (f <$> act) (f <$> act') Eq :=
  hact.map fun _ _ h => congrArg f h

theorem options_bind {next : Options → Typing γ} {next' : Options → Typing δ}
    (h : Parallel σ O (next σ.options) (next' σ.options) S) :
    Parallel σ O (options >>= next) (options >>= next') S := ⟨h.ends⟩

theorem read_bind {next : Setting → Typing γ} {next' : Setting → Typing δ}
    (h : Parallel σ O (next σ) (next' σ) S) : Parallel σ O (read >>= next) (read >>= next') S :=
  ⟨h.ends⟩

theorem get_bind {next : Progress → Typing γ} {next' : Progress → Typing δ}
    (h : ∀ p p', Twins σ.options.alphabetize O p p' → Parallel σ O (next p) (next' p') S) :
    Parallel σ O (get >>= next) (get >>= next') S :=
  ⟨fun p p' hp => (h p p' hp).ends p p' hp⟩

theorem modify {change change' : Progress → Progress}
    (h : ∀ p p', Twins σ.options.alphabetize O p p' →
      Twins σ.options.alphabetize O (change p) (change' p')) :
    Parallel σ O (modify change : Typing Unit) (modify change') Eq :=
  ⟨fun p p' hp => .ok rfl (h p p' hp)⟩

/-- Only the runs of the actions count. -/
theorem congr {act₁ : Typing α} {act₁' : Typing β} (hact : ∀ p, exec act σ p = exec act₁ σ p)
    (hact' : ∀ p, exec act' σ p = exec act₁' σ p) (h : Parallel σ O act₁ act₁' R) :
    Parallel σ O act act' R := by
  constructor
  intro p p' hp
  rw [hact, hact']
  exact h.ends p p' hp

theorem resolving {act : Resolver.Resolving α} {act' : Resolver.Resolving β}
    (h : Resolver.Agree σ.options.alphabetize act act' R) :
    Parallel σ O (resolving act) (resolving act') R := by
  constructor
  intro p p' hp
  obtain ⟨halike, hxy⟩ := h _ _ hp.resolver
  exact .ok hxy { hp with resolver := halike }

theorem ofExcept (x : Except TypingError α) : Parallel σ O (ofExcept x) (ofExcept x) Eq := by
  cases x with
  | ok x => exact .pure rfl
  | error e => exact .throw e

theorem warn (kind : WarningKind) (place message : String) :
    Parallel σ O (warn kind place message) (warn kind place message) Eq :=
  modify fun p p' hp => { hp with warnings := by rw [hp.warnings] }

theorem unresolved (ref place : String) :
    Parallel σ O (unresolved ref place) (unresolved ref place) Eq := by
  apply options_bind
  split
  · exact (throw _).bind_eq fun _ => (warn _ _ _).bind_eq fun _ => pure rfl
  · exact (warn _ _ _).bind_eq fun _ => pure rfl

theorem find? [Referable α] [Comparable α] (ref : String) :
    Parallel σ O (find? α ref) (find? α ref)
      (Option.Rel (Comparable.Alike σ.options.alphabetize)) :=
  resolving (Resolver.find?_agree ref)

theorem inliningRef {key : String} (hact : Parallel σ O act act' R) :
    Parallel σ O (inliningRef key act) (inliningRef key act') R := by
  constructor
  intro p p' hp
  have hends := hact.ends { p with inlining := key :: p.inlining }
    { p' with inlining := key :: p'.inlining } { hp with inlining := by rw [hp.inlining] }
  rw [exec_inliningRef, exec_inliningRef]
  generalize exec act σ { p with inlining := key :: p.inlining } = run,
    exec act' σ { p' with inlining := key :: p'.inlining } = run' at hends
  cases hends with
  | ok hxy hq => exact .ok hxy { hq with inlining := by rw [hq.inlining] }
  | error e q q' => exact .error e _ _

/-- Maps with related entries are written in the same order of keys. -/
theorem entries {m : Option (OrderedMap α)} {m' : Option (OrderedMap β)}
    (h : EntriesRel σ.options.alphabetize R (entriesOf m) (entriesOf m')) :
    Parallel σ O (entries m) (entries m') (List.Forall₂ (EntryRel R)) := by
  have hordered := h.inOrder
  apply options_bind
  split
  · rename_i hsorted
    rw [if_pos hsorted, if_pos hsorted] at hordered
    exact pure hordered
  · rename_i hsorted
    rw [if_neg hsorted, if_neg hsorted] at hordered
    exact pure hordered

theorem mapM {f : α → Typing γ} {g : β → Typing δ} {l : List α} {l' : List β}
    (h : List.Forall₂ R l l') (hfg : ∀ x y, R x y → Parallel σ O (f x) (g y) S) :
    Parallel σ O (l.mapM f) (l'.mapM g) (List.Forall₂ S) := by
  induction h with
  | nil =>
    rw [List.mapM_nil, List.mapM_nil]
    exact pure .nil
  | cons hxy _ ih =>
    rw [List.mapM_cons, List.mapM_cons]
    exact (hfg _ _ hxy).bind fun _ _ hz => ih.bind fun _ _ hzs => pure (.cons hz hzs)

theorem filterMapM {f : α → Typing (Option γ)} {g : β → Typing (Option δ)} {l : List α}
    {l' : List β} (h : List.Forall₂ R l l')
    (hfg : ∀ x y, R x y → Parallel σ O (f x) (g y) (Option.Rel S)) :
    Parallel σ O (l.filterMapM f) (l'.filterMapM g) (List.Forall₂ S) := by
  induction h with
  | nil =>
    rw [List.filterMapM_nil, List.filterMapM_nil]
    exact pure .nil
  | cons hxy _ ih =>
    rw [List.filterMapM_cons, List.filterMapM_cons]
    apply (hfg _ _ hxy).bind
    intro z z' hz
    cases hz with
    | none => exact ih
    | some hz => exact ih.bind fun _ _ hzs => pure (.cons hz hzs)

end Parallel

/-- References that read the same are typed the same, whatever their targets are. -/
theorem refType_parallel [Referable α] [Comparable α] {inline : α → String → Typing TypeExpr}
    (hinline : ∀ x y place, Comparable.Alike σ.options.alphabetize x y →
      Parallel σ O (inline x place) (inline y place) Eq) (ref place : String) :
    Parallel σ O (refType inline ref place) (refType inline ref place) Eq := by
  unfold refType
  split
  · apply Parallel.get_bind
    intro p p' hp
    rw [hp.resolver.exists_eq]
    split
    · exact .pure rfl
    · exact .unresolved ref place
  · apply Parallel.get_bind
    intro p p' hp
    rw [hp.inlining]
    split
    · exact (Parallel.warn _ _ _).bind_eq fun _ => .pure rfl
    · apply (Parallel.find? ref).bind
      intro found found' hfound
      cases hfound with
      | none => exact .unresolved ref place
      | some h => exact .inliningRef (hinline _ _ _ h)

end Typing

end ApiTypes
