import ApiTypes.Proofs.Registry
import ApiTypes.Proofs.Typing.Registrations

/-!
The parameters of an operation over those of its path item. References are followed to tell equal
parameters apart, but what is listed is merged, and the references are followed once more when the
merged list is written. This comes to one list if each reference leads to a parameter in the end and
leads there again.
-/

namespace ApiTypes.Typing

variable {α β ι : Type} {σ : Setting} {p q r : Progress} {place : String}

theorem Runs.unique {act : Typing α} {x y : α} (h : Runs σ act p x q) (h' : Runs σ act p y r) :
    x = y ∧ q = r := by
  obtain ⟨hx, hq⟩ := Prod.mk.inj (h.symm.trans h')
  exact ⟨Except.ok.inj hx, hq⟩

/-- Steps for the elements of a list, one after the other, each with what comes of it. -/
inductive InTurn (step : ι → Progress → β → Progress → Prop) :
    List ι → Progress → List β → Progress → Prop where
  | nil {p : Progress} : InTurn step [] p [] p
  | cons {x : ι} {rest : List ι} {y : β} {others : List β} {p q r : Progress} :
    step x p y q → InTurn step rest q others r → InTurn step (x :: rest) p (y :: others) r

namespace InTurn

variable {step : ι → Progress → β → Progress → Prop} {xs : List ι} {ys : List β}

theorem imp {step' : ι → Progress → β → Progress → Prop}
    (hstep : ∀ x ∈ xs, ∀ p y q, step x p y q → step' x p y q) (h : InTurn step xs p ys q) :
    InTurn step' xs p ys q := by
  induction h with
  | nil => exact .nil
  | cons hx _ ih =>
    obtain ⟨hfirst, hrest⟩ := List.forall_mem_cons.mp hstep
    exact .cons (hfirst _ _ _ hx) (ih hrest)

theorem forall₂ {R : ι → β → Prop} (hstep : ∀ x p y q, step x p y q → R x y)
    (h : InTurn step xs p ys q) : List.Forall₂ R xs ys := by
  induction h with
  | nil => exact .nil
  | cons hx _ ih => exact .cons (hstep _ _ _ _ hx) ih

end InTurn

theorem runs_mapM_iff {act : ι → Typing β} {xs : List ι} {ys : List β} :
    Runs σ (xs.mapM act) p ys q ↔ InTurn (fun x => Runs σ (act x)) xs p ys q := by
  constructor
  · intro h
    induction xs generalizing p ys with
    | nil =>
      obtain ⟨rfl, rfl⟩ := Runs.pure_iff.mp h
      exact .nil
    | cons x xs ih =>
      rw [List.mapM_cons] at h
      obtain ⟨y, r, hx, hafter⟩ := Runs.bind_iff.mp h
      obtain ⟨others, r', hothers, hys⟩ := Runs.bind_iff.mp hafter
      obtain ⟨rfl, rfl⟩ := Runs.pure_iff.mp hys
      exact .cons hx (ih hothers)
  · intro h
    induction h with
    | nil => exact Runs.pure_iff.mpr ⟨rfl, rfl⟩
    | cons hx _ ih =>
      rw [List.mapM_cons]
      exact Runs.bind_iff.mpr ⟨_, _, hx, Runs.bind_iff.mpr ⟨_, _, ih,
        Runs.pure_iff.mpr ⟨rfl, rfl⟩⟩⟩

/-- The listed parameter is the one it stands for, or a reference that is found to lead to it. This
one is no reference. -/
structure Finds (σ : Setting) (x : ListedParameter) (p q : Progress) : Prop where
  runs : Runs σ (resolvedParameter? x.listed) p (some x.resolved) q
  ends : x.resolved.ref = ""

/-- Listed parameters lead to those they stand for, one after the other. -/
inductive FindsAll (σ : Setting) : List ListedParameter → Progress → Progress → Prop where
  | nil {p : Progress} : FindsAll σ [] p p
  | cons {x : ListedParameter} {rest : List ListedParameter} {p q r : Progress} :
    Finds σ x p q → FindsAll σ rest q r → FindsAll σ (x :: rest) p r

theorem FindsAll.of_forall {listed : List ListedParameter} (h : ∀ x ∈ listed, Finds σ x p p) :
    FindsAll σ listed p p := by
  induction listed with
  | nil => exact .nil
  | cons x rest ih =>
    obtain ⟨hx, hrest⟩ := List.forall_mem_cons.mp h
    exact .cons hx (ih hrest)

theorem FindsAll.of_append {listed listed' : List ListedParameter}
    (h : FindsAll σ (listed ++ listed') p q) :
    ∃ r, FindsAll σ listed p r ∧ FindsAll σ listed' r q := by
  induction listed generalizing p with
  | nil => exact ⟨p, .nil, h⟩
  | cons x listed ih =>
    cases h with
    | cons hx hrest =>
      obtain ⟨r, hfirst, hafter⟩ := ih hrest
      exact ⟨r, .cons hx hfirst, hafter⟩

/-- What tells parameters apart that are no references. -/
def mergeKey (x : ListedParameter) : String := x.resolved.location ++ ":" ++ x.resolved.name

/-- Of listed parameters that stand for equal ones the last, at the place of the first. -/
def merged (listed : List ListedParameter) : List ListedParameter :=
  (OrderedMap.ofList (listed.map fun x => (mergeKey x, x))).values

/-- What is stored under the keys does not matter. -/
theorem values_ofList_map (key : α → String) (f : α → β) (list : List α) :
    (OrderedMap.ofList (list.map fun x => (key x, f x))).values =
      (OrderedMap.ofList (list.map fun x => (key x, x))).values.map f := by
  have hentries : List.Forall₂ (EntryRel fun y x => y = f x)
      (list.map fun x => (key x, f x)) (list.map fun x => (key x, x)) := by
    rw [List.forall₂_map_left_iff, List.forall₂_map_right_iff, List.forall₂_same]
    exact fun _ _ => ⟨rfl, rfl⟩
  exact List.forall₂_eq_eq_eq ▸ List.forall₂_map_right_iff.mpr (EntryRel.ofList hentries)

/-- What is found stands at some place. -/
theorem Runs.locate_of_find [Referable α] {ref : String} {x : α}
    (h : Runs σ (find? α ref) p (some x) q) :
    ∃ key, Runs σ (resolving (Resolver.locate? α ref)) p (some (key, x)) q := by
  have hfind : (Resolver.find? α ref).run p.resolver =
      (((Resolver.locate? α ref).run p.resolver).1.map (·.2),
        ((Resolver.locate? α ref).run p.resolver).2) := rfl
  rw [Runs, find?, exec_resolving, hfind] at h
  obtain ⟨hfound, rfl⟩ := Prod.mk.inj h
  obtain ⟨⟨key, _⟩, hlocated, rfl⟩ := Option.map_eq_some_iff.mp (Except.ok.inj hfound)
  refine ⟨key, ?_⟩
  rw [Runs, exec_resolving, hlocated]

/-- A parameter is told from others by the one that it stands for. -/
theorem parameterKey_runs {x : ListedParameter} (h : Finds σ x p q) :
    Runs σ (parameterKey x.listed place) p (mergeKey x) q := by
  obtain ⟨listed, resolved⟩ := x
  obtain ⟨hruns, hend⟩ := h
  dsimp only at hruns hend ⊢
  unfold resolvedParameter? at hruns
  unfold parameterKey
  split at hruns
  · rename_i hinline
    obtain ⟨heq, rfl⟩ := Runs.pure_iff.mp hruns
    obtain rfl : listed = resolved := Option.some.inj heq
    rw [if_pos hinline]
    exact Runs.pure_iff.mpr ⟨rfl, rfl⟩
  · rename_i href
    obtain ⟨key, hlocated⟩ := hruns.locate_of_find
    have hother : resolved.ref ≠ listed.ref := fun heq => href (heq.symm.trans hend)
    rw [if_neg href]
    refine Runs.bind_iff.mpr ⟨_, q, hlocated, Runs.pure_iff.mpr ⟨?_, rfl⟩⟩
    simp [hother, mergeKey]

/-- Parameters that all lead to parameters come with what tells these from others. -/
theorem keyedParameters_runs {list : List (Option Parameter)} {listed : List ListedParameter}
    (hlist : list.filterMap id = listed.map (·.listed)) (h : FindsAll σ listed p q) :
    Runs σ (keyedParameters list place) p (listed.map fun x => (mergeKey x, x.listed)) q := by
  obtain ⟨positions, hpositions⟩ : ∃ positions, list.zipIdx = positions := ⟨_, rfl⟩
  rw [← List.zipIdx_map_fst 0 list, hpositions] at hlist
  rw [keyedParameters, hpositions]
  clear hpositions
  induction positions generalizing p listed with
  | nil =>
    obtain rfl := List.map_eq_nil_iff.mp hlist.symm
    cases h
    exact Runs.pure_iff.mpr ⟨rfl, rfl⟩
  | cons first rest ih =>
    obtain ⟨x, i⟩ := first
    rw [List.filterMapM_cons]
    cases x with
    | none => exact ih h hlist
    | some x =>
      obtain ⟨here, others, rfl, rfl, hrest⟩ := List.map_eq_cons_iff.mp hlist.symm
      cases h with
      | cons hx hothers =>
        refine Runs.bind_iff.mpr ⟨_, _, Runs.bind_iff.mpr ⟨_, _, parameterKey_runs hx,
          Runs.pure_iff.mpr ⟨rfl, rfl⟩⟩, ?_⟩
        exact Runs.bind_iff.mpr ⟨_, _, ih hothers hrest.symm, Runs.pure_iff.mpr ⟨rfl, rfl⟩⟩

/-- The parameters that are listed for an operation: those of its path item, then its own. -/
def parametersOf (item : PathItem) (o : Operation) : List Parameter :=
  (item.parameters.getD [] ++ o.parameters.getD []).filterMap id

theorem mergeParameters_runs {item : PathItem} {o : Operation} {method : Method}
    {listed : List ListedParameter} (hlisted : parametersOf item o = listed.map (·.listed))
    (h : FindsAll σ listed p q) :
    Runs σ (mergeParameters item o place method) p ((merged listed).map (some ·.listed)) q := by
  rw [parametersOf, List.filterMap_append] at hlisted
  obtain ⟨shared, own, rfl, hshared, hown⟩ := List.map_eq_append_iff.mp hlisted.symm
  obtain ⟨r, hfirst, hafter⟩ := h.of_append
  refine Runs.bind_iff.mpr ⟨_, r, keyedParameters_runs hshared.symm hfirst, ?_⟩
  refine Runs.bind_iff.mpr ⟨_, q, keyedParameters_runs hown.symm hafter,
    Runs.pure_iff.mpr ⟨?_, rfl⟩⟩
  rw [← List.map_append, values_ofList_map, List.map_map]
  rfl

/-- Parameters that lead to the same ones again are all written, if none is left out. -/
theorem resolveParameters_runs (hall : σ.options.excludeDeprecated = false)
    {listed : List ListedParameter} (h : ∀ x ∈ listed, Finds σ x p p) :
    Runs σ (resolveParameters place (listed.map (some ·.listed))) p listed p := by
  induction listed with
  | nil => exact Runs.pure_iff.mpr ⟨rfl, rfl⟩
  | cons x rest ih =>
    obtain ⟨hx, hrest⟩ := List.forall_mem_cons.mp h
    rw [List.map_cons, resolveParameters]
    refine Runs.bind_iff.mpr ⟨_, p, hx.runs, ?_⟩
    have hkept : Runs σ (do return ⟨x.listed, x.resolved⟩ ::
        (← resolveParameters place (rest.map (some ·.listed)))) p (x :: rest) p :=
      Runs.bind_iff.mpr ⟨rest, p, ih hrest, Runs.pure_iff.mpr ⟨rfl, rfl⟩⟩
    change Runs σ (if σ.options.excludeDeprecated && x.resolved.deprecated then _ else _) p _ p
    rw [hall, Bool.false_and, if_neg (by decide)]
    exact hkept

theorem merged_subset (listed : List ListedParameter) : merged listed ⊆ listed :=
  fun _ hx => ((OrderedMap.latest_ofList mergeKey listed).isLast hx).mem

/-- The type of an operation has a member for each location, in which those of the merged parameters
are written that stand there. -/
theorem operationType_buckets (hunsorted : σ.options.alphabetize = false)
    (hall : σ.options.excludeDeprecated = false) {item : PathItem} {o : Operation} {method : Method}
    {listed : List ListedParameter} (hlisted : parametersOf item o = listed.map (·.listed))
    {s : Progress} (hresolved : FindsAll σ listed p s)
    (hagain : ∀ x ∈ listed, Finds σ x s s) {t : TypeExpr}
    (h : Runs σ (operationType item o place method) p t q) :
    ∃ buckets rest r,
      t = .object (.property "parameters" false σ.options.immutable (.object buckets) [] :: rest) ∧
        InTurn (fun location => Runs σ (locationMember (Reference.join
            (Reference.join place [method.name]) ["parameters"]) (merged listed) location))
          parameterLocations s buckets r := by
  obtain ⟨parameters, s', hmerged, hafter⟩ := Runs.bind_iff.mp h
  obtain ⟨rfl, rfl⟩ := hmerged.unique (mergeParameters_runs hlisted hresolved)
  obtain ⟨members, r, hmembers, ht⟩ := Runs.bind_iff.mp hafter
  obtain ⟨rfl, -⟩ := Runs.pure_iff.mp ht
  obtain ⟨first, r₁, hfirst, hafter⟩ := Runs.bind_iff.mp hmembers
  obtain ⟨body, r₂, -, hafter⟩ := Runs.bind_iff.mp hafter
  obtain ⟨responses, r₃, -, hafter⟩ := Runs.bind_iff.mp hafter
  obtain ⟨rfl, -⟩ := Runs.pure_iff.mp hafter.options_bind
  obtain ⟨kept, r₄, hkept, hwritten⟩ := Runs.bind_iff.mp hfirst.options_bind
  obtain ⟨rfl, rfl⟩ := hkept.unique
    (resolveParameters_runs hall fun x hx => hagain x (merged_subset _ hx))
  rw [hunsorted, if_neg (by decide)] at hwritten
  obtain ⟨buckets, r₅, hbuckets, hm⟩ := Runs.bind_iff.mp hwritten
  obtain ⟨rfl, -⟩ := Runs.pure_iff.mp hm
  exact ⟨buckets, _, r₅, rfl, runs_mapM_iff.mp hbuckets⟩

end ApiTypes.Typing
