import ApiTypes.Proofs.ParameterLists

/-!
What the type of an operation says of parameters that are listed more than once. Of those with the
same location and name the last is written, where the first stands, and with the type of what is
listed, which may be a reference. So references are followed while the parameters are merged, and
again when they are written. In between the resolver may have fetched more, but what it has found
before it finds again.
-/

namespace ApiTypes.Typing

open Resolver (Later)

variable {σ : Setting} {p q : Progress} {place : String}

theorem Finds.later {x : ListedParameter} (h : Finds σ x p q) : Later p.resolver q.resolver := by
  have hruns := h.runs
  unfold resolvedParameter? at hruns
  split at hruns
  · obtain ⟨-, rfl⟩ := Runs.pure_iff.mp hruns
    exact .refl _
  · obtain ⟨-, rfl⟩ := Prod.mk.inj hruns
    exact (Resolver.Lasting.find? _ _).1

/-- A parameter that has been found is found again. -/
theorem Finds.again {x : ListedParameter} (h : Finds σ x p q) {s : Progress}
    (hs : Later q.resolver s.resolver) : Finds σ x s s := by
  obtain ⟨hruns, hend⟩ := h
  refine ⟨?_, hend⟩
  unfold resolvedParameter? at hruns ⊢
  split at hruns
  · rw [if_pos ‹_›]
    exact Runs.pure_iff.mpr ⟨(Runs.pure_iff.mp hruns).1, rfl⟩
  · obtain ⟨hfound, rfl⟩ := Prod.mk.inj hruns
    have htells := (Resolver.Lasting.find? _ _).2 _ s.resolver (Except.ok.inj hfound) hs
    rw [if_neg ‹_›, Runs, find?, exec_resolving, htells]

theorem FindsAll.again {listed : List ListedParameter} (h : FindsAll σ listed p q) :
    Later p.resolver q.resolver ∧
      ∀ s, Later q.resolver s.resolver → ∀ x ∈ listed, Finds σ x s s := by
  induction h with
  | nil => exact ⟨.refl _, fun _ _ => List.forall_mem_nil _⟩
  | cons hx _ ih =>
    obtain ⟨hlater, hrest⟩ := ih
    exact ⟨hx.later.trans hlater, fun s hs =>
      List.forall_mem_cons.mpr ⟨hx.again (hlater.trans hs), hrest s hs⟩⟩

/-! Which parameters are written. -/

/-- Where a parameter stands, and its name there. -/
def ListedParameter.key (x : ListedParameter) : String × String :=
  (x.resolved.location, x.resolved.name)

/-- There is one parameter for each location and name that is listed, in the order in which these
are first listed, and it is the last that is listed with them. -/
structure Overrides (listed kept : List ListedParameter) : Prop where
  keys : kept.map (·.key) = (listed.map (·.key)).eraseDups
  last : ∀ x ∈ kept, OrderedMap.IsLast (·.key) listed x

/-- The location and the name in the text that tells parameters apart. -/
def cutKey (text : String) : String × String :=
  ((Text.cutChars ':' text.toList).map fun (location, name) =>
    (String.ofList location, String.ofList name)).getD ("", "")

theorem cutKey_mergeKey {x : ListedParameter} (h : x.resolved.location ∈ parameterLocations) :
    cutKey (mergeKey x) = x.key := by
  have hplain : ∀ location ∈ parameterLocations, ':' ∉ location.toList := by decide
  have htext : (mergeKey x).toList =
      x.resolved.location.toList ++ ':' :: x.resolved.name.toList := by
    rw [mergeKey, String.toList_append, String.toList_append, List.append_assoc]
    rfl
  rw [cutKey, htext, Text.cutChars_append (hplain _ h)]
  simp [ListedParameter.key]

/-- Merging leaves the last parameter for each location and name. -/
theorem overrides_merged {listed : List ListedParameter}
    (h : ∀ x ∈ listed, x.resolved.location ∈ parameterLocations) :
    Overrides listed (merged listed) := by
  have hlatest := OrderedMap.latest_ofList mergeKey listed
  have hcut {list : List ListedParameter} (hsub : list ⊆ listed) :
      (list.map mergeKey).map cutKey = list.map (·.key) := by
    rw [List.map_map]
    exact List.map_congr_left fun x hx => cutKey_mergeKey (h x (hsub hx))
  refine ⟨?_, fun x hx => ?_⟩
  · have hinj : ∀ a ∈ listed.map mergeKey, ∀ b ∈ listed.map mergeKey,
        cutKey a = cutKey b → a = b := by
      intro a ha b hb heq
      obtain ⟨x, hx, rfl⟩ := List.mem_map.mp ha
      obtain ⟨y, hy, rfl⟩ := List.mem_map.mp hb
      rw [cutKey_mergeKey (h x hx), cutKey_mergeKey (h y hy)] at heq
      obtain ⟨hlocation, hname⟩ := Prod.mk.inj heq
      rw [mergeKey, mergeKey, hlocation, hname]
    calc (merged listed).map (·.key)
        = ((merged listed).map mergeKey).map cutKey := (hcut (merged_subset listed)).symm
      _ = (listed.map mergeKey).eraseDups.map cutKey := by rw [merged, hlatest.map_values]
      _ = ((listed.map mergeKey).map cutKey).eraseDups := (map_eraseDups hinj).symm
      _ = (listed.map (·.key)).eraseDups := by rw [hcut (List.Subset.refl listed)]
  · obtain ⟨earlier, later, heq, hlater⟩ := hlatest.isLast hx
    refine ⟨earlier, later, heq, fun y hy hkey => hlater y hy ?_⟩
    obtain ⟨hlocation, hname⟩ := Prod.mk.inj hkey
    rw [mergeKey, mergeKey, hlocation, hname]

/-! How they are written. -/

/-- Whether a member can be left out. -/
def canBeLeftOut : Member → Bool
  | .property _ isOptional _ _ _ => isOptional
  | .indexSignature .. => true

/-- The member for a parameter has its name and its text, and the type that is made of what is
listed. It can be left out if the parameter is not required and does not stand in the path. -/
def ParameterWritten (σ : Setting) (place location : String) (x : ListedParameter) (p : Progress)
    (m : Member) (q : Progress) : Prop :=
  ∃ isOptional t, m = .property x.resolved.name isOptional σ.options.immutable t x.resolved.doc ∧
    (isOptional = true ↔ x.resolved.required = false ∧ location ≠ "path") ∧
    Runs σ (listedType x (Reference.join place [location, x.resolved.name])) p t q

/-- The member for a location has a member for each parameter that stands there. Without any it can
be left out and has the type of no value; otherwise it can be left out if all its members can. -/
def BucketWritten (σ : Setting) (place : String) (kept : List ListedParameter) (location : String)
    (p : Progress) (m : Member) (q : Progress) : Prop :=
  ∃ members isOptional type, m = .property location isOptional σ.options.immutable type [] ∧
    InTurn (ParameterWritten σ place location) (kept.filter (·.resolved.location = location)) p
      members q ∧
    (isOptional = true ∧ type = .never ↔ members = []) ∧
    (members ≠ [] → type = .object members ∧
      (isOptional = true ↔ ∀ m ∈ members, canBeLeftOut m = true))

theorem parameterMember_written {x : ListedParameter} {m : Member}
    (h : Runs σ (parameterMember place x) p m q) :
    ParameterWritten σ place x.resolved.location x p m q := by
  obtain ⟨t, r, htype, hafter⟩ := Runs.bind_iff.mp h
  obtain ⟨rfl, rfl⟩ := Runs.pure_iff.mp hafter.options_bind
  refine ⟨_, t, rfl, ?_, htype⟩
  rw [isOptionalParameter, Bool.and_eq_true, decide_eq_true_eq, Bool.not_eq_true', and_comm]

theorem all_canBeLeftOut {here : List ListedParameter} {members : List Member}
    (h : InTurn (fun x => Runs σ (parameterMember place x)) here p members q) :
    here.all (isOptionalParameter ·.resolved) = members.all canBeLeftOut := by
  induction h with
  | nil => rfl
  | @cons x _ _ _ p _ _ hx _ ih =>
    obtain ⟨isReadonly, t, text, rfl⟩ := (parameterMember_gives place x).result _ _ _ hx
    rw [List.all_cons, List.all_cons, ih, canBeLeftOut]

theorem locationMember_written {kept : List ListedParameter} {location : String} {m : Member}
    (h : Runs σ (locationMember place kept location) p m q) :
    BucketWritten σ place kept location p m q := by
  obtain ⟨members, r, hmembers, hafter⟩ := Runs.bind_iff.mp h
  obtain ⟨rfl, rfl⟩ := Runs.pure_iff.mp hafter.options_bind
  have hinTurn := runs_mapM_iff.mp hmembers
  refine ⟨members, _, _, rfl, hinTurn.imp fun x hx p m q hrun => ?_, ?_⟩
  · have hlocation : x.resolved.location = location := of_decide_eq_true (List.mem_filter.mp hx).2
    exact hlocation ▸ parameterMember_written hrun
  · rw [all_canBeLeftOut hinTurn]
    cases members with
    | nil => exact ⟨⟨fun _ => rfl, fun _ => ⟨rfl, rfl⟩⟩, fun hne => absurd rfl hne⟩
    | cons first rest => exact ⟨⟨nofun, nofun⟩, fun _ => ⟨rfl, List.all_eq_true⟩⟩

/-- The operations of a path item have its parameters, and their own over them. If all that are
listed for an operation lead to parameters, which are no references and stand at a known location,
then one type is written for it, and it has a member for each location. In these the last parameter
of each location and name is written, in the order in which locations and names are first listed. -/
theorem parameters_overridden (hunsorted : σ.options.alphabetize = false)
    (hall : σ.options.excludeDeprecated = false) {item : PathItem} {t : TypeExpr}
    (hrun : Runs σ (pathItemType item place) p t q) :
    ∃ log, ItemLog σ item place p log q ∧ q.operations = p.operations.registerAll log ∧
      ∀ method o, item.operation? method = some o →
        ∃ turn type, Turn σ item place method p turn ∧
          (∀ u, EmittedFor place (t.members?.getD []) log method o u ↔ u = type) ∧
          ∀ listed s, listed.map (·.listed) = parametersOf item o → FindsAll σ listed turn s →
            (∀ x ∈ listed, x.resolved.location ∈ parameterLocations) →
            ∃ kept buckets rest s', Overrides listed kept ∧
              type = .object
                (.property "parameters" false σ.options.immutable (.object buckets) [] :: rest) ∧
              InTurn (BucketWritten σ
                  (Reference.join (Reference.join place [method.name]) ["parameters"]) kept)
                parameterLocations s buckets s' := by
  obtain ⟨log, hlog, hdeclared, hemits⟩ := pathItemType_emits_in_turn hrun
  refine ⟨log, hlog, hdeclared, fun method o ho => ?_⟩
  have hshown : shownOperation? σ.options item method = some o := by
    rw [shownOperation?, ho, hall]
    rfl
  obtain ⟨type, turn, r, hturn, htype, hemitted⟩ := hemits method o hshown
  refine ⟨turn, type, hturn, hemitted, fun listed s hlisted hfinds hlocations => ?_⟩
  obtain ⟨buckets, rest, s', htypeEq, hbuckets⟩ := operationType_buckets hunsorted hall
    hlisted.symm hfinds (hfinds.again.2 s (.refl _)) htype
  exact ⟨merged listed, buckets, rest, s', overrides_merged hlocations, htypeEq,
    hbuckets.imp fun _ _ _ _ _ => locationMember_written⟩

/-- What is listed for the first operation of `orderItem`, and what it stands for. -/
def orderListed : List ListedParameter :=
  let page : Parameter := { name := "page", location := "query" }
  let id : Parameter := { name := "id", location := "path" }
  [⟨page, page⟩,
    ⟨{ ref := "#/components/parameters/Trace" }, { name := "trace", location := "header" }⟩,
    ⟨{ ref := "#/components/parameters/Page" },
      { name := "page", location := "query", required := true }⟩,
    ⟨id, id⟩]

theorem parameters_overridden_orderItem :
    let place := Reference.join "#" (itemTokens false "/orders/\x7bid\x7d")
    let start : Progress := { resolver := Resolver.ofDocument orderDocument none }
    ∃ t q log o turn type, Runs {} (pathItemType orderItem place) start t q ∧
      ItemLog {} orderItem place start log q ∧ orderItem.operation? .get = some o ∧
      FindsAll {} orderListed turn turn ∧
      (∀ u, EmittedFor place (t.members?.getD []) log .get o u ↔ u = type) ∧
      ∃ kept buckets rest s, Overrides orderListed kept ∧
        type = .object (.property "parameters" false false (.object buckets) [] :: rest) ∧
        InTurn
          (BucketWritten {} (Reference.join (Reference.join place ["get"]) ["parameters"]) kept)
          parameterLocations turn buckets s := by
  intro place start
  obtain ⟨t, q, hrun⟩ := exists_runs_orderItem
  obtain ⟨log, hlog, -, hoperations⟩ := parameters_overridden rfl rfl hrun
  obtain ⟨turn, type, hturn, hemitted, hwritten⟩ := hoperations .get _ rfl
  have hfinds : FindsAll {} orderListed turn turn := by
    refine .of_forall fun x hx => .of_shows hturn.index ?_
    simp only [orderListed, List.mem_cons, List.not_mem_nil, or_false] at hx
    rcases hx with rfl | rfl | rfl | rfl <;> exact ⟨rfl, rfl⟩
  refine ⟨t, q, log, _, turn, type, hrun, hlog, rfl, hfinds, hemitted, ?_⟩
  exact hwritten orderListed turn rfl hfinds (by decide)

end ApiTypes.Typing
