import ApiTypes.Proofs.LeastTagging
import ApiTypes.Proofs.Spelling

/-!
Following references comes to an end. What is found under a reference stands at a place of the
document or of another one, and a chain does not come to a place twice. So if the places in other
documents are bounded, a chain ends before its steps are used up. What is found depends only on what
the resolver answers to the references that can be asked for, and it is found again whatever has
been fetched since. The rounds of the scan for discriminators come to an end too, whatever the
resolver does.
-/

namespace ApiTypes

open LawfulReferable (toObject)
open Resolver (Resolving Kept Under)

/-- The same resolver with another way to other documents. -/
def Resolver.via (v : Option ExternalResolver) (r : Resolver) : Resolver := { r with external := v }

/-- Whatever can be asked for is answered by `v` in the same way, and `v` promises as much, or more
where that is enough. -/
structure Source.Fits (w : Source) (v : Option ExternalResolver) : Prop where
  fetch : ∀ ref kind, w.Asks ref → Reference.isExternal ref = true →
    v.bind (·.fetch ref kind) = w.external.bind (·.fetch ref kind)
  reach : v.elim 0 (·.reach) = w.reach ∨ w.Bounded ∧ w.reach ≤ v.elim 0 (·.reach)

theorem Source.Fits.refl (w : Source) : w.Fits w.external := ⟨fun _ _ _ _ => rfl, .inl rfl⟩

/-- The places of a document, and some in other documents. -/
def Source.spots (w : Source) (places : List String) : List String :=
  (Index.ofDocument w.doc).map (·.1) ++ places

namespace Resolver

variable {α β : Type} {w : Source} {v : Option ExternalResolver} {places : List String}

/-- With `v` as the way to other documents, the same is answered and the same is kept. -/
def Steady (w : Source) (v : Option ExternalResolver) (act : Resolving α) : Prop :=
  ∀ r, w.Knows r → act.run (r.via v) = ((act.run r).1, (act.run r).2.via v)

namespace Steady

theorem pure (x : α) : Steady w v (Pure.pure x) := fun _ _ => rfl

theorem bind {act : Resolving α} {next : α → Resolving β} {mid : α → Prop}
    (hact : Steady w v act) (hkept : Kept w act mid) (hnext : ∀ x, mid x → Steady w v (next x)) :
    Steady w v (act >>= next) := by
  intro r hr
  obtain ⟨hknows, hmid⟩ := hkept r hr
  change (next (act.run (r.via v)).1).run (act.run (r.via v)).2 = _
  rw [hact r hr]
  exact hnext _ hmid _ hknows

theorem foldlM {step : β → α → Resolving β} {good : α → Prop} {inv : β → Prop}
    (hkept : ∀ acc x, inv acc → good x → Kept w (step acc x) inv)
    (hsteady : ∀ acc x, inv acc → good x → Steady w v (step acc x)) (list : List α)
    (hlist : ∀ x ∈ list, good x) (acc : β) (hacc : inv acc) :
    Steady w v (list.foldlM step acc) := by
  induction list generalizing acc with
  | nil => exact pure acc
  | cons x rest ih =>
    obtain ⟨hx, hrest⟩ := List.forall_mem_cons.mp hlist
    rw [List.foldlM_cons]
    exact bind (hsteady acc x hacc hx) (hkept acc x hacc hx) fun acc' hacc' => ih hrest acc' hacc'

end Steady

theorem bind_congr {act : Resolving α} {next next' : α → Resolving β} {r : Resolver}
    (h : ∀ x r', act.run r = (x, r') → (next x).run r' = (next' x).run r') :
    (act >>= next).run r = (act >>= next').run r := h _ _ rfl

theorem run_get_bind (next : Resolver → Resolving β) (r : Resolver) :
    (get >>= next).run r = (next r).run r := rfl

section Referable

variable [Referable α]

theorem lookup?_steady (hfits : w.Fits v) {ref : String} (hasks : w.Asks ref) :
    Steady w v (lookup? α ref) := by
  intro r hr
  rw [lookup?_run, lookup?_run]
  split
  · rename_i hexternal
    have hfetch : (r.via v).external.bind (·.fetch ref (Referable.kind α)) =
        r.external.bind (·.fetch ref (Referable.kind α)) := by
      rw [hr.external]
      exact hfits.fetch ref _ hasks hexternal
    have hfetched : (r.via v).fetched = r.fetched := rfl
    rw [hfetch, hfetched]
    cases r.fetched.lookup (Reference.canonical ref) with
    | some o => rfl
    | none => cases r.external.bind (·.fetch ref (Referable.kind α)) <;> rfl
  · rfl

/-- A reference to an object that is no reference leads to that object. -/
theorem find?_eq_lookup? {ref : String} (hne : ref ≠ "") {r : Resolver}
    (hend : ∀ x, ((lookup? α ref).run r).1 = some x → Referable.refOf x = "") :
    ((find? α ref).run r).1 = ((lookup? α ref).run r).1 := by
  have hfollow (steps : Nat) (visited : List String) (last : Option (String × α)) :
      follow α steps visited last "" = Pure.pure last := by
    cases steps <;> rfl
  have hrun : ((find? α ref).run r).1 =
      ((follow α (r.chainBound - 2 + 1 + 1) [] none ref).run r).1.map (·.2) := by
    have hbound : r.chainBound - 2 + 1 + 1 = r.chainBound := by
      unfold chainBound
      omega
    rw [hbound]
    rfl
  rw [hrun, follow, if_neg hne]
  simp only [List.contains_nil, Bool.false_eq_true, if_false]
  rw [StateT.run_bind]
  rcases hlookup : (lookup? α ref).run r with ⟨found, r'⟩
  rw [hlookup] at hend
  cases found with
  | none => rfl
  | some x =>
    change ((follow α _ _ _ (Referable.refOf x)).run r').1.map (·.2) = _
    rw [hend x rfl, hfollow]
    rfl

variable [LawfulReferable α]

/-- What is found stands at one of the places. -/
theorem mem_spots_of_lookup? (hcovers : w.Covers places) {r : Resolver} (hr : w.Knows r)
    {ref : String} (hasks : w.Asks ref) {x : α} (h : ((lookup? α ref).run r).1 = some x) :
    Reference.canonical ref ∈ w.spots places := by
  cases hexternal : Reference.isExternal ref with
  | true =>
    have hserves := ((lookup?_kept hasks r hr).2 x h).serves hexternal
    exact List.mem_append_right _ (hcovers.2 _ _ hserves).1
  | false =>
    rw [lookup?_run, hexternal] at h
    obtain ⟨o, ho, -⟩ := Option.bind_eq_some_iff.mp h
    have hmem := mem_index_of_at? ho
    rw [hr.index] at hmem
    generalize Reference.canonical ref = key at hmem ⊢
    exact List.mem_append_left _ (List.mem_map.mpr ⟨(key, o), hmem, rfl⟩)

theorem follow_steady (hfits : w.Fits v) (steps : Nat) (visited : List String)
    (last : Option (String × α)) {ref : String} (hasks : w.Asks ref) :
    Steady w v (follow α steps visited last ref) := by
  induction steps generalizing visited last ref with
  | zero => exact .pure last
  | succ steps ih =>
    rw [follow]
    split
    · exact .pure last
    · dsimp only
      split
      · exact .pure last
      · refine Steady.bind (lookup?_steady hfits hasks) (lookup?_kept hasks) fun found hfound => ?_
        cases found with
        | none => exact .pure none
        | some node => exact ih _ _ (asks_refOf (hfound node rfl).finds)

/-- More steps than there are places do not lead further. -/
theorem follow_add (hcovers : w.Covers places) (extra steps : Nat) {visited : List String}
    (last : Option (String × α)) {ref : String} (hasks : w.Asks ref) (hdistinct : visited.Nodup)
    (hinside : visited ⊆ w.spots places)
    (hsteps : (w.spots places).length < steps + visited.length) {r : Resolver} (hr : w.Knows r) :
    (follow α (steps + extra) visited last ref).run r =
      (follow α steps visited last ref).run r := by
  induction steps generalizing visited last ref r with
  | zero =>
    have hle := (List.subperm_of_subset hdistinct hinside).length_le
    omega
  | succ steps ih =>
    rw [Nat.add_right_comm, follow, follow]
    split
    · rfl
    · dsimp only
      split
      · rfl
      · rename_i hnew
        refine bind_congr fun found r' hrun => ?_
        obtain ⟨hknows, hfound⟩ := lookup?_kept (α := α) hasks r hr
        have hspot (x : α) := mem_spots_of_lookup? hcovers hr hasks (x := x)
        rw [hrun] at hknows hfound hspot
        cases found with
        | none => rfl
        | some node =>
          refine ih _ (asks_refOf (hfound node rfl).finds) ?_ ?_ ?_ hknows
          · exact List.nodup_cons.mpr ⟨by simpa using hnew, hdistinct⟩
          · exact List.cons_subset.mpr ⟨hspot node rfl, hinside⟩
          · rw [List.length_cons]
            omega

theorem length_spots (hcovers : w.Covers places) {r : Resolver} (hr : w.Knows r) :
    (w.spots places).length + 2 ≤ r.chainBound := by
  have hplaces := hcovers.1
  rw [chainBound, hr.index, hr.external, Source.spots, List.length_append, List.length_map]
  change _ ≤ _ + w.reach + 2
  omega

/-- Either as many steps are allowed for a chain, or more where no chain needs them. -/
theorem chainBound_via (hfits : w.Fits v) {r : Resolver} (hr : w.Knows r) :
    (r.via v).chainBound = r.chainBound ∨
      (∃ places, w.Covers places) ∧ ∃ extra, (r.via v).chainBound = r.chainBound + extra := by
  have hreach : w.reach = r.external.elim 0 (·.reach) := by rw [hr.external, Source.reach]
  unfold chainBound
  rw [← hreach]
  rcases hfits.reach with heq | ⟨hbounded, hle⟩
  · exact .inl (by rw [← heq]; rfl)
  · obtain ⟨extra, hextra⟩ := Nat.exists_eq_add_of_le hle
    refine .inr ⟨hbounded, extra, ?_⟩
    change r.index.length + v.elim 0 (·.reach) + 2 = _
    omega

omit [LawfulReferable α] in
theorem locate?_run (ref : String) (r : Resolver) :
    (locate? α ref).run r = (follow α r.chainBound [] none ref).run r := by
  unfold locate?
  exact run_get_bind _ r

theorem locate?_steady (hfits : w.Fits v) {ref : String} (hasks : w.Asks ref) :
    Steady w v (locate? α ref) := by
  intro r hr
  rw [locate?_run, locate?_run]
  rcases chainBound_via hfits hr with hsame | ⟨⟨places, hcovers⟩, extra, hextra⟩
  · rw [hsame, follow_steady hfits _ _ _ hasks r hr]
  · have hsteps : (w.spots places).length < r.chainBound + ([] : List String).length :=
      Nat.lt_of_lt_of_le (Nat.lt_add_of_pos_right Nat.two_pos) (length_spots hcovers hr)
    rw [hextra, follow_steady hfits _ _ _ hasks r hr,
      follow_add hcovers extra _ none hasks List.nodup_nil (List.nil_subset _) hsteps hr]

theorem find?_steady (hfits : w.Fits v) {ref : String} (hasks : w.Asks ref) :
    Steady w v (find? α ref) :=
  (locate?_steady hfits hasks).bind (locate?_kept hasks) fun _ _ => .pure _

end Referable

/-! What is found once is found again. -/

section Later

variable {r s t : Resolver}

/-- A resolver that may have fetched more. -/
structure Later (r s : Resolver) : Prop where
  index : s.index = r.index
  external : s.external = r.external
  fetched : ∀ key o, r.fetched.lookup key = some o → s.fetched.lookup key = some o

theorem Later.refl (r : Resolver) : Later r r := ⟨rfl, rfl, fun _ _ h => h⟩

theorem Later.trans (h : Later r s) (h' : Later s t) : Later r t :=
  ⟨h'.index.trans h.index, h'.external.trans h.external,
    fun key o ho => h'.fetched key o (h.fetched key o ho)⟩

theorem Later.at?_eq (h : Later r s) (place : String) : s.at? place = r.at? place := by
  rw [at?, at?, h.index]

theorem Later.chainBound_eq (h : Later r s) : s.chainBound = r.chainBound := by
  rw [chainBound, chainBound, h.index, h.external]

/-- Asking leads to a later resolver. What is found, this and all later ones find again, and nothing
is fetched for it. -/
def Lasting (act : Resolving (Option α)) : Prop :=
  ∀ r, Later r (act.run r).2 ∧ ∀ x s, (act.run r).1 = some x → Later (act.run r).2 s →
    act.run s = (some x, s)

namespace Lasting

theorem pure (found : Option α) : Lasting (Pure.pure found) := by
  refine fun r => ⟨.refl r, fun x s hfound _ => ?_⟩
  rw [show found = some x from hfound]
  rfl

/-- A search that goes on where it finds something. -/
theorem andThen {act : Resolving (Option α)} {next : Option α → Resolving (Option β)}
    (hact : Lasting act) (hnone : next none = Pure.pure none)
    (hsome : ∀ x, Lasting (next (some x))) : Lasting (act >>= next) := by
  have hrun (r : Resolver) : (act >>= next).run r = (next (act.run r).1).run (act.run r).2 := rfl
  intro r
  obtain ⟨hlater, hagain⟩ := hact r
  simp only [hrun]
  generalize act.run r = ran at hlater hagain ⊢
  obtain ⟨found, r'⟩ := ran
  cases found with
  | none =>
    rw [hnone]
    exact ⟨hlater, nofun⟩
  | some x =>
    obtain ⟨hlater', hagain'⟩ := hsome x r'
    refine ⟨hlater.trans hlater', fun y s hy hs => ?_⟩
    rw [hagain x s rfl (hlater'.trans hs)]
    exact hagain' y s hy hs

variable [Referable α]

theorem lookup? (ref : String) : Lasting (Resolver.lookup? α ref) := by
  intro r
  simp only [lookup?_run]
  cases hexternal : Reference.isExternal ref with
  | false =>
    rw [if_neg (by decide)]
    refine ⟨.refl r, fun x s hx hs => ?_⟩
    rw [if_neg (by decide), hs.at?_eq]
    exact congrArg (·, s) hx
  | true =>
    rw [if_pos rfl]
    cases hcached : r.fetched.lookup (Reference.canonical ref) with
    | some o =>
      refine ⟨.refl r, fun x s hx hs => ?_⟩
      rw [if_pos rfl, hs.fetched _ o hcached]
      exact congrArg (·, s) hx
    | none =>
      dsimp only
      cases r.external.bind (·.fetch ref (Referable.kind α)) with
      | none => exact ⟨.refl r, nofun⟩
      | some o =>
        refine ⟨⟨rfl, rfl, fun key o' ho' => ?_⟩, fun x s hx hs => ?_⟩
        · have hne : key ≠ Reference.canonical ref := by
            intro heq
            rw [heq, hcached] at ho'
            cases ho'
          rw [List.lookup_cons, beq_false_of_ne hne]
          exact ho'
        · rw [if_pos rfl, hs.fetched _ o List.lookup_cons_self]
          exact congrArg (·, s) hx

theorem follow (steps : Nat) (visited : List String) (last : Option (String × α)) (ref : String) :
    Lasting (Resolver.follow α steps visited last ref) := by
  induction steps generalizing visited last ref with
  | zero => exact .pure last
  | succ steps ih =>
    rw [Resolver.follow]
    split
    · exact .pure last
    · dsimp only
      split
      · exact .pure last
      · exact (lookup? ref).andThen rfl fun node => ih _ _ _

theorem locate? (ref : String) : Lasting (Resolver.locate? α ref) := by
  intro r
  obtain ⟨hlater, hagain⟩ := follow (α := α) r.chainBound [] none ref r
  simp only [locate?_run]
  refine ⟨hlater, fun x s hx hs => ?_⟩
  rw [(hlater.trans hs).chainBound_eq]
  exact hagain x s hx hs

theorem find? (ref : String) : Lasting (Resolver.find? α ref) :=
  (locate? ref).andThen rfl fun _ => .pure _

end Lasting

end Later

/-! Chains from one uniform spelling to the next. Two spellings can name one place. A chain that
comes to a place under a second spelling goes on to where it has been. -/

/-- The schema that is found under a reference without asking the external resolver. -/
def known? (r : Resolver) (key : String) : Option Schema :=
  (if Reference.isExternal key then r.fetched.lookup (Reference.canonical key)
    else r.at? (Reference.canonical key)).bind Referable.ofObject?

/-- What a lookup finds is known after it. -/
theorem known?_of_lookup? {r r' : Resolver} {key : String} {s : Schema}
    (h : (lookup? Schema key).run r = (some s, r')) : r'.known? key = some s := by
  unfold known?
  rw [lookup?_run] at h
  split at h
  · rename_i hexternal
    rw [if_pos hexternal]
    cases hcached : r.fetched.lookup (Reference.canonical key) with
    | some o =>
      rw [hcached] at h
      obtain ⟨hs, rfl⟩ := Prod.mk.inj h
      rw [hcached]
      exact hs
    | none =>
      rw [hcached] at h
      cases hfetch : r.external.bind (·.fetch key (Referable.kind Schema)) with
      | none =>
        rw [hfetch] at h
        cases h
      | some o =>
        rw [hfetch] at h
        obtain ⟨hs, rfl⟩ := Prod.mk.inj h
        rw [List.lookup_cons_self]
        exact hs
  · rename_i hlocal
    rw [if_neg hlocal]
    exact (Prod.mk.inj h).2 ▸ (Prod.mk.inj h).1

/-- What is known stays known, whatever is looked up after it. -/
theorem known?_mono {r r' : Resolver} {key key' : String} {s : Schema} {found : Option Schema}
    (hrun : (lookup? Schema key').run r = (found, r')) (h : r.known? key = some s) :
    r'.known? key = some s := by
  have hlater : Later r r' := by
    have hafter := (Lasting.lookup? (α := Schema) key' r).1
    rwa [hrun] at hafter
  unfold known? at h ⊢
  rw [hlater.at?_eq]
  split
  · rename_i hexternal
    rw [if_pos hexternal] at h
    obtain ⟨o, ho, hs⟩ := Option.bind_eq_some_iff.mp h
    exact Option.bind_eq_some_iff.mpr ⟨o, hlater.fetched _ o ho, hs⟩
  · rename_i hlocal
    rwa [if_neg hlocal] at h

theorem isExternal_eq_of_canonical {ref ref' : String}
    (h : Reference.canonical ref = Reference.canonical ref') :
    Reference.isExternal ref = Reference.isExternal ref' := by
  unfold Reference.isExternal
  rw [(Reference.same_of_canonical h).1]

/-- Only the uniform spelling counts for what is known. -/
theorem known?_congr {r : Resolver} {key key' : String}
    (h : Reference.canonical key = Reference.canonical key') : r.known? key = r.known? key' := by
  unfold known?
  rw [isExternal_eq_of_canonical h, h]

/-- How far a chain has come: the places visited differ, and each leads to one of them or to the
next. -/
structure Trail (w : Source) (places : List String) (r : Resolver) (visited : List String)
    (key : String) : Prop where
  distinct : (visited.map Reference.canonical).Nodup
  inside : visited.map Reference.canonical ⊆ w.spots places
  onward : ∀ k ∈ visited, ∃ s, r.known? k = some s ∧ Reference.canonical s.ref ∈ key :: visited

theorem Trail.nil (r : Resolver) (key : String) : Trail w places r [] key where
  distinct := List.nodup_nil
  inside := List.nil_subset _
  onward := nofun

theorem Trail.length_le {r : Resolver} {visited : List String} {key : String}
    (h : Trail w places r visited key) : visited.length ≤ (w.spots places).length := by
  have hle := (List.subperm_of_subset h.distinct h.inside).length_le
  simpa only [List.length_map] using hle

/-- From a new place the chain goes on. -/
theorem Trail.step {r r' : Resolver} {visited : List String} {key : String} {s : Schema}
    (h : Trail w places r visited key) (hrun : (lookup? Schema key).run r = (some s, r'))
    (hspot : Reference.canonical key ∈ w.spots places)
    (hnew : Reference.canonical key ∉ visited.map Reference.canonical) :
    Trail w places r' (key :: visited) (Reference.canonical s.ref) where
  distinct := List.nodup_cons.mpr ⟨hnew, h.distinct⟩
  inside := List.cons_subset.mpr ⟨hspot, h.inside⟩
  onward := by
    intro k hk
    rcases List.mem_cons.mp hk with rfl | hold
    · exact ⟨s, known?_of_lookup? hrun, List.mem_cons_self⟩
    · obtain ⟨t, ht, hnext⟩ := h.onward k hold
      exact ⟨t, known?_mono hrun ht, List.mem_cons_of_mem _ hnext⟩

/-- From a place that was visited under another spelling the chain goes back. -/
theorem Trail.returns {r r' : Resolver} {visited : List String} {key : String} {s : Schema}
    (h : Trail w places r visited key) (hrun : (lookup? Schema key).run r = (some s, r'))
    (hold : Reference.canonical key ∈ visited.map Reference.canonical) :
    Reference.canonical s.ref ∈ key :: visited := by
  obtain ⟨k, hk, hsame⟩ := List.mem_map.mp hold
  obtain ⟨t, ht, hnext⟩ := h.onward k hk
  have hkey := known?_mono hrun ht
  rw [known?_congr hsame, known?_of_lookup? hrun] at hkey
  rw [Option.some.inj hkey]
  exact hnext

theorem followTarget_visited {steps : Nat} {visited : List String} {key : String}
    (h : key ∈ visited) : followTarget steps visited key = Pure.pure key := by
  cases steps with
  | zero => rfl
  | succ steps => rw [followTarget, if_pos (List.contains_iff_mem.mpr h)]

theorem followTarget_steady (hfits : w.Fits v) (steps : Nat) (visited : List String) {key : String}
    (hasks : w.Asks key) : Steady w v (followTarget steps visited key) := by
  induction steps generalizing visited key with
  | zero => exact .pure key
  | succ steps ih =>
    rw [followTarget]
    split
    · exact .pure key
    · refine Steady.bind (lookup?_steady hfits hasks) (lookup?_kept hasks) fun found hfound => ?_
      cases found with
      | none => exact .pure key
      | some s =>
        dsimp only
        split
        · exact ih _ (.canonical (.held (hfound s rfl).finds.reaches))
        · exact .pure key

/-- More steps than there are places do not lead further. -/
theorem followTarget_add (hcovers : w.Covers places) (extra steps : Nat) {visited : List String}
    {key : String} (hasks : w.Asks key) {r : Resolver} (hr : w.Knows r)
    (htrail : Trail w places r visited key)
    (hsteps : (w.spots places).length < steps + visited.length) :
    (followTarget (steps + extra) visited key).run r = (followTarget steps visited key).run r := by
  induction steps generalizing visited key r with
  | zero =>
    have hle := htrail.length_le
    omega
  | succ steps ih =>
    rw [Nat.add_right_comm, followTarget, followTarget]
    split
    · rfl
    · refine bind_congr fun found r' hrun => ?_
      obtain ⟨hknows, hfound⟩ := lookup?_kept (α := Schema) hasks r hr
      have hspot (s : Schema) := mem_spots_of_lookup? hcovers hr hasks (x := s)
      rw [hrun] at hknows hfound hspot
      cases found with
      | none => rfl
      | some s =>
        dsimp only
        split
        · by_cases hold : Reference.canonical key ∈ visited.map Reference.canonical
          · have hback := htrail.returns hrun hold
            rw [followTarget_visited hback, followTarget_visited hback]
          · refine ih (.canonical (.held (hfound s rfl).finds.reaches)) hknows
              (htrail.step hrun (hspot s rfl) hold) ?_
            rw [List.length_cons]
            omega
        · rfl

theorem target_run (ref : String) (r : Resolver) :
    (target ref).run r = (followTarget r.chainBound [] (Reference.canonical ref)).run r := by
  unfold target
  exact run_get_bind _ r

theorem target_steady (hfits : w.Fits v) {ref : String} (hasks : w.Asks ref) :
    Steady w v (target ref) := by
  intro r hr
  have hkey : w.Asks (Reference.canonical ref) := .canonical hasks
  rw [target_run, target_run]
  rcases chainBound_via hfits hr with hsame | ⟨⟨places, hcovers⟩, extra, hextra⟩
  · rw [hsame, followTarget_steady hfits _ _ hkey r hr]
  · have hsteps : (w.spots places).length < r.chainBound + ([] : List String).length :=
      Nat.lt_of_lt_of_le (Nat.lt_add_of_pos_right Nat.two_pos) (length_spots hcovers hr)
    rw [hextra, followTarget_steady hfits _ _ hkey r hr,
      followTarget_add hcovers extra _ hkey hr (Trail.nil r _) hsteps]

end Resolver

/-! The scan for discriminators. -/

namespace Discriminators

open Resolver (Steady)

section

variable {w : Source} {v : Option ExternalResolver} (hfits : w.Fits v)

include hfits

theorem mappedNames_steady (target : String) (entries : List (String × String))
    (hasks : ∀ name ref, (name, ref) ∈ entries → w.Asks (mappingRef ref)) :
    Steady w v (mappedNames target entries) := by
  induction entries with
  | nil => exact .pure []
  | cons entry rest ih =>
    obtain ⟨name, ref⟩ := entry
    have hfirst := hasks name ref List.mem_cons_self
    have hrest : ∀ name ref, (name, ref) ∈ rest → w.Asks (mappingRef ref) :=
      fun name ref h => hasks name ref (List.mem_cons_of_mem _ h)
    rw [mappedNames]
    refine Steady.bind (Resolver.target_steady hfits hfirst) (Resolver.target_kept hfirst)
      fun place _ => ?_
    exact (ih hrest).bind (mappedNames_kept target rest hrest) fun names _ => .pure _

theorem tag_steady {root target : String} {d : Discriminator} (hd : Declared w d) :
    Steady w v (tag root d target) := by
  obtain ⟨s, hs, hsd⟩ := hd
  have hasks : ∀ name ref, (name, ref) ∈ entriesOf d.mapping → w.Asks (mappingRef ref) :=
    fun name ref h => .mapped hs hsd h
  refine Steady.bind (mappedNames_steady hfits target _ hasks)
    (mappedNames_kept target _ hasks) fun names _ => ?_
  split
  · exact .pure _
  · exact .pure _

theorem addAlternative_steady {root : String} {d : Discriminator} (hd : Declared w d)
    (found : Discriminators) {member : Option Schema} (hmember : Member w member) :
    Steady w v (addAlternative root d found member) := by
  cases member with
  | none => exact .pure found
  | some s =>
    simp only [addAlternative]
    split
    · have hasks : w.Asks s.ref := .held (hmember s rfl)
      refine Steady.bind (Resolver.target_steady hfits hasks) (Resolver.target_kept hasks)
        fun target _ => ?_
      split
      · exact .pure found
      · exact (tag_steady hfits hd).bind (tag_kept hd) fun v _ => .pure _
    · exact .pure found

theorem addRoot_steady (found : Discriminators) (entry : String × Schema) (hfound : Sound w found)
    (hentry : w.Reaches (.schema entry.2)) : Steady w v (addRoot found entry) := by
  obtain ⟨place, s⟩ := entry
  simp only [addRoot]
  split
  · exact .pure found
  · cases hd : declared? s with
    | none => exact .pure found
    | some d =>
      have hdeclared : Declared w d := declared_of_declared? hentry hd
      refine Steady.foldlM (addAlternative_kept hdeclared)
        (fun acc member _ hmember => addAlternative_steady hfits hdeclared acc hmember)
        _ ?_ _ ⟨?_, hfound.values⟩
      · rintro member hmember t rfl
        rcases List.mem_append.mp hmember with h | h
        · exact hentry.held (.oneOf h)
        · exact hentry.held (.anyOf h)
      · intro place' d' hmem
        rcases List.mem_cons.mp hmem with heq | hold
        · cases heq
          exact hdeclared
        · exact hfound.roots place' d' hold

theorem extendedRoot?_steady (found : Discriminators) (members : List (Option Schema))
    (hmembers : ∀ member ∈ members, Member w member) :
    Steady w v (extendedRoot? found members) := by
  induction members with
  | nil => exact .pure none
  | cons member rest ih =>
    have hrest := ih fun m hm => hmembers m (List.mem_cons_of_mem _ hm)
    cases member with
    | none => exact hrest
    | some member =>
      have hasks : w.Asks member.ref := .held (hmembers _ List.mem_cons_self member rfl)
      rw [extendedRoot?]
      split
      · refine Steady.bind (Resolver.target_steady hfits hasks) (Resolver.target_kept hasks)
          fun target _ => ?_
        cases found.roots.lookup target with
        | some d => exact .pure _
        | none =>
          cases found.variants.lookup target with
          | none => exact hrest
          | some v =>
            dsimp only
            cases found.roots.lookup v.root with
            | none => exact hrest
            | some d => exact .pure _
      · cases declared? member with
        | none => exact hrest
        | some d => exact .pure _

theorem addExtension_steady (found : Discriminators) (entry : String × Schema)
    (hfound : Sound w found) (hentry : w.Reaches (.schema entry.2)) :
    Steady w v (addExtension found entry) := by
  obtain ⟨place, s⟩ := entry
  have hmembers : ∀ member ∈ s.allOf.getD [], Member w member := by
    rintro member hmember t rfl
    exact hentry.held (.allOf hmember)
  simp only [addExtension]
  split
  · exact .pure found
  · refine Steady.bind (extendedRoot?_steady hfits found _ hmembers)
      (extendedRoot?_kept hfound _ hmembers) fun result hresult => ?_
    cases result with
    | none => exact .pure found
    | some pair =>
      have hd := hresult pair.1 pair.2 rfl
      exact (tag_steady hfits hd).bind (tag_kept hd) fun v _ => .pure _

theorem extend_steady (schemas : List (String × Schema))
    (hschemas : ∀ entry ∈ schemas, w.Reaches (.schema entry.2)) (rounds : Nat)
    (found : Discriminators) (hfound : Sound w found) :
    Steady w v (extend schemas rounds found) := by
  induction rounds generalizing found with
  | zero => exact .pure found
  | succ rounds ih =>
    rw [extend]
    refine Steady.bind (Steady.foldlM addExtension_kept (addExtension_steady hfits) schemas
      hschemas found hfound) (Kept.foldlM addExtension_kept schemas hschemas found hfound)
      fun more hmore => ?_
    split
    · exact .pure more
    · exact ih more hmore

/-- The scan finds the same. -/
theorem scan_steady : Steady w v scan := by
  intro r hr
  have hschemas := reaches_of_mem_schemas hr
  have hsteady := Steady.bind (v := v)
    (Steady.foldlM addRoot_kept (addRoot_steady hfits) r.schemas hschemas {} ⟨nofun, nofun⟩)
    (Kept.foldlM addRoot_kept r.schemas hschemas {} ⟨nofun, nofun⟩)
    (extend_steady hfits r.schemas hschemas (r.schemas.length + 1))
  exact hsteady r hr

end

variable {w : Source}

/-- A round tags schemas that had no tag, and nothing else. -/
theorem addExtension_grows (found : Discriminators) {entry : String × Schema}
    (hentry : entry ∈ w.schemas) :
    Under (fun _ => True) (addExtension found entry)
      fun more => w.Grows found.variants more.variants := by
  obtain ⟨place, s⟩ := entry
  simp only [addExtension]
  split
  · exact Under.pure (.refl _)
  · rename_i hnew
    have hplace : found.variants.lookup place = none := by
      cases hlookup : found.variants.lookup place with
      | none => rfl
      | some v => simp [hlookup] at hnew
    have hrun {β : Type} (act : Resolver.Resolving β) :
        Under (fun _ => True) act fun _ => True := fun _ _ => ⟨trivial, trivial⟩
    refine (hrun _).bind fun result _ => ?_
    cases result with
    | none => exact Under.pure (.refl _)
    | some pair =>
      exact (hrun _).bind fun v _ => Under.pure (.tag hentry hplace v)

theorem round_grows (found : Discriminators) : Under (fun _ => True)
    (w.schemas.foldlM addExtension found) fun more => w.Grows found.variants more.variants :=
  Under.foldlM (fun _ more => w.Grows found.variants more.variants) w.schemas
    (fun _ _ more hentry hmore =>
      (addExtension_grows more hentry).weaken fun _ hgrows => hmore.trans hgrows) found (.refl _)

/-- With more rounds than there are schemas without a tag, further rounds find nothing. -/
theorem extend_add (extra rounds : Nat) (found : Discriminators)
    (hrounds : w.untagged found.variants < rounds) (r : Resolver) :
    (extend w.schemas (rounds + extra) found).run r = (extend w.schemas rounds found).run r := by
  induction rounds generalizing found r with
  | zero => exact absurd hrounds (Nat.not_lt_zero _)
  | succ rounds ih =>
    rw [Nat.add_right_comm, extend, extend]
    refine Resolver.bind_congr fun more r' hrun => ?_
    split
    · rfl
    · rename_i hlonger
      have hgrows := (round_grows (w := w) found r trivial).2
      rw [hrun] at hgrows
      have hle : found.variants.length ≤ more.variants.length := hgrows.suffix.length_le
      have hfewer : more.variants.length + w.untagged more.variants ≤
        found.variants.length + w.untagged found.variants := hgrows.fewer
      exact ih more (by omega) r'

/-- The scan goes through enough rounds: its last one finds nothing. -/
theorem extend_schemas_add (extra : Nat) (found : Discriminators) (r : Resolver) :
    (extend w.schemas (w.schemas.length + 1 + extra) found).run r =
      (extend w.schemas (w.schemas.length + 1) found).run r :=
  extend_add extra _ found (Nat.lt_succ_of_le (Source.untagged_le _)) r

end Discriminators

end ApiTypes
