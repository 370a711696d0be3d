import ApiTypes.Proofs.Reach

/-!
Looking up references. Whatever is looked up, the resolver keeps to the document it was made for:
its index stays, and what it has fetched are objects that can be met. What it finds lies in the
index or in another document. The scan for discriminators asks for references only and keeps to the
document as well; every tag it finds has a value.
-/

namespace ApiTypes

theorem lookup_mem {β γ : Type} [BEq β] [LawfulBEq β] {key : β} {value : γ}
    {entries : List (β × γ)} (h : entries.lookup key = some value) : (key, value) ∈ entries := by
  obtain ⟨before, after, heq, -⟩ := List.lookup_eq_some_iff.mp h
  rw [heq]
  exact List.mem_append_right _ List.mem_cons_self

/-- An object as one of its kind, and back. -/
class LawfulReferable (α : Type) [Referable α] where
  toObject : α → Object
  eq_toObject : ∀ {o : Object} {x : α}, Referable.ofObject? o = some x → o = toObject x
  ref_toObject : ∀ x : α, (toObject x).ref = Referable.refOf x

instance : LawfulReferable Schema where
  toObject := .schema
  eq_toObject {o x} h := by
    cases o with
    | schema => cases h; rfl
    | _ => cases h
  ref_toObject _ := rfl

instance : LawfulReferable Parameter where
  toObject := .parameter
  eq_toObject {o x} h := by
    cases o with
    | parameter => cases h; rfl
    | _ => cases h
  ref_toObject _ := rfl

instance : LawfulReferable RequestBody where
  toObject := .requestBody
  eq_toObject {o x} h := by
    cases o with
    | requestBody => cases h; rfl
    | _ => cases h
  ref_toObject _ := rfl

instance : LawfulReferable Response where
  toObject := .response
  eq_toObject {o x} h := by
    cases o with
    | response => cases h; rfl
    | _ => cases h
  ref_toObject _ := rfl

instance : LawfulReferable Header where
  toObject := .header
  eq_toObject {o x} h := by
    cases o with
    | header => cases h; rfl
    | _ => cases h
  ref_toObject _ := rfl

instance : LawfulReferable PathItem where
  toObject := .pathItem
  eq_toObject {o x} h := by
    cases o with
    | pathItem => cases h; rfl
    | _ => cases h
  ref_toObject _ := rfl

open LawfulReferable (toObject)

namespace Source

/-- The resolver is one of this document and has fetched only what can be met. -/
structure Knows (w : Source) (r : Resolver) : Prop where
  index : r.index = Index.ofDocument w.doc
  external : r.external = w.external
  fetched : ∀ key o, (key, o) ∈ r.fetched → w.Serves key o

/-- The object lies in the index of the document or in another document. -/
def Finds (w : Source) (o : Object) : Prop :=
  (∃ key, (key, o) ∈ Index.ofDocument w.doc) ∨ ∃ key, w.Serves key o

theorem Finds.reaches {w : Source} {o : Object} (h : w.Finds o) : w.Reaches o := by
  rcases h with ⟨key, hmem⟩ | ⟨key, hserves⟩
  · exact reaches_of_mem_index hmem
  · exact hserves.reaches

/-- The reference names the object at its pointer in the document, or the resolver gives the object
for a reference spelled the same in the uniform way. -/
def Names (w : Source) (ref : String) (o : Object) : Prop :=
  if Reference.isExternal ref then w.Serves (Reference.canonical ref) o
  else (Reference.canonical ref, o) ∈ Index.ofDocument w.doc

theorem Names.finds {w : Source} {ref : String} {o : Object} (h : w.Names ref o) : w.Finds o := by
  unfold Names at h
  split at h
  · exact .inr ⟨_, h⟩
  · exact .inl ⟨_, h⟩

theorem Names.serves {w : Source} {ref : String} {o : Object} (h : w.Names ref o)
    (hexternal : Reference.isExternal ref = true) : w.Serves (Reference.canonical ref) o := by
  rwa [Names, if_pos hexternal] at h

/-- The reference names the object, or one of its kind that is a reference and leads there. -/
inductive LeadsTo {α : Type} [Referable α] [LawfulReferable α] (w : Source) (ref : String) :
    α → Prop where
  | first {x : α} : w.Names ref (toObject x) → w.LeadsTo ref x
  | next {x y : α} : w.LeadsTo ref x → Referable.refOf x ≠ "" →
    w.Names (Referable.refOf x) (toObject y) → w.LeadsTo ref y

section

variable {α : Type} [Referable α] [LawfulReferable α] {w : Source} {ref : String} {x : α}

theorem LeadsTo.finds (h : w.LeadsTo ref x) : w.Finds (toObject x) := by
  cases h with
  | first hnames => exact hnames.finds
  | next _ _ hnames => exact hnames.finds

/-- Where a reference into another document leads anywhere, the resolver serves it. -/
theorem LeadsTo.exists_served (h : w.LeadsTo ref x) (hexternal : Reference.isExternal ref = true) :
    ∃ o, w.Serves (Reference.canonical ref) o := by
  induction h with
  | first hnames => exact ⟨_, hnames.serves hexternal⟩
  | next _ _ _ ih => exact ih

end

theorem knows_ofDocument (w : Source) : w.Knows (Resolver.ofDocument w.doc w.external) where
  index := rfl
  external := rfl
  fetched _ _ h := by cases h

/-- What is served may be remembered. -/
theorem Knows.fetch {w : Source} {r : Resolver} {key : String} {o : Object} (hr : w.Knows r)
    (hserves : w.Serves key o) : w.Knows { r with fetched := (key, o) :: r.fetched } where
  index := hr.index
  external := hr.external
  fetched key' o' hmem := by
    rcases List.mem_cons.mp hmem with heq | hold
    · obtain ⟨rfl, rfl⟩ := Prod.mk.inj heq
      exact hserves
    · exact hr.fetched key' o' hold

end Source

namespace Resolver

variable {α β : Type} {w : Source}

/-- Asking keeps what holds of the resolver, and the answer satisfies `post`. -/
def Under (inv : Resolver → Prop) (act : Resolving α) (post : α → Prop) : Prop :=
  ∀ r, inv r → inv (act.run r).2 ∧ post (act.run r).1

namespace Under

variable {inv : Resolver → Prop}

theorem pure {post : α → Prop} {x : α} (h : post x) : Under inv (Pure.pure x) post :=
  fun _ hr => ⟨hr, h⟩

theorem bind {act : Resolving α} {next : α → Resolving β} {mid : α → Prop} {post : β → Prop}
    (hact : Under inv act mid) (hnext : ∀ x, mid x → Under inv (next x) post) :
    Under inv (act >>= next) post := by
  intro r hr
  obtain ⟨hkept, hmid⟩ := hact r hr
  exact hnext _ hmid _ hkept

theorem weaken {act : Resolving α} {mid post : α → Prop} (hact : Under inv act mid)
    (h : ∀ x, mid x → post x) : Under inv act post :=
  fun r hr => ⟨(hact r hr).1, h _ (hact r hr).2⟩

theorem get : Under inv get inv := fun _ hr => ⟨hr, hr⟩

/-- A fold over a list, with what holds after each part of it. -/
theorem foldlM {step : β → α → Resolving β} (holds : List α → β → Prop) (list : List α)
    (hstep : ∀ done x acc, x ∈ list → holds done acc →
      Under inv (step acc x) (holds (done ++ [x]))) (acc : β) (hacc : holds [] acc) :
    Under inv (list.foldlM step acc) (holds list) := by
  suffices hall : ∀ rest done acc, rest ⊆ list → holds done acc →
      Under inv (rest.foldlM step acc) (holds (done ++ rest)) from
    hall list [] acc (List.Subset.refl list) hacc
  intro rest
  induction rest with
  | nil =>
    intro done acc _ hacc
    rw [List.foldlM_nil, List.append_nil]
    exact pure hacc
  | cons x rest ih =>
    intro done acc hrest hacc
    rw [List.foldlM_cons]
    apply bind (hstep done x acc (hrest List.mem_cons_self) hacc)
    intro acc' hacc'
    rw [List.append_cons]
    exact ih (done ++ [x]) acc' (fun y hy => hrest (List.mem_cons_of_mem x hy)) hacc'

end Under

/-- How a lookup runs: a reference into another document is fetched unless its place was before. -/
theorem lookup?_run [Referable α] (ref : String) (r : Resolver) :
    (lookup? α ref).run r =
      if Reference.isExternal ref then
        match r.fetched.lookup (Reference.canonical ref) with
        | some o => (Referable.ofObject? o, r)
        | none =>
          match r.external.bind (·.fetch ref (Referable.kind α)) with
          | none => (none, r)
          | some o => (Referable.ofObject? o,
              { r with fetched := (Reference.canonical ref, o) :: r.fetched })
      else ((r.at? (Reference.canonical ref)).bind Referable.ofObject?, r) := by
  unfold lookup?
  cases hexternal : Reference.isExternal ref with
  | false =>
    simp only [Bool.not_false, if_true, Bool.false_eq_true, if_false]
    rfl
  | true =>
    simp only [Bool.not_true, Bool.false_eq_true, if_false, if_true, StateT.run_bind,
      StateT.run_get, pure_bind]
    cases r.fetched.lookup (Reference.canonical ref) with
    | some o => rfl
    | none => cases r.external.bind (·.fetch ref (Referable.kind α)) <;> rfl

/-- Asking leaves the index as it is, whatever it is. -/
def IndexKept (act : Resolving α) : Prop :=
  ∀ index : Index, Under (fun r => r.index = index) act fun _ => True

namespace IndexKept

theorem pure (x : α) : IndexKept (Pure.pure x) := fun _ => Under.pure trivial

theorem bind {act : Resolving α} {next : α → Resolving β} (hact : IndexKept act)
    (hnext : ∀ x, IndexKept (next x)) : IndexKept (act >>= next) :=
  fun index => Under.bind (hact index) fun x _ => hnext x index

theorem get_bind {next : Resolver → Resolving β} (h : ∀ r, IndexKept (next r)) :
    IndexKept (MonadState.get >>= next) :=
  fun index => Under.bind Under.get fun r _ => h r index

theorem lookup? [Referable α] (ref : String) : IndexKept (Resolver.lookup? α ref) := by
  refine fun index => Under.bind Under.get fun r hr => ?_
  have hset (fetched : List (String × Object)) :
      Under (fun r => r.index = index) (set { r with fetched }) fun _ => True :=
    fun _ _ => ⟨hr, trivial⟩
  dsimp only
  split
  · exact Under.pure trivial
  · split
    · exact Under.pure trivial
    · split
      · exact Under.pure trivial
      · exact (hset _).bind fun _ _ => Under.pure trivial

theorem follow [Referable α] (steps : Nat) (visited : List String) (last : Option (String × α))
    (ref : String) : IndexKept (Resolver.follow α steps visited last ref) := by
  induction steps generalizing visited last ref with
  | zero => exact .pure last
  | succ steps ih =>
    rw [Resolver.follow]
    split
    · exact .pure last
    · dsimp only
      split
      · exact .pure last
      · refine (lookup? ref).bind fun found => ?_
        cases found with
        | none => exact .pure none
        | some node => exact ih _ _ _

theorem locate? [Referable α] (ref : String) : IndexKept (Resolver.locate? α ref) :=
  .get_bind fun r => follow r.chainBound [] none ref

theorem find? [Referable α] (ref : String) : IndexKept (Resolver.find? α ref) :=
  (locate? ref).bind fun _ => .pure _

theorem followTarget (steps : Nat) (visited : List String) (key : String) :
    IndexKept (Resolver.followTarget steps visited key) := by
  induction steps generalizing visited key with
  | zero => exact .pure key
  | succ steps ih =>
    rw [Resolver.followTarget]
    split
    · exact .pure key
    · refine (lookup? key).bind fun found => ?_
      cases found with
      | none => exact .pure key
      | some s =>
        dsimp only
        split
        · exact ih _ _
        · exact .pure key

theorem target (ref : String) : IndexKept (Resolver.target ref) :=
  .get_bind fun r => followTarget r.chainBound [] _

end IndexKept

/-- Asking keeps the resolver to the document, and the answer satisfies `post`. -/
def Kept (w : Source) (act : Resolving α) (post : α → Prop) : Prop :=
  ∀ r, w.Knows r → w.Knows (act.run r).2 ∧ post (act.run r).1

theorem Kept.pure {post : α → Prop} {x : α} (h : post x) : Kept w (Pure.pure x) post :=
  Under.pure h

theorem Kept.bind {act : Resolving α} {next : α → Resolving β} {mid : α → Prop}
    {post : β → Prop} (hact : Kept w act mid) (hnext : ∀ x, mid x → Kept w (next x) post) :
    Kept w (act >>= next) post := Under.bind hact hnext

theorem Kept.weaken {act : Resolving α} {mid post : α → Prop} (hact : Kept w act mid)
    (h : ∀ x, mid x → post x) : Kept w act post := Under.weaken hact h

theorem Kept.get : Kept w get w.Knows := Under.get

/-- A fold whose steps all keep an invariant of the accumulated value. -/
theorem Kept.foldlM {step : β → α → Resolving β} {good : α → Prop} {inv : β → Prop}
    (hstep : ∀ acc x, inv acc → good x → Kept w (step acc x) inv) (list : List α)
    (hlist : ∀ x ∈ list, good x) (acc : β) (hacc : inv acc) :
    Kept w (list.foldlM step acc) inv :=
  Under.foldlM (fun _ => inv) list (fun _ x acc hx h => hstep acc x h (hlist x hx)) acc hacc

variable [Referable α] [LawfulReferable α]

theorem mem_index_of_at? {r : Resolver} {key : String} {o : Object} (h : r.at? key = some o) :
    (key, o) ∈ r.index := by
  unfold at? at h
  exact List.mem_reverse.mp (lookup_mem h)

/-- What is found under a reference is what it names. -/
theorem lookup?_kept {ref : String} (hasks : w.Asks ref) :
    Kept w (lookup? α ref) fun found => ∀ x, found = some x → w.Names ref (toObject x) := by
  intro r hr
  rw [lookup?_run]
  cases hexternal : Reference.isExternal ref with
  | false =>
    refine ⟨hr, fun x hx => ?_⟩
    obtain ⟨o, ho, hox⟩ := Option.bind_eq_some_iff.mp hx
    have hmem := mem_index_of_at? ho
    rw [hr.index, LawfulReferable.eq_toObject hox] at hmem
    rwa [Source.Names, hexternal]
  | true =>
    have hnames {o : Object} (hserves : w.Serves (Reference.canonical ref) o) (x : α)
        (hx : Referable.ofObject? o = some x) : w.Names ref (toObject x) := by
      rw [Source.Names, hexternal, ← LawfulReferable.eq_toObject hx]
      exact hserves
    rw [if_pos rfl]
    cases hcached : r.fetched.lookup (Reference.canonical ref) with
    | some o => exact ⟨hr, hnames (hr.fetched _ o (lookup_mem hcached))⟩
    | none =>
      cases hfetch : r.external.bind (·.fetch ref (Referable.kind α)) with
      | none => exact ⟨hr, nofun⟩
      | some o =>
        obtain ⟨e, he, hfetched⟩ := Option.bind_eq_some_iff.mp hfetch
        have hserves : w.Serves (Reference.canonical ref) o :=
          ⟨e, ref, Referable.kind α, hr.external.symm.trans he, hasks, hexternal, rfl, hfetched⟩
        exact ⟨hr.fetch hserves, hnames hserves⟩

theorem asks_refOf {x : α} (h : w.Finds (toObject x)) : w.Asks (Referable.refOf x) := by
  rw [← LawfulReferable.ref_toObject]
  exact .held h.reaches

/-- A chain of references ends with an object to which its start leads. -/
theorem follow_kept {start : String} (steps : Nat) (visited : List String)
    (last : Option (String × α)) (ref : String) (hasks : w.Asks ref)
    (hlast : ∀ key x, last = some (key, x) → w.LeadsTo start x)
    (hnext : ref ≠ "" → ∀ x : α, w.Names ref (toObject x) → w.LeadsTo start x) :
    Kept w (follow α steps visited last ref) fun found =>
      ∀ key x, found = some (key, x) → w.LeadsTo start x := by
  induction steps generalizing visited last ref with
  | zero => exact Kept.pure hlast
  | succ steps ih =>
    rw [follow]
    split
    · exact Kept.pure hlast
    · rename_i hne
      dsimp only
      split
      · exact Kept.pure hlast
      · apply Kept.bind (lookup?_kept hasks)
        intro found hfound
        cases found with
        | none => exact Kept.pure nofun
        | some node =>
          have hnode := hnext hne node (hfound node rfl)
          refine ih _ _ _ (asks_refOf hnode.finds) (fun key x heq => ?_)
            fun hne x hnames => .next hnode hne hnames
          rw [← (Prod.mk.inj (Option.some.inj heq)).2]
          exact hnode

theorem locate?_kept {ref : String} (hasks : w.Asks ref) :
    Kept w (locate? α ref) fun found =>
      ∀ key x, found = some (key, x) → w.LeadsTo ref x := by
  apply Kept.bind Kept.get
  intro r _
  exact follow_kept r.chainBound [] none ref hasks nofun fun _ _ hnames => .first hnames

/-- A reference leads to what is found behind it. -/
theorem find?_kept {ref : String} (hasks : w.Asks ref) :
    Kept w (find? α ref) fun found => ∀ x, found = some x → w.LeadsTo ref x := by
  apply Kept.bind (locate?_kept hasks)
  intro found hfound
  apply Kept.pure
  intro x hx
  obtain ⟨⟨key, y⟩, hy, rfl⟩ := Option.map_eq_some_iff.mp hx
  exact hfound key y hy

theorem followTarget_kept (steps : Nat) (visited : List String) (key : String)
    (hasks : w.Asks key) : Kept w (followTarget steps visited key) fun _ => True := by
  induction steps generalizing visited key with
  | zero => exact Kept.pure trivial
  | succ steps ih =>
    rw [followTarget]
    split
    · exact Kept.pure trivial
    · apply Kept.bind (lookup?_kept hasks)
      intro found hfound
      cases found with
      | none => exact Kept.pure trivial
      | some s =>
        dsimp only
        split
        · exact ih _ _ (.canonical (.held (hfound s rfl).finds.reaches))
        · exact Kept.pure trivial

theorem target_kept {ref : String} (hasks : w.Asks ref) :
    Kept w (target ref) fun _ => True := by
  apply Kept.bind Kept.get
  intro r _
  exact followTarget_kept _ _ _ (.canonical hasks)

end Resolver

namespace Discriminators

open Resolver (Kept)

variable {w : Source}

/-- The discriminator is one of a schema that can be met. -/
def Declared (w : Source) (d : Discriminator) : Prop :=
  ∃ s, w.Reaches (.schema s) ∧ s.discriminator = some d

/-- Every root has a discriminator of the document and every variant a tag. -/
structure Sound (w : Source) (found : Discriminators) : Prop where
  roots : ∀ place d, (place, d) ∈ found.roots → Declared w d
  values : ∀ place v, (place, v) ∈ found.variants → v.values ≠ []

theorem mappedNames_kept (target : String) (entries : List (String × String))
    (hasks : ∀ name ref, (name, ref) ∈ entries → w.Asks (mappingRef ref)) :
    Kept w (mappedNames target entries) fun _ => True := by
  induction entries with
  | nil => exact Kept.pure trivial
  | cons entry rest ih =>
    obtain ⟨name, ref⟩ := entry
    rw [mappedNames]
    apply Kept.bind (Resolver.target_kept (hasks name ref List.mem_cons_self))
    intro place _
    apply Kept.bind (ih fun name ref h => hasks name ref (List.mem_cons_of_mem _ h))
    intro names _
    exact Kept.pure trivial

theorem tag_kept {root target : String} {d : Discriminator} (hd : Declared w d) :
    Kept w (tag root d target) fun v => v.values ≠ [] := by
  obtain ⟨s, hs, hsd⟩ := hd
  apply Kept.bind (mappedNames_kept target _ fun name ref h => .mapped hs hsd h)
  intro names _
  split
  · exact Kept.pure (by simp)
  · rename_i hnames
    exact Kept.pure (by simpa using hnames)

theorem Sound.addVariant {found : Discriminators} (h : Sound w found) (place : String)
    {v : Variant} (hv : v.values ≠ []) :
    Sound w { found with variants := (place, v) :: found.variants } where
  roots := h.roots
  values := by
    intro place' v' hmem
    rcases List.mem_cons.mp hmem with heq | hold
    · cases heq
      exact hv
    · exact h.values place' v' hold

theorem declared_of_declared? {s : Schema} {d : Discriminator} (hs : w.Reaches (.schema s))
    (h : declared? s = some d) : Declared w d :=
  ⟨s, hs, (Option.filter_eq_some_iff.mp h).1⟩

/-- A schema in a list that can be null can be met if it is there. -/
def Member (w : Source) (member : Option Schema) : Prop :=
  ∀ s, member = some s → w.Reaches (.schema s)

theorem addAlternative_kept {root : String} {d : Discriminator} (hd : Declared w d)
    (found : Discriminators) (member : Option Schema) (hfound : Sound w found)
    (hmember : Member w member) : Kept w (addAlternative root d found member) (Sound w) := by
  cases member with
  | none => exact Kept.pure hfound
  | some s =>
    simp only [addAlternative]
    split
    · apply Kept.bind (Resolver.target_kept (.held (hmember s rfl)))
      intro target _
      split
      · exact Kept.pure hfound
      · apply Kept.bind (tag_kept hd)
        intro v hv
        exact Kept.pure (hfound.addVariant target hv)
    · exact Kept.pure hfound

theorem addRoot_kept (found : Discriminators) (entry : String × Schema) (hfound : Sound w found)
    (hentry : w.Reaches (.schema entry.2)) : Kept w (addRoot found entry) (Sound w) := by
  obtain ⟨place, s⟩ := entry
  simp only [addRoot]
  split
  · exact Kept.pure hfound
  · cases hd : declared? s with
    | none => exact Kept.pure hfound
    | some d =>
      have hdeclared : Declared w d := declared_of_declared? hentry hd
      refine Kept.foldlM (addAlternative_kept hdeclared) _ ?_ _ ⟨?_, hfound.values⟩
      · rintro member hmember t rfl
        rcases List.mem_append.mp hmember with h | h
        · exact hentry.held (.oneOf h)
        · exact hentry.held (.anyOf h)
      · intro place' d' hmem
        rcases List.mem_cons.mp hmem with heq | hold
        · cases heq
          exact hdeclared
        · exact hfound.roots place' d' hold

theorem declared_of_lookup {found : Discriminators} (hfound : Sound w found) {place : String}
    {d : Discriminator} (h : found.roots.lookup place = some d) : Declared w d :=
  hfound.roots place d (lookup_mem h)

theorem extendedRoot?_kept {found : Discriminators} (hfound : Sound w found)
    (members : List (Option Schema)) (hmembers : ∀ member ∈ members, Member w member) :
    Kept w (extendedRoot? found members) fun result =>
      ∀ root d, result = some (root, d) → Declared w d := by
  induction members with
  | nil => exact Kept.pure nofun
  | cons member rest ih =>
    have hrest := ih fun m hm => hmembers m (List.mem_cons_of_mem _ hm)
    cases member with
    | none => exact hrest
    | some member =>
      have hmember : w.Reaches (.schema member) := hmembers _ List.mem_cons_self member rfl
      rw [extendedRoot?]
      split
      · apply Kept.bind (Resolver.target_kept (.held hmember))
        intro target _
        cases hroot : found.roots.lookup target with
        | some d =>
          apply Kept.pure
          rintro root d' ⟨⟩
          exact declared_of_lookup hfound hroot
        | none =>
          cases found.variants.lookup target with
          | none => exact hrest
          | some v =>
            cases hshared : found.roots.lookup v.root with
            | none =>
              simp only [hshared]
              exact hrest
            | some d =>
              simp only [hshared]
              apply Kept.pure
              rintro root d' ⟨⟩
              exact declared_of_lookup hfound hshared
      · cases hd : declared? member with
        | none => exact hrest
        | some d =>
          apply Kept.pure
          rintro root d' ⟨⟩
          exact declared_of_declared? hmember hd

theorem addExtension_kept (found : Discriminators) (entry : String × Schema)
    (hfound : Sound w found) (hentry : w.Reaches (.schema entry.2)) :
    Kept w (addExtension found entry) (Sound w) := by
  obtain ⟨place, s⟩ := entry
  simp only [addExtension]
  split
  · exact Kept.pure hfound
  · apply Kept.bind (extendedRoot?_kept hfound _ ?_)
    · intro result hresult
      cases result with
      | none => exact Kept.pure hfound
      | some pair =>
        obtain ⟨root, d⟩ := pair
        apply Kept.bind (tag_kept (hresult root d rfl))
        intro v hv
        exact Kept.pure (hfound.addVariant place hv)
    · rintro member hmember t rfl
      exact hentry.held (.allOf hmember)

theorem extend_kept (schemas : List (String × Schema))
    (hschemas : ∀ entry ∈ schemas, w.Reaches (.schema entry.2)) (rounds : Nat)
    (found : Discriminators) (hfound : Sound w found) :
    Kept w (extend schemas rounds found) (Sound w) := by
  induction rounds generalizing found with
  | zero => exact Kept.pure hfound
  | succ rounds ih =>
    rw [extend]
    apply Kept.bind (Kept.foldlM addExtension_kept schemas hschemas found hfound)
    intro more hmore
    split
    · exact Kept.pure hmore
    · exact ih more hmore

theorem reaches_of_mem_schemas {r : Resolver} (hr : w.Knows r) :
    ∀ entry ∈ r.schemas, w.Reaches (.schema entry.2) := by
  rintro ⟨place, s⟩ hmem
  obtain ⟨⟨key, o⟩, hin, heq⟩ := List.mem_filterMap.mp hmem
  rw [hr.index] at hin
  cases o <;> cases heq
  exact Source.reaches_of_mem_index hin

/-- The scan keeps to the document, and every variant it finds has a tag. -/
theorem scan_kept (w : Source) : Kept w scan (Sound w) := by
  apply Kept.bind Resolver.Kept.get
  intro r hr
  have hschemas := reaches_of_mem_schemas hr
  apply Kept.bind (Kept.foldlM addRoot_kept r.schemas hschemas {} ⟨nofun, nofun⟩)
  intro roots hroots
  exact extend_kept _ hschemas _ roots hroots

end Discriminators

end ApiTypes
