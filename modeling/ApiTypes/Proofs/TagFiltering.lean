import ApiTypes.Proofs.DeclaredOperations
import ApiTypes.Proofs.FilteredDocuments
import ApiTypes.Proofs.Typing.Emissions

/-!
What is made of a document whose operations are chosen by their tags. The choice is made at the path
items of the paths and of the webhooks. Their own operations are written if they are kept, and are
absent otherwise. It is not made at path items among the components, in other documents or with a
reference: where one of those is written out, it is with all its operations.

The member for a path or a webhook is followed from the entry of its name to what is written for
each method, and an operation that is declared to the method for which it is. Both come from runs,
so `Valid` is carried along: it says that what a reference is found to lead to is what it leads to.
-/

namespace ApiTypes

/-- A path item in the index of a document is one that the document names. -/
theorem Index.pathItem_of_mem {doc : Document} {key : String} {item : PathItem}
    (h : (key, .pathItem item) ∈ Index.ofDocument doc) :
    ∃ name, (name, some item) ∈ entriesOf doc.paths ∨ (name, some item) ∈ entriesOf doc.webhooks ∨
      (name, some item) ∈ entriesOf (doc.components.bind (·.pathItems)) := by
  let P (o : Object) : Prop := ∀ item, o = .pathItem item → .pathItem item ∈ doc.objects
  have hclosed : Index.Closed P := by
    rintro o - inner hinner item rfl
    cases o <;>
      simp [Object.parts, objectsOf, parameterObjects] at hinner
  have hmem := (Index.ofDocument_mem hclosed (fun o ho item heq => heq ▸ ho) h).2 item rfl
  have hroot {items : Option PathItems} (h : .pathItem item ∈ objectsOf .pathItem items) :
      ∃ name, (name, some item) ∈ entriesOf items := by
    obtain ⟨⟨name, x⟩, hentry, heq⟩ := List.mem_filterMap.mp h
    obtain ⟨_, rfl, heq⟩ := Option.map_eq_some_iff.mp heq
    cases heq
    exact ⟨name, hentry⟩
  simp only [Document.objects, List.mem_append] at hmem
  rcases hmem with ((hcomponent | hpath) | hwebhook) | hschema
  · cases hcomponents : doc.components with
    | none =>
      rw [hcomponents] at hcomponent
      cases hcomponent
    | some c =>
      rw [hcomponents] at hcomponent
      have hitem : .pathItem item ∈ objectsOf .pathItem c.pathItems := by
        simpa [Components.objects, objectsOf] using hcomponent
      obtain ⟨name, hname⟩ := hroot hitem
      exact ⟨name, .inr (.inr hname)⟩
  · obtain ⟨name, hname⟩ := hroot hpath
    exact ⟨name, .inl hname⟩
  · obtain ⟨name, hname⟩ := hroot hwebhook
    exact ⟨name, .inr (.inl hname)⟩
  · simp [objectsOf] at hschema

namespace TagFilter

variable {f : TagFilter} {doc : Document} {items : Option PathItems} {name : String}
  {item : PathItem}

/-- What is left of a path item. One with a reference stays as it is. -/
def left (f : TagFilter) (item : PathItem) : PathItem :=
  if item.ref = "" then f.trim item else item

/-- What is left of a map of path items. -/
def remaining (f : TagFilter) (items : Option PathItems) : Option PathItems :=
  if f.including.isEmpty && f.excluding.isEmpty then items else items.map f.applyToItems

/-- Something is left of the path item. -/
def Stays (f : TagFilter) (item : PathItem) : Prop := item.ref ≠ "" ∨ f.KeepsSome item

theorem apply_eq (f : TagFilter) (doc : Document) :
    f.apply doc =
      { doc with paths := f.remaining doc.paths, webhooks := f.remaining doc.webhooks } := by
  unfold apply remaining
  split <;> rfl

theorem apply_paths (f : TagFilter) (doc : Document) :
    (f.apply doc).paths = f.remaining doc.paths := by
  rw [apply_eq]

theorem apply_webhooks (f : TagFilter) (doc : Document) :
    (f.apply doc).webhooks = f.remaining doc.webhooks := by
  rw [apply_eq]

theorem apply_components (f : TagFilter) (doc : Document) :
    (f.apply doc).components = doc.components := by
  rw [apply_eq]

theorem keepsOperation_of_isEmpty (h : (f.including.isEmpty && f.excluding.isEmpty) = true)
    (o : Operation) : f.keepsOperation o = true := by
  rw [Bool.and_eq_true, List.isEmpty_iff, List.isEmpty_iff] at h
  simp [keepsOperation, keeps, h.1, h.2]

theorem left_eq_self (h : ∀ o, f.keepsOperation o = true) (item : PathItem) :
    f.left item = item := by
  have hall (o : Option Operation) : o.filter f.keepsOperation = o := by
    cases o with
    | none => rfl
    | some o => exact Option.filter_some_pos (h o)
  have htrim : f.trim item = item := by
    simp only [trim, hall]
  rw [left, htrim, ite_self]

theorem ref_left (f : TagFilter) (item : PathItem) : (f.left item).ref = item.ref := by
  unfold left
  split <;> rfl

theorem parameters_left (f : TagFilter) (item : PathItem) :
    (f.left item).parameters = item.parameters := by
  unfold left
  split <;> rfl

theorem doc_left (f : TagFilter) (item : PathItem) : (f.left item).doc = item.doc := by
  unfold left
  split <;> rfl

/-- Of a path item without a reference the operations are left that are kept. -/
theorem operation?_left (href : item.ref = "") (method : Method) :
    (f.left item).operation? method = (item.operation? method).filter f.keepsOperation := by
  rw [left, if_pos href, trim]

theorem eq_left_of_applyToItem {item' : PathItem}
    (h : f.applyToItem (some item) = some (some item')) : item' = f.left item := by
  rw [applyToItem_some] at h
  split at h
  · rename_i href
    cases h
    exact (if_neg href).symm
  · rename_i href
    split at h
    · cases h
    · cases h
      exact (if_pos (not_not.mp href)).symm

theorem applyToItem_of_stays (h : f.Stays item) :
    f.applyToItem (some item) = some (some (f.left item)) := by
  rw [applyToItem_some, left]
  by_cases href : item.ref = ""
  · have hkeeps := keepsSome_iff.mp (h.resolve_left (· href))
    rw [if_neg (not_not_intro href), if_pos href, if_neg (by rw [hkeeps]; decide)]
  · rw [if_pos href, if_neg href]

/-- What is left below a root is left of something there. -/
theorem mem_remaining {item' : PathItem}
    (h : (name, some item') ∈ entriesOf (f.remaining items)) :
    ∃ item, (name, some item) ∈ entriesOf items ∧ item' = f.left item := by
  unfold remaining at h
  split at h
  · rename_i hempty
    exact ⟨item', h, (left_eq_self (keepsOperation_of_isEmpty hempty) item').symm⟩
  · cases items with
    | none => cases h
    | some items =>
      change (name, some item') ∈ (f.applyToItems items).toList at h
      rw [applyToItems, OrderedMap.toList_filterMap] at h
      obtain ⟨⟨name, item⟩, hentry, heq⟩ := List.mem_filterMap.mp h
      obtain ⟨applied, happlied, heq⟩ := Option.map_eq_some_iff.mp heq
      cases heq
      cases item with
      | none => cases happlied
      | some item => exact ⟨item, hentry, eq_left_of_applyToItem happlied⟩

theorem left_mem_remaining (h : (name, some item) ∈ entriesOf items) (hstays : f.Stays item) :
    (name, some (f.left item)) ∈ entriesOf (f.remaining items) := by
  unfold remaining
  split
  · rename_i hempty
    rwa [left_eq_self (keepsOperation_of_isEmpty hempty)]
  · cases items with
    | none => cases h
    | some items =>
      change (name, some (f.left item)) ∈ (f.applyToItems items).toList
      rw [applyToItems, OrderedMap.toList_filterMap]
      refine List.mem_filterMap.mpr ⟨(name, some item), h, ?_⟩
      rw [Option.map_eq_some_iff]
      exact ⟨some (f.left item), applyToItem_of_stays hstays, rfl⟩

end TagFilter

/-- The path item is left whole when operations of the document are chosen: it is among the
components, comes from another document, or has a reference. -/
inductive LeftWhole (w : Source) (doc : Document) (item : PathItem) : Prop where
  | component {name : String} :
    (name, some item) ∈ entriesOf (doc.components.bind (·.pathItems)) → LeftWhole w doc item
  | foreign {key : String} : w.Serves key (.pathItem item) → LeftWhole w doc item
  | reference {name : String} :
    (name, some item) ∈ entriesOf doc.paths ∨ (name, some item) ∈ entriesOf doc.webhooks →
    item.ref ≠ "" → LeftWhole w doc item

/-- What a reference leads to has only operations that are kept, unless it is left whole. -/
theorem kept_or_leftWhole {f : TagFilter} {doc : Document} {external : Option ExternalResolver}
    {ref : String} {target : PathItem}
    (h : Source.LeadsTo ⟨f.apply doc, external⟩ ref target) {method : Method} {o : Operation}
    (ho : target.operation? method = some o) :
    f.keepsOperation o = true ∨ LeftWhole ⟨f.apply doc, external⟩ doc target := by
  have hroot {items : Option PathItems} {name : String}
      (hentry : (name, some target) ∈ entriesOf (f.remaining items))
      (hwhole : (name, some target) ∈ entriesOf items → target.ref ≠ "" →
        LeftWhole ⟨f.apply doc, external⟩ doc target) :
      f.keepsOperation o = true ∨ LeftWhole ⟨f.apply doc, external⟩ doc target := by
    obtain ⟨item, hitem, rfl⟩ := TagFilter.mem_remaining hentry
    by_cases href : item.ref = ""
    · rw [TagFilter.operation?_left href] at ho
      exact .inl (Option.filter_eq_some_iff.mp ho).2
    · have hsame : f.left item = item := if_neg href
      rw [hsame] at hwhole ⊢
      exact .inr (hwhole hitem href)
  rcases h.finds with ⟨key, hindex⟩ | ⟨key, hserves⟩
  · obtain ⟨name, hplace⟩ := Index.pathItem_of_mem hindex
    rw [TagFilter.apply_eq] at hplace
    rcases hplace with hpath | hwebhook | hcomponent
    · exact hroot hpath fun hitem => .reference (.inl hitem)
    · exact hroot hwebhook fun hitem => .reference (.inr hitem)
    · exact .inr (.component hcomponent)
  · exact .inr (.foreign hserves)

namespace Typing

variable {α : Type} {w : Source} {σ : Setting} {p q : Progress} {allowed own : Operation → Prop}
  {behind : PathItem → Operation → Prop} {item source : PathItem} {place : String}

/-! What is written for the methods of a path item. -/

/-- The operation is written for a method of the path item and has the given type. -/
structure Emits (σ : Setting) (source : PathItem) (place : String) (method : Method)
    (o : Operation) (t : TypeExpr) : Prop where
  shown : shownOperation? σ.options source method = some o
  typed : ∃ p q, Runs σ (operationType source o place method) p t q

/-- What stands for an operation of some type: its name in the operations, if it has an id. -/
def standIn (o : Operation) (t : TypeExpr) : TypeExpr :=
  if o.operationId = "" then t else (TypeExpr.named "operations").index [o.operationId]

/-- The member for a method of a path item: that of its operation, if it has one that is allowed. -/
inductive ShownMethod (σ : Setting) (allowed : Operation → Prop) (source : PathItem)
    (place : String) (method : Method) : Member → Prop where
  | absent : (∀ o, shownOperation? σ.options source method = some o → ¬ allowed o) →
    ShownMethod σ allowed source place method
      (.property method.name true σ.options.immutable .never [])
  | written {o : Operation} {t : TypeExpr} : Emits σ source place method o t → allowed o →
    ShownMethod σ allowed source place method
      (.property method.name false σ.options.immutable (standIn o t) o.doc)

/-- The type of a path item: its shared parameters and what is allowed of its operations. -/
inductive ItemType (σ : Setting) (allowed : Operation → Prop) (source : PathItem)
    (place : String) : TypeExpr → Prop where
  | methods {shared : Member} {methods : List Member} :
    (∃ p q, Runs σ (parametersMember (source.parameters.getD [])
      (Reference.join place ["parameters"])) p shared q) →
    List.Forall₂ (ShownMethod σ allowed source place) Method.all methods →
    ItemType σ allowed source place (.object (shared :: methods))

/-- The path item whose operations are written for another, with its place and with which of its
operations may be: of the path item itself those in `own`. -/
inductive WrittenOutFor (w : Source) (own : Operation → Prop) (behind : PathItem → Operation → Prop)
    (item : PathItem) (place : String) : PathItem → String → (Operation → Prop) → Prop where
  | own : item.ref = "" → WrittenOutFor w own behind item place item place own
  | behind {target : PathItem} : Reference.isExternal item.ref = true →
    w.LeadsTo item.ref target →
    WrittenOutFor w own behind item place target (Reference.canonical item.ref) (behind target)

/-- The type that stands for a path item. -/
inductive ShownItem (σ : Setting) (w : Source) (own : Operation → Prop)
    (behind : PathItem → Operation → Prop) (item : PathItem) (place : String) :
    TypeExpr → Prop where
  | written {source : PathItem} {sourcePlace : String} {allowed : Operation → Prop}
    {t : TypeExpr} : WrittenOutFor w own behind item place source sourcePlace allowed →
    ItemType σ allowed source sourcePlace t → ShownItem σ w own behind item place t
  | accessed : item.ref ≠ "" → Reference.isExternal item.ref = false →
    ShownItem σ w own behind item place (Reference.toType item.ref)
  | unknown : item.ref ≠ "" → ShownItem σ w own behind item place .unknown

theorem Gives.run (act : Typing α) : Gives σ act fun x => ∃ p q, Runs σ act p x q :=
  ⟨fun p _ q h => ⟨p, q, h⟩⟩

theorem declaredType_gives (o : Operation) (place : String) (method : Method) (t : TypeExpr) :
    Gives σ (declaredType o place method t) (· = standIn o t) := by
  unfold declaredType standIn
  split
  · exact .pure rfl
  · exact (Gives.any _).bind fun _ _ => .pure rfl

theorem methodMember_gives
    (hallowed : ∀ method o, source.operation? method = some o → allowed o) (place : String)
    (method : Method) :
    Gives σ (methodMember source place method) (ShownMethod σ allowed source place method) := by
  rw [methodMember_eq]
  refine .options_bind ?_
  split
  · rename_i hnone
    exact .pure (.absent fun o ho => absurd (hnone.symm.trans ho) nofun)
  · rename_i o hshown
    refine (Gives.run _).bind fun t htyped => ?_
    refine (declaredType_gives o place method t).bind fun _ heq => ?_
    rw [heq]
    exact .pure (.written ⟨hshown, htyped⟩
      (hallowed method o (Option.filter_eq_some_iff.mp hshown).1))

theorem pathItemType_gives
    (hallowed : ∀ method o, source.operation? method = some o → allowed o) (place : String) :
    Gives σ (pathItemType source place) (ItemType σ allowed source place) := by
  refine (Gives.run _).bind fun shared hshared => ?_
  refine (Gives.mapM fun method _ => methodMember_gives hallowed place method).bind
    fun methods hmethods => ?_
  exact .pure (.methods hshared hmethods)

/-- The member for a path whose path item has the given type. -/
inductive PathMember (options : Options) (path : String) (item : PathItem) (t : TypeExpr) :
    Member → Prop where
  | named : ¬ (options.pathParamsAsTypes = true ∧ (PathTemplate.ofPath path).params ≠ []) →
    PathMember options path item t (.property path false false t item.doc)
  | template {types : List (String × TypeExpr)} :
    options.pathParamsAsTypes = true → (PathTemplate.ofPath path).params ≠ [] →
    PathMember options path item t
      (.indexSignature "path" ((PathTemplate.ofPath path).toType types) t false [])

/-- The member for an entry of the paths. -/
def PathShown (σ : Setting) (w : Source) (own : Operation → Prop)
    (behind : PathItem → Operation → Prop) (path : String) (item : PathItem) (m : Member) : Prop :=
  ∃ t, PathMember σ.options path item t m ∧
    ShownItem σ w own behind item (Reference.join "#" ["paths", path]) t

/-- The member for an entry of the webhooks. -/
def WebhookShown (σ : Setting) (w : Source) (own : Operation → Prop)
    (behind : PathItem → Operation → Prop) (name : String) (item : PathItem) (m : Member) : Prop :=
  ∃ t, m = .property name false false t item.doc ∧
    ShownItem σ w own behind item (Reference.join "#" ["webhooks", name]) t

/-- Each member is that of an entry, and the entries that stay have one. -/
structure MembersShown (entries : List (String × Option PathItem)) (stays : PathItem → Prop)
    (shown : String → PathItem → Member → Prop) (members : List Member) : Prop where
  entry : ∀ m ∈ members, ∃ name item, (name, some item) ∈ entries ∧ shown name item m
  member : ∀ name item, (name, some item) ∈ entries → stays item →
    ∃ m ∈ members, shown name item m

/-- The entry declares an operation that is written for the path item. -/
def DeclaredFor (σ : Setting) (w : Source) (own : Operation → Prop)
    (behind : PathItem → Operation → Prop) (item : PathItem) (place : String)
    (e : OperationEntry) : Prop :=
  ∃ source sourcePlace allowed method o t,
    WrittenOutFor w own behind item place source sourcePlace allowed ∧
      Emits σ source sourcePlace method o t ∧ allowed o ∧
      e = operationEntry o sourcePlace method t

/-- The entry declares an operation that is written for a path item below a root. -/
def DeclaredBelow (σ : Setting) (w : Source) (own : Operation → Prop)
    (behind : PathItem → Operation → Prop) (root : List String) (items : Option PathItems)
    (e : OperationEntry) : Prop :=
  ∃ name item, (name, some item) ∈ entriesOf items ∧
    DeclaredFor σ w own behind item (Reference.join "#" (root ++ [name])) e

theorem ItemLog.emits {log : List OperationEntry} (h : ItemLog σ source place p log q)
    {e : OperationEntry} (he : e ∈ log) :
    ∃ method o t, Emits σ source place method o t ∧ e = operationEntry o place method t := by
  obtain ⟨-, hmethods⟩ := h
  obtain ⟨method, -, _, _, _, hmethod, he⟩ := hmethods.exists_step he
  cases hmethod with
  | absent => cases he
  | unnamed => cases he
  | named hshown _ htyped =>
    exact ⟨method, _, _, ⟨hshown, _, _, htyped⟩, List.mem_singleton.mp he⟩

section Made

variable (hown : ∀ o, own o)
  (hbehind : ∀ ref (target : PathItem), w.LeadsTo ref target →
    ∀ method o, target.operation? method = some o → behind target o)

include hown hbehind

/-! What runs from valid states make of path items. -/

theorem pathItemRefType_shown {t : TypeExpr} (hp : Valid w p)
    (hitem : w.Reaches (.pathItem item)) (h : Runs σ (pathItemRefType item place) p t q) :
    ShownItem σ w own behind item place t := by
  have hasks : w.Asks item.ref := Source.Asks.held hitem
  unfold pathItemRefType at h
  split at h
  · rename_i href
    exact .written (.own href) ((pathItemType_gives (fun _ o _ => hown o) place).result _ _ _ h)
  · rename_i href
    rcases refType_cases h with ⟨hexternal, -, target, r, hfind, hinline⟩ | ⟨-, -, htype⟩
    · obtain ⟨_, hwritten, -⟩ := Runs.inliningRef_iff.mp hinline
      have htarget := (hfind.of_valid (find?_ensures hasks) hp).2.2 target rfl
      exact .written (.behind hexternal htarget)
        ((pathItemType_gives (hbehind item.ref target htarget) _).result _ _ _ hwritten)
    · rcases htype with rfl | ⟨hlocal, -, rfl⟩
      · exact .unknown href
      · exact .accessed href hlocal

theorem pathMember_shown {path : String} {members : List Member} (hp : Valid w p)
    (hitem : w.Reaches (.pathItem item))
    (h : Runs σ (pathMembers [(path, some item)]) p members q) :
    ∃ m, members = [m] ∧ PathShown σ w own behind path item m := by
  rw [pathMembers] at h
  obtain ⟨t, r, htype, h⟩ := Runs.bind_iff.mp h
  have hshown := pathItemRefType_shown hown hbehind hp hitem htype
  replace h := h.options_bind
  dsimp only at h
  split at h
  · rename_i htemplate
    rw [Bool.and_eq_true, Bool.not_eq_true', List.isEmpty_eq_false_iff] at htemplate
    obtain ⟨resolved, _, -, h⟩ := Runs.bind_iff.mp h
    obtain ⟨types, _, -, h⟩ := Runs.bind_iff.mp h
    rw [pathMembers, pure_bind] at h
    obtain ⟨rfl, -⟩ := Runs.pure_iff.mp h
    exact ⟨_, rfl, t, .template htemplate.1 htemplate.2, hshown⟩
  · rename_i hplain
    rw [Bool.and_eq_true, Bool.not_eq_true', List.isEmpty_eq_false_iff] at hplain
    rw [pathMembers, pure_bind] at h
    obtain ⟨rfl, -⟩ := Runs.pure_iff.mp h
    exact ⟨_, rfl, t, .named hplain, hshown⟩

theorem webhookMember_shown {name : String} {members : List Member} (hp : Valid w p)
    (hitem : w.Reaches (.pathItem item))
    (h : Runs σ (webhookMembers [(name, some item)]) p members q) :
    ∃ m, members = [m] ∧ WebhookShown σ w own behind name item m := by
  rw [webhookMembers] at h
  obtain ⟨t, r, htype, h⟩ := Runs.bind_iff.mp h
  rw [webhookMembers, pure_bind] at h
  obtain ⟨rfl, -⟩ := Runs.pure_iff.mp h
  exact ⟨_, rfl, t, rfl, pathItemRefType_shown hown hbehind hp hitem htype⟩

theorem ShownLog.declaredFor {log : List OperationEntry} (hp : Valid w p)
    (hitem : w.Reaches (.pathItem item)) (h : ShownLog σ item place p log q) {e : OperationEntry}
    (he : e ∈ log) : DeclaredFor σ w own behind item place e := by
  cases h with
  | own href hlog =>
    obtain ⟨method, o, t, hemits, heq⟩ := hlog.emits he
    exact ⟨_, _, _, method, o, t, .own href, hemits, hown o, heq⟩
  | writtenOut hexternal _ hfind hlog =>
    have htarget := (hfind.of_valid (find?_ensures (.held hitem)) hp).2.2 _ rfl
    obtain ⟨method, o, t, hemits, heq⟩ := hlog.emits he
    have hallowed := hbehind _ _ htarget method o (Option.filter_eq_some_iff.mp hemits.shown).1
    exact ⟨_, _, _, method, o, t, .behind hexternal htarget, hemits, hallowed, heq⟩
  | accessed => cases he

/-- A chain over the entries below a root declares operations that are written for them. -/
theorem chain_declaredBelow {root : List String}
    {made : String → PathItem → Progress → Progress → Prop} {items : Option PathItems}
    (hitems : Held w .pathItem items)
    (hmade : ∀ name item p q, w.Reaches (.pathItem item) → Valid w p → made name item p q →
      Valid w q)
    {log : List OperationEntry} (hp : Valid w p)
    (h : Chain (EntryLog σ root made) (written σ.options items) p log q) :
    Valid w q ∧ ∀ e ∈ log, DeclaredBelow σ w own behind root items e := by
  refine h.forall_mem_of_valid hp fun entry hentry p log q hp hstep => ?_
  cases hstep with
  | null => exact ⟨hp, List.forall_mem_nil _⟩
  | item hshown hrun =>
    have hmem := mem_written hentry
    have hitem := hitems _ _ hmem
    refine ⟨hmade _ _ _ _ hitem hp hrun, fun e he => ⟨_, _, hmem, ?_⟩⟩
    exact hshown.declaredFor hown hbehind hp hitem he

end Made

/-- Each entry that is not null has its member, made in a run from a valid state. -/
theorem members_forall₂ {run : List (String × Option PathItem) → Typing (List Member)}
    {shown : String → PathItem → Member → Prop}
    (hcons : ∀ entry rest, run (entry :: rest) = do
      let members ← run [entry]
      return members ++ (← run rest))
    (hnil : run [] = pure []) (hnull : ∀ name, run [(name, none)] = pure [])
    (hitem : ∀ name item p q members, w.Reaches (.pathItem item) → Valid w p →
      Runs σ (run [(name, some item)]) p members q →
      Valid w q ∧ ∃ m, members = [m] ∧ shown name item m)
    (listed : List (String × Option PathItem))
    (hlisted : ∀ name x, (name, some x) ∈ listed → w.Reaches (.pathItem x))
    {members : List Member} (hp : Valid w p) (h : Runs σ (run listed) p members q) :
    List.Forall₂ (fun entry => shown entry.1 entry.2)
      (listed.filterMap fun entry => entry.2.map (entry.1, ·)) members := by
  induction listed generalizing p q members with
  | nil =>
    rw [hnil] at h
    obtain ⟨rfl, -⟩ := Runs.pure_iff.mp h
    exact .nil
  | cons entry rest ih =>
    rw [hcons] at h
    obtain ⟨first, r, hfirst, h⟩ := Runs.bind_iff.mp h
    obtain ⟨others, r', hothers, h⟩ := Runs.bind_iff.mp h
    obtain ⟨rfl, -⟩ := Runs.pure_iff.mp h
    have hrest (name : String) (x : PathItem) (hx : (name, some x) ∈ rest) :=
      hlisted name x (List.mem_cons_of_mem _ hx)
    obtain ⟨name, item⟩ := entry
    cases item with
    | none =>
      rw [hnull] at hfirst
      obtain ⟨rfl, rfl⟩ := Runs.pure_iff.mp hfirst
      exact ih hrest hp hothers
    | some item =>
      obtain ⟨hr, m, rfl, hshown⟩ :=
        hitem name item p r first (hlisted name item List.mem_cons_self) hp hfirst
      exact .cons hshown (ih hrest hr hothers)

theorem MembersShown.of_forall₂ {options : Options} {items : Option PathItems}
    {shown : String → PathItem → Member → Prop} {members : List Member}
    (h : List.Forall₂ (fun entry => shown entry.1 entry.2)
      ((written options items).filterMap fun entry => entry.2.map (entry.1, ·)) members) :
    MembersShown (entriesOf items) (fun _ => True) shown members := by
  constructor
  case entry =>
    intro m hm
    obtain ⟨⟨name, item⟩, hmem, hshown⟩ := exists_rel_of_mem h.flip hm
    obtain ⟨⟨_, x⟩, hentry, heq⟩ := List.mem_filterMap.mp hmem
    obtain ⟨_, rfl, heq⟩ := Option.map_eq_some_iff.mp heq
    cases heq
    exact ⟨_, _, mem_written hentry, hshown⟩
  case member =>
    intro name item hentry _
    have hmem := (written_perm options items).symm.subset hentry
    exact exists_rel_of_mem h (List.mem_filterMap.mpr ⟨(name, some item), hmem, rfl⟩)

section Roots

variable (hσ : HookFree σ) (hown : ∀ o, own o)
  (hbehind : ∀ ref (target : PathItem), w.LeadsTo ref target →
    ∀ method o, target.operation? method = some o → behind target o)

include hσ hown hbehind

theorem pathsType_shown {items : Option PathItems} {t : TypeExpr} (hp : Valid w p)
    (hitems : Held w .pathItem items) (h : Runs σ (pathsType items) p t q) :
    MembersShown (entriesOf items) (fun _ => True) (PathShown σ w own behind)
      (t.members?.getD []) := by
  obtain ⟨members, r, hmembers, hpure⟩ := Runs.bind_iff.mp h.entries_bind
  obtain ⟨rfl, -⟩ := Runs.pure_iff.mp hpure
  rw [members?_objectOrEmpty]
  refine .of_forall₂ (members_forall₂ pathMembers_cons rfl (fun _ => rfl) ?_ _
    (fun name x hx => hitems name x (mem_written hx)) hp hmembers)
  intro path item p q members hitem hp hrun
  exact ⟨PathMade.valid hσ hp hitem ⟨members, hrun⟩, pathMember_shown hown hbehind hp hitem hrun⟩

theorem webhooksType_shown {items : Option PathItems} {t : TypeExpr} (hp : Valid w p)
    (hitems : Held w .pathItem items) (h : Runs σ (webhooksType items) p t q) :
    MembersShown (entriesOf items) (fun _ => True) (WebhookShown σ w own behind)
      (t.members?.getD []) := by
  obtain ⟨members, r, hmembers, hpure⟩ := Runs.bind_iff.mp h.entries_bind
  obtain ⟨rfl, -⟩ := Runs.pure_iff.mp hpure
  rw [members?_objectOrEmpty]
  refine .of_forall₂ (members_forall₂ webhookMembers_cons rfl (fun _ => rfl) ?_ _
    (fun name x hx => hitems name x (mem_written hx)) hp hmembers)
  intro name item p q members hitem hp hrun
  exact ⟨WebhookMade.valid hσ hp hitem ⟨members, hrun⟩,
    webhookMember_shown hown hbehind hp hitem hrun⟩

/-- What the paths and the webhooks of a document show. -/
theorem documentRoots_shown {roots : Roots} (hp : Valid w p)
    (h : Runs σ (documentRoots w.doc) p roots q) :
    MembersShown (entriesOf w.doc.paths) (fun _ => True) (PathShown σ w own behind)
        (roots.paths.members?.getD []) ∧
      MembersShown (entriesOf w.doc.webhooks) (fun _ => True) (WebhookShown σ w own behind)
        (roots.webhooks.members?.getD []) := by
  have hpaths : Held w .pathItem w.doc.paths :=
    .of_objects fun o ho => .root (by simp [Document.objects, ho])
  have hwebhooks : Held w .pathItem w.doc.webhooks :=
    .of_objects fun o ho => .root (by simp [Document.objects, ho])
  obtain ⟨paths, p₁, hpathsRun, h⟩ := Runs.bind_iff.mp h
  obtain ⟨webhooks, p₂, hwebhooksRun, h⟩ := Runs.bind_iff.mp h
  obtain ⟨⟨components, aliases⟩, p₃, -, h⟩ := Runs.bind_iff.mp h
  obtain ⟨definitions, p₄, -, h⟩ := Runs.bind_iff.mp h
  obtain ⟨rfl, -⟩ := Runs.pure_iff.mp h
  have hp₁ := (hpathsRun.of_valid (pathsType_ensures hσ hpaths) hp).1
  exact ⟨pathsType_shown hσ hown hbehind hp hpaths hpathsRun,
    webhooksType_shown hσ hown hbehind hp₁ hwebhooks hwebhooksRun⟩

/-- What is declared for a document is written for a path item below one of its roots. -/
theorem DocumentLog.declaredBelow {log : List OperationEntry} (hp : Valid w p)
    (h : DocumentLog σ w.doc p log) {e : OperationEntry} (he : e ∈ log) :
    DeclaredBelow σ w own behind ["paths"] w.doc.paths e ∨
      DeclaredBelow σ w own behind ["webhooks"] w.doc.webhooks e ∨
      DeclaredBelow σ w own behind ["components", "pathItems"]
        (w.doc.components.bind (·.pathItems)) e := by
  have hobjects (o : Object) (h : o ∈ w.doc.objects) : w.Reaches o := .root h
  simp only [Document.objects, List.mem_append] at hobjects
  obtain ⟨hpaths, hwebhooks, hcomponents⟩ := h
  obtain ⟨hp₁, hpathsBelow⟩ := chain_declaredBelow hown hbehind
    (.of_objects fun o ho => hobjects o (by simp [ho]))
    (fun _ _ _ _ hitem hp hmade => hmade.valid hσ hp hitem) hp hpaths
  obtain ⟨hp₂, hwebhooksBelow⟩ := chain_declaredBelow hown hbehind
    (.of_objects fun o ho => hobjects o (by simp [ho]))
    (fun _ _ _ _ hitem hp hmade => hmade.valid hσ hp hitem) hp₁ hwebhooks
  rcases List.mem_append.mp he with hearlier | hcomponent
  · exact (List.mem_append.mp hearlier).imp (hpathsBelow e) fun hmem =>
      .inl (hwebhooksBelow e hmem)
  · refine .inr (.inr ?_)
    generalize w.doc.components = components at hcomponents hobjects ⊢
    cases hcomponents with
    | absent => cases hcomponent
    | @present c _ _ _ _ _ hfirst hitems =>
      have hreaches (o : Object) (ho : o ∈ c.objects) : w.Reaches o := hobjects o (by simp [ho])
      have hheld : Held w .pathItem c.pathItems :=
        .of_objects fun o ho => hreaches o (by simp [Components.objects, ho])
      have hq := (earlierCategories_runs hσ hp₂ hreaches hfirst).1
      exact (chain_declaredBelow hown hbehind hheld
        (fun _ _ _ _ hitem hp hmade => hmade.valid hσ hp hitem) hq hitems).2 e hcomponent

end Roots

/-! From what is left of a path item to the path item itself. -/

section Left

variable {f : TagFilter} {method : Method} {o : Operation}

theorem shownOperation?_left_iff {options : Options} (href : item.ref = "") :
    shownOperation? options (f.left item) method = some o ↔
      shownOperation? options item method = some o ∧ f.keepsOperation o = true := by
  simp only [shownOperation?, TagFilter.operation?_left href, Option.filter_eq_some_iff,
    and_right_comm]

theorem Emits.of_left {t : TypeExpr} (href : item.ref = "")
    (h : Emits σ (f.left item) place method o t) :
    Emits σ item place method o t ∧ f.keepsOperation o = true := by
  obtain ⟨hshown, htyped⟩ := h
  obtain ⟨hitem, hkeeps⟩ := (shownOperation?_left_iff href).mp hshown
  rw [TagFilter.left, if_pos href] at htyped
  exact ⟨⟨hitem, htyped⟩, hkeeps⟩

theorem ItemType.of_left {t : TypeExpr} (href : item.ref = "")
    (h : ItemType σ (fun _ => True) (f.left item) place t) :
    ItemType σ (f.keepsOperation · = true) item place t := by
  obtain ⟨hshared, hmethods⟩ := h
  rw [TagFilter.parameters_left] at hshared
  refine .methods hshared (hmethods.imp fun method m hm => ?_)
  cases hm with
  | absent hnone =>
    exact .absent fun o ho hkeeps => hnone o ((shownOperation?_left_iff href).mpr ⟨ho, hkeeps⟩)
      trivial
  | written hemits _ =>
    obtain ⟨hemits, hkeeps⟩ := hemits.of_left href
    exact .written hemits hkeeps

theorem ShownItem.of_left {t : TypeExpr}
    (h : ShownItem σ w (fun _ => True) behind (f.left item) place t) :
    ShownItem σ w (f.keepsOperation · = true) behind item place t := by
  cases h with
  | written hsource htype =>
    cases hsource with
    | own href =>
      rw [TagFilter.ref_left] at href
      exact .written (.own href) (htype.of_left href)
    | behind hexternal htarget =>
      rw [TagFilter.ref_left] at hexternal htarget htype
      exact .written (.behind hexternal htarget) htype
  | accessed href hlocal =>
    rw [TagFilter.ref_left] at href hlocal ⊢
    exact .accessed href hlocal
  | unknown href =>
    rw [TagFilter.ref_left] at href
    exact .unknown href

theorem PathShown.of_left {path : String} {m : Member}
    (h : PathShown σ w (fun _ => True) behind path (f.left item) m) :
    PathShown σ w (f.keepsOperation · = true) behind path item m := by
  obtain ⟨t, hm, ht⟩ := h
  refine ⟨t, ?_, ht.of_left⟩
  cases hm with
  | named hplain =>
    rw [TagFilter.doc_left]
    exact .named hplain
  | template htemplate hparams => exact .template htemplate hparams

theorem WebhookShown.of_left {name : String} {m : Member}
    (h : WebhookShown σ w (fun _ => True) behind name (f.left item) m) :
    WebhookShown σ w (f.keepsOperation · = true) behind name item m := by
  obtain ⟨t, hm, ht⟩ := h
  rw [TagFilter.doc_left] at hm
  exact ⟨t, hm, ht.of_left⟩

theorem MembersShown.of_remaining {items : Option PathItems}
    {shown shown' : String → PathItem → Member → Prop} {members : List Member}
    (h : MembersShown (entriesOf (f.remaining items)) (fun _ => True) shown members)
    (hshown : ∀ name item m, shown name (f.left item) m → shown' name item m) :
    MembersShown (entriesOf items) f.Stays shown' members := by
  constructor
  case entry =>
    intro m hm
    obtain ⟨name, _, hentry, hm⟩ := h.entry m hm
    obtain ⟨item, hitem, rfl⟩ := TagFilter.mem_remaining hentry
    exact ⟨name, item, hitem, hshown name item m hm⟩
  case member =>
    intro name item hitem hstays
    obtain ⟨m, hmem, hm⟩ := h.member _ _ (TagFilter.left_mem_remaining hitem hstays) trivial
    exact ⟨m, hmem, hshown name item m hm⟩

theorem DeclaredBelow.of_remaining {root : List String} {items : Option PathItems}
    {e : OperationEntry}
    (h : DeclaredBelow σ w (fun _ => True) behind root (f.remaining items) e) :
    DeclaredBelow σ w (f.keepsOperation · = true) behind root items e := by
  obtain ⟨name, _, hentry, source, sourcePlace, allowed, method, o, t, hsource, hemits, hallowed,
    heq⟩ := h
  obtain ⟨item, hitem, rfl⟩ := TagFilter.mem_remaining hentry
  refine ⟨name, item, hitem, ?_⟩
  cases hsource with
  | own href =>
    rw [TagFilter.ref_left] at href
    obtain ⟨hemits, hkeeps⟩ := hemits.of_left href
    exact ⟨_, _, _, method, o, t, .own href, hemits, hkeeps, heq⟩
  | behind hexternal htarget =>
    rw [TagFilter.ref_left] at hexternal htarget hemits heq
    exact ⟨_, _, _, method, o, t, .behind hexternal htarget, hemits, hallowed, heq⟩

end Left

/-! The outcome. -/

/-- Behind a reference, operations may be written that are kept or of a path item left whole. -/
def MayShow (f : TagFilter) (w : Source) (doc : Document) (target : PathItem) (o : Operation) :
    Prop := f.keepsOperation o = true ∨ LeftWhole w doc target

/-- What is made of a document whose operations are chosen. Of the paths and the webhooks only
operations that are kept are written and declared, but for those of path items left whole. -/
structure TagsFiltered (f : TagFilter) (doc : Document) (σ : Setting) (w : Source)
    (output : Output) : Prop where
  /-- The member for a path shows the operations that are kept of the path item of its name. -/
  paths : MembersShown (entriesOf doc.paths) f.Stays
    (PathShown σ w (f.keepsOperation · = true) (MayShow f w doc))
    (declaredMembers output.decls "paths")
  /-- The member for a webhook shows the operations that are kept of the path item of its name. -/
  webhooks : MembersShown (entriesOf doc.webhooks) f.Stays
    (WebhookShown σ w (f.keepsOperation · = true) (MayShow f w doc))
    (declaredMembers output.decls "webhooks")
  /-- What is declared under an id is written for a path item. Of one among the components it may be
  any operation. -/
  declared : ∀ e ∈ output.operations,
    DeclaredBelow σ w (f.keepsOperation · = true) (MayShow f w doc) ["paths"] doc.paths e ∨
      DeclaredBelow σ w (f.keepsOperation · = true) (MayShow f w doc) ["webhooks"] doc.webhooks e ∨
      DeclaredBelow σ w (fun _ => True) (MayShow f w doc) ["components", "pathItems"]
        (doc.components.bind (·.pathItems)) e

/-- The operations of what is made under a filter are kept, but for those of path items left
whole. -/
theorem generate_tags_filtered {doc : Document} {f : TagFilter} {options : Options}
    {external : Option ExternalResolver} {output : Output}
    (hrun : generate (f.apply doc) { options, external } = .ok output) :
    TagsFiltered f doc (settingOf (f.apply doc) { options, external }) ⟨f.apply doc, external⟩
      output := by
  obtain ⟨roots, q, hroots, hq, htyped, rfl⟩ := roots_of_generate hrun
  have hσ : HookFree (settingOf (f.apply doc) { options, external }) := ⟨rfl, rfl⟩
  have hp := valid_startOf (f.apply doc) { options, external }
  have hbehind (ref : String) (target : PathItem)
      (htarget : Source.LeadsTo ⟨f.apply doc, external⟩ ref target) (method : Method)
      (o : Operation) (ho : target.operation? method = some o) :
      MayShow f ⟨f.apply doc, external⟩ doc target o := kept_or_leftWhole htarget ho
  obtain ⟨hpaths, hwebhooks⟩ :=
    documentRoots_shown hσ (fun _ => trivial) hbehind hp hroots
  rw [TagFilter.apply_paths] at hpaths
  rw [TagFilter.apply_webhooks] at hwebhooks
  have hdeclared (root : String) (t : TypeExpr) := @declaredMembers_root _ _ _ _ hq htyped root t
  constructor
  case paths =>
    rw [hdeclared "paths" roots.paths (by simp [rootTypes])]
    exact hpaths.of_remaining fun _ _ _ => .of_left
  case webhooks =>
    rw [hdeclared "webhooks" roots.webhooks (by simp [rootTypes])]
    exact hwebhooks.of_remaining fun _ _ _ => .of_left
  case declared =>
    intro e he
    obtain ⟨log, hlog, hoperations, -⟩ := documentRoots_logged hσ hp hroots
    have hlogged : e ∈ log := by
      have hholds := OperationRegistry.holds_registerAll log
      obtain ⟨entry, hentry, rfl⟩ := List.mem_map.mp he
      rw [hoperations] at hentry
      exact (hholds.entries entry.1 entry.2 hentry).2.mem
    have hbelow := hlog.declaredBelow hσ (fun _ => trivial) hbehind hp hlogged
    rw [TagFilter.apply_paths, TagFilter.apply_webhooks, TagFilter.apply_components] at hbelow
    exact hbelow.imp .of_remaining (.imp .of_remaining id)

/-- A path item that everybody reads and administrators delete. -/
def officeItem (read delete : String) : PathItem where
  operation? := (List.lookup · [
    (.get, { operationId := read, tags := some ["users"] }),
    (.delete, { operationId := delete, tags := some ["admin"] })])

/-- Such path items in the paths, among the components and in another document. -/
def officeDocument : Document where
  openapi := "3.1.0"
  paths := some (.ofList [
    ("/users", some (officeItem "listUsers" "dropUsers")),
    ("/audit", some { ref := "items.yaml#/Audit" })])
  components := some {
    pathItems := some (.ofList [("Shared", some (officeItem "readShared" "purgeShared"))]) }

def officeItems : ExternalResolver where
  fetch ref kind :=
    if ref = "items.yaml#/Audit" && kind = .pathItem then
      some (.pathItem (officeItem "readAudit" "clearAudit"))
    else none
  reach := 1

/-- Without what is for administrators. -/
def withoutAdmin : TagFilter where
  including := []
  excluding := [(· = "admin")]

theorem generate_tags_filtered_office :
    ∃ output, generate (withoutAdmin.apply officeDocument) { external := some officeItems } =
        .ok output ∧
      (∀ e ∈ output.operations, e.place = "#/paths/~1users" → e.id = "listUsers") ∧
      TagsFiltered withoutAdmin officeDocument
        (settingOf (withoutAdmin.apply officeDocument) { external := some officeItems })
        ⟨withoutAdmin.apply officeDocument, some officeItems⟩ output := by
  obtain ⟨output, hrun, hkept⟩ := @exists_output (withoutAdmin.apply officeDocument)
    { external := some officeItems }
    (fun output => ∀ e ∈ output.operations, e.place = "#/paths/~1users" → e.id = "listUsers") _
    (by decide +kernel)
  exact ⟨output, hrun, hkept, generate_tags_filtered hrun⟩

/-- What is for administrators is still declared for path items among the components and in other
documents. -/
theorem rejected_operations_left :
    (∀ read delete, ∃ o, (officeItem read delete).operation? .delete = some o ∧
      withoutAdmin.keeps (o.tags.getD []) = false) ∧
    ∃ output, generate (withoutAdmin.apply officeDocument) { external := some officeItems } =
        .ok output ∧
      ⟨"purgeShared", "#/components/pathItems/Shared", "delete"⟩ ∈
        output.operations.map (·.declaration) ∧
      ⟨"clearAudit", "items.yaml#/Audit", "delete"⟩ ∈ output.operations.map (·.declaration) :=
  ⟨fun _ _ => ⟨_, rfl, rfl⟩, exists_output (by decide +kernel)⟩

end Typing

end ApiTypes
