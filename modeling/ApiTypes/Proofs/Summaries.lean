import ApiTypes.Proofs.Chains
import ApiTypes.Proofs.Places
import ApiTypes.Proofs.Registry
import ApiTypes.Summary.Basic
import Mathlib.Data.List.Nodup
import Mathlib.Data.Prod.Lex
import Mathlib.Data.String.Basic

/-!
Summaries of documents. A summary has one operation for each method that the path item of a path or
a webhook has, in the service of its first tag.

Services come of groups of operations, one for each tag. However the groups are visited and however
the services are then sorted by their tags, they come out the same, because no tag has two groups.
Within a group the sort is stable, so that of a path and a webhook of the same name, which are
listed in this order, the path comes first.
-/

namespace ApiTypes

variable {α β : Type}

/-! A document on its own: nothing is fetched, so asking changes nothing. -/

namespace Resolver

/-- Asked, the resolver answers `x` and stays as it is. -/
def Tells (r : Resolver) (act : Resolving α) (x : α) : Prop := act.run r = (x, r)

namespace Tells

variable {r : Resolver}

theorem pure (x : α) : r.Tells (Pure.pure x) x := rfl

theorem bind {act : Resolving α} {next : α → Resolving β} {x : α} {y : β} (hact : r.Tells act x)
    (hnext : r.Tells (next x) y) : r.Tells (act >>= next) y := by
  change (next (act.run r).1).run (act.run r).2 = (y, r)
  rw [show act.run r = (x, r) from hact]
  exact hnext

theorem mapM {f : α → Resolving β} {g : α → β} (h : ∀ x, r.Tells (f x) (g x)) (list : List α) :
    r.Tells (list.mapM f) (list.map g) := by
  induction list with
  | nil =>
    rw [List.mapM_nil]
    exact .pure []
  | cons x rest ih =>
    rw [List.mapM_cons]
    exact (h x).bind (ih.bind (.pure _))

theorem filterMapM {f : α → Resolving (Option β)} {g : α → Option β}
    (h : ∀ x, r.Tells (f x) (g x)) (list : List α) :
    r.Tells (list.filterMapM f) (list.filterMap g) := by
  induction list with
  | nil =>
    rw [List.filterMapM_nil]
    exact .pure []
  | cons x rest ih =>
    rw [List.filterMapM_cons, List.filterMap_cons]
    refine (h x).bind ?_
    cases g x with
    | none => exact ih
    | some y => exact ih.bind (.pure _)

variable [Referable α]

theorem lookup? (h : r.external = none) (ref : String) :
    ∃ found, r.Tells (Resolver.lookup? α ref) found := by
  unfold Tells
  rw [lookup?_run, h]
  cases Reference.isExternal ref with
  | false => exact ⟨_, rfl⟩
  | true => cases r.fetched.lookup (Reference.canonical ref) <;> exact ⟨_, rfl⟩

theorem follow (h : r.external = none) (steps : Nat) (visited : List String)
    (last : Option (String × α)) (ref : String) :
    ∃ found, r.Tells (Resolver.follow α steps visited last ref) found := by
  induction steps generalizing visited last ref with
  | zero => exact ⟨last, .pure last⟩
  | succ steps ih =>
    rw [Resolver.follow]
    split
    · exact ⟨last, .pure last⟩
    · dsimp only
      split
      · exact ⟨last, .pure last⟩
      · obtain ⟨found, hfound⟩ := Tells.lookup? (α := α) h ref
        cases found with
        | none => exact ⟨none, hfound.bind (.pure none)⟩
        | some node =>
          obtain ⟨result, hresult⟩ := ih (Reference.canonical ref :: visited)
            (some (Reference.canonical ref, node)) (Referable.refOf node)
          exact ⟨result, hfound.bind hresult⟩

end Tells

end Resolver

open Resolver (Tells)

namespace Document

/-- The object that a reference leads to within a document. -/
def found? (doc : Document) (α : Type) [Referable α] (ref : String) : Option α :=
  ((Resolver.find? α ref).run (Resolver.ofDocument doc none)).1

theorem tells_found? (doc : Document) (α : Type) [Referable α] (ref : String) :
    (Resolver.ofDocument doc none).Tells (Resolver.find? α ref) (doc.found? α ref) := by
  obtain ⟨found, hfound⟩ := Tells.follow (α := α) (r := Resolver.ofDocument doc none) rfl
    (Resolver.ofDocument doc none).chainBound [] none ref
  have hlocate : (Resolver.ofDocument doc none).Tells (Resolver.locate? α ref) found :=
    (Resolver.locate?_run ref _).trans hfound
  have hfind : (Resolver.ofDocument doc none).Tells (Resolver.find? α ref) (found.map (·.2)) :=
    hlocate.bind (.pure _)
  have hanswer : doc.found? α ref = found.map (·.2) := congrArg Prod.fst hfind
  rw [hanswer]
  exact hfind

/-- The path item that counts for a path: what it refers to, if that is in the document. -/
def shownItem (doc : Document) (item : PathItem) : PathItem :=
  if item.ref = "" then item else (doc.found? PathItem item.ref).getD item

/-- The parameter that is listed, directly or by a reference. -/
def shownParameter? (doc : Document) (p : Parameter) : Option Parameter :=
  if p.ref = "" then some p else doc.found? Parameter p.ref

/-- The request body that is given, directly or by a reference. -/
def shownBody? (doc : Document) (b : RequestBody) : Option RequestBody :=
  if b.ref = "" then some b else doc.found? RequestBody b.ref

end Document

/-- An operation that the path item of a path or of a webhook has for a method. -/
structure ListedOperation where
  webhook : Bool
  path : String
  item : PathItem
  method : Method
  operation : Operation

namespace Document

/-- The operations of paths or webhooks, in order. -/
def operationsIn (doc : Document) (webhook : Bool) (items : Option PathItems) :
    List ListedOperation :=
  (entriesOf items).flatMap fun (path, item) => item.toList.flatMap fun item =>
    (doc.shownItem item).inOrder.map fun (method, o) =>
      ⟨webhook, path, doc.shownItem item, method, o⟩

/-- The operations of a document: those of the paths, then those of the webhooks. -/
def listedOperations (doc : Document) : List ListedOperation :=
  doc.operationsIn false doc.paths ++ doc.operationsIn true doc.webhooks

/-- A path or a webhook is listed, and the path item that counts for it has the operation. -/
def Lists (doc : Document) (l : ListedOperation) : Prop :=
  ∃ item, (l.path, some item) ∈ entriesOf (if l.webhook then doc.webhooks else doc.paths) ∧
    l.item = doc.shownItem item ∧ l.item.operation? l.method = some l.operation

end Document

/-- Where an operation is listed. -/
def ListedOperation.key (l : ListedOperation) : Bool × String × Method :=
  (l.webhook, l.path, l.method)

/-- A path item has no method twice. -/
theorem PathItem.pairwise_inOrder (item : PathItem) :
    item.inOrder.Pairwise fun a b => a.1 ≠ b.1 := by
  refine List.Pairwise.filterMap _ (fun a a' hne b hb b' hb' => ?_)
    (show Method.all.Pairwise (· ≠ ·) by decide)
  obtain ⟨o, -, rfl⟩ := Option.map_eq_some_iff.mp hb
  obtain ⟨o', -, rfl⟩ := Option.map_eq_some_iff.mp hb'
  exact hne

namespace Document

variable (doc : Document)

theorem mem_operationsIn {webhook : Bool} {items : Option PathItems} {l : ListedOperation} :
    l ∈ doc.operationsIn webhook items ↔ l.webhook = webhook ∧ ∃ item,
      (l.path, some item) ∈ entriesOf items ∧ l.item = doc.shownItem item ∧
        l.item.operation? l.method = some l.operation := by
  constructor
  · intro hmem
    obtain ⟨⟨path, entry⟩, hentry, hmem⟩ := List.mem_flatMap.mp hmem
    obtain ⟨item, hitem, hmem⟩ := List.mem_flatMap.mp hmem
    obtain ⟨⟨method, o⟩, ho, rfl⟩ := List.mem_map.mp hmem
    obtain rfl := Option.mem_toList.mp hitem
    exact ⟨rfl, item, hentry, rfl, PathItem.mem_inOrder.mp ho⟩
  · obtain ⟨webhook', path, item', method, o⟩ := l
    rintro ⟨rfl, item, hentry, rfl, ho⟩
    refine List.mem_flatMap.mpr ⟨_, hentry, List.mem_flatMap.mpr ⟨item, ?_, ?_⟩⟩
    · exact Option.mem_toList.mpr rfl
    · exact List.mem_map.mpr ⟨(method, o), PathItem.mem_inOrder.mpr ho, rfl⟩

theorem mem_listedOperations {l : ListedOperation} : l ∈ doc.listedOperations ↔ doc.Lists l := by
  rw [listedOperations, List.mem_append, mem_operationsIn, mem_operationsIn, Lists]
  cases l.webhook <;> simp

theorem nodup_operationsIn (webhook : Bool) (items : Option PathItems) :
    ((doc.operationsIn webhook items).map (·.key)).Nodup := by
  refine List.pairwise_map.mpr (List.pairwise_flatMap.mpr ⟨fun (path, item) _ => ?_, ?_⟩)
  · cases item with
    | none => exact .nil
    | some item =>
      dsimp only
      rw [Option.toList_some, List.flatMap_singleton]
      refine List.pairwise_map.mpr ((doc.shownItem item).pairwise_inOrder.imp fun hne heq => ?_)
      exact hne (congrArg (·.2.2) heq)
  · refine (List.pairwise_map.mp (nodup_entriesOf items)).imp fun hne l hl l' hl' heq => ?_
    obtain ⟨item, -, hl⟩ := List.mem_flatMap.mp hl
    obtain ⟨_, -, rfl⟩ := List.mem_map.mp hl
    obtain ⟨item', -, hl'⟩ := List.mem_flatMap.mp hl'
    obtain ⟨_, -, rfl⟩ := List.mem_map.mp hl'
    exact hne (congrArg (·.2.1) heq)

/-- No operation is listed twice. -/
theorem nodup_listedOperations : (doc.listedOperations.map (·.key)).Nodup := by
  rw [listedOperations, List.map_append]
  refine List.nodup_append.mpr ⟨doc.nodup_operationsIn false _,
    doc.nodup_operationsIn true _, fun key hkey key' hkey' heq => ?_⟩
  obtain ⟨l, hl, rfl⟩ := List.mem_map.mp hkey
  obtain ⟨l', hl', rfl⟩ := List.mem_map.mp hkey'
  have hfalse := (doc.mem_operationsIn.mp hl).1
  have htrue := (doc.mem_operationsIn.mp hl').1
  have hsame : l.webhook = l'.webhook := congrArg (·.1) heq
  rw [hfalse, htrue] at hsame
  cases hsame

/-- Paths are listed before webhooks. -/
theorem pairwise_listedOperations :
    doc.listedOperations.Pairwise fun l l' => l.webhook ≤ l'.webhook := by
  refine List.pairwise_append.mpr ⟨?_, ?_, fun l hl l' _ => ?_⟩
  · refine List.pairwise_of_forall_mem_list fun l hl l' hl' => ?_
    rw [(doc.mem_operationsIn.mp hl).1, (doc.mem_operationsIn.mp hl').1]
  · refine List.pairwise_of_forall_mem_list fun l hl l' hl' => ?_
    rw [(doc.mem_operationsIn.mp hl).1, (doc.mem_operationsIn.mp hl').1]
  · rw [(doc.mem_operationsIn.mp hl).1]
    exact Bool.false_le _

end Document

namespace Summary

/-- Parameters with what tells them from others. -/
def shownEntries (doc : Document) (list : List (Option Parameter)) : List (String × Parameter) :=
  list.filterMap fun p =>
    (p.bind doc.shownParameter?).map fun p => (p.location ++ ":" ++ p.name, p)

/-- The parameters that count for an operation: of those with the same location and name the last,
at the place of the first. -/
def shownParameters (doc : Document) (shared own : List (Option Parameter)) :
    OrderedMap Parameter :=
  .ofList (shownEntries doc (shared ++ own))

/-- The summary of an operation of a document. -/
def ofListed (doc : Document) (l : ListedOperation) : OperationSummary :=
  let o := l.operation
  let parameters := shownParameters doc (l.item.parameters.getD []) (o.parameters.getD [])
  let located (location : String) : List ParameterSummary :=
    (parameters.values.filter (·.location = location)).map ofParameter
  let responses := o.responses.getD .empty
  let tags := o.tags.getD []
  { operationId := o.operationId, method := l.method.name.toUpper, path := l.path
    tag := tags.headD miscTag, tags, summary := o.summary, deprecated := o.deprecated
    webhook := l.webhook
    pathParams := located "path", queryParams := located "query"
    headerParams := located "header", cookieParams := located "cookie"
    requestBody := (o.requestBody.bind doc.shownBody?).map fun b =>
      ⟨b.content.map (·.keys), b.required⟩
    success := (successCodes responses).headD "", error := (errorCodes responses).headD "" }

section Alone

variable (doc : Document)

theorem mergedParameters_tells (shared own : List (Option Parameter)) :
    (Resolver.ofDocument doc none).Tells (mergedParameters shared own)
      (shownParameters doc shared own) := by
  refine (Tells.filterMapM (fun p => ?_) _).bind (.pure _)
  cases p with
  | none => exact (Tells.pure none).bind (.pure none)
  | some p =>
    rw [Option.bind_some, Document.shownParameter?]
    dsimp only
    split
    · exact (Tells.pure (some p)).bind (.pure _)
    · exact (doc.tells_found? Parameter p.ref).bind (.pure _)

theorem bodyOf_tells (b : Option RequestBody) :
    (Resolver.ofDocument doc none).Tells (bodyOf b)
      ((b.bind doc.shownBody?).map fun b => ⟨b.content.map (·.keys), b.required⟩) := by
  unfold bodyOf
  cases b with
  | none => exact (Tells.pure none).bind (.pure none)
  | some b =>
    rw [Option.bind_some, Document.shownBody?]
    dsimp only
    split
    · exact (Tells.pure (some b)).bind (.pure _)
    · exact (doc.tells_found? RequestBody b.ref).bind (.pure _)

theorem ofOperation_tells (l : ListedOperation) : (Resolver.ofDocument doc none).Tells
    (ofOperation l.item l.path l.webhook l.method l.operation) (ofListed doc l) :=
  (bodyOf_tells doc l.operation.requestBody).bind
    ((mergedParameters_tells doc _ _).bind (.pure _))

theorem itemOperations_tells (webhook : Bool) (path : String) (item : PathItem) :
    (Resolver.ofDocument doc none).Tells
      (item.inOrder.mapM fun (method, o) => ofOperation item path webhook method o)
      (item.inOrder.map fun (method, o) => ofListed doc ⟨webhook, path, item, method, o⟩) :=
  Tells.mapM (fun (method, o) => ofOperation_tells doc ⟨webhook, path, item, method, o⟩) _

theorem ofItems_tells (webhook : Bool) (items : Option PathItems) :
    (Resolver.ofDocument doc none).Tells (ofItems webhook items)
      ((doc.operationsIn webhook items).map (ofListed doc)) := by
  have hflat : (doc.operationsIn webhook items).map (ofListed doc) =
      ((entriesOf items).map fun (path, item) => item.toList.flatMap fun item =>
        (doc.shownItem item).inOrder.map fun (method, o) =>
          ofListed doc ⟨webhook, path, doc.shownItem item, method, o⟩).flatten := by
    rw [← List.flatMap_def]
    simp only [Document.operationsIn, List.map_flatMap, List.map_map, Function.comp_def]
  rw [hflat]
  refine (Tells.mapM (fun (path, item) => ?_) _).bind (.pure _)
  cases item with
  | none => exact .pure []
  | some item =>
    dsimp only
    rw [Option.toList_some, List.flatMap_singleton]
    split
    · rename_i href
      rw [Document.shownItem, if_pos href]
      exact (Tells.pure item).bind (itemOperations_tells doc webhook path item)
    · rename_i href
      rw [Document.shownItem, if_neg href]
      exact (doc.tells_found? PathItem item.ref).bind ((Tells.pure _).bind
        (itemOperations_tells doc webhook path _))

/-- The operations that are grouped are those of the document. -/
theorem services_ofDocument :
    (ofDocument doc).services = group (doc.listedOperations.map (ofListed doc)) := by
  have hrun : (Resolver.ofDocument doc none).Tells
      (do return (← ofItems false doc.paths) ++ (← ofItems true doc.webhooks))
      (doc.listedOperations.map (ofListed doc)) := by
    rw [Document.listedOperations, List.map_append]
    exact (ofItems_tells doc false doc.paths).bind
      ((ofItems_tells doc true doc.webhooks).bind (.pure _))
  exact congrArg (fun run => group run.1) hrun

end Alone

/-! Services. -/

/-- The path and then the method of an operation. -/
def place (o : OperationSummary) : Lex (String × String) := toLex (o.path, o.method)

/-- The order of operations in a service: by path, then by method, then paths before webhooks. -/
def rank (o : OperationSummary) : Lex (Lex (String × String) × Bool) := toLex (place o, o.webhook)

theorem precedes_iff {a b : OperationSummary} : precedes a b = true ↔ place a ≤ place b := by
  rw [place, place, Prod.Lex.toLex_le_toLex]
  unfold precedes
  split
  · rename_i hpath
    simp [hpath]
  · rename_i hpath
    simp [hpath, lt_iff_le_and_ne]

theorem precedes_trans (a b c : OperationSummary) (hab : precedes a b = true)
    (hbc : precedes b c = true) : precedes a c = true :=
  precedes_iff.mpr ((precedes_iff.mp hab).trans (precedes_iff.mp hbc))

theorem precedes_total (a b : OperationSummary) : (precedes a b || precedes b a) = true := by
  rw [Bool.or_eq_true, precedes_iff, precedes_iff]
  exact le_total _ _

/-- Sorting leaves operations on one path with one method in the order they are in. -/
theorem filter_mergeSort (operations : List OperationSummary) (o : OperationSummary) :
    (operations.mergeSort precedes).filter (place · = place o) =
      operations.filter (place · = place o) := by
  have hsame : (operations.filter (place · = place o)).Pairwise (precedes · ·) := by
    refine List.pairwise_of_forall_mem_list fun a ha b hb => precedes_iff.mpr (le_of_eq ?_)
    rw [of_decide_eq_true (List.mem_filter.mp ha).2, of_decide_eq_true (List.mem_filter.mp hb).2]
  have hsub := (List.sublist_mergeSort precedes_trans precedes_total hsame
    List.filter_sublist).filter (place · = place o)
  rw [List.filter_filter] at hsub
  simp only [Bool.and_self] at hsub
  exact (hsub.eq_of_length
    ((List.mergeSort_perm operations precedes).filter _).length_eq.symm).symm

/-- Where paths are listed before webhooks, they are before them on ties too. -/
theorem pairwise_mergeSort {operations : List OperationSummary}
    (h : operations.Pairwise fun a b => a.webhook ≤ b.webhook) :
    (operations.mergeSort precedes).Pairwise fun a b => rank a ≤ rank b := by
  have hsorted := List.pairwise_mergeSort precedes_trans precedes_total operations
  refine List.pairwise_iff_forall_sublist.mpr fun {a b} hsub => ?_
  have hle := precedes_iff.mp (List.pairwise_iff_forall_sublist.mp hsorted hsub)
  refine Prod.Lex.toLex_le_toLex.mpr ((lt_or_eq_of_le hle).imp_right fun heq => ⟨heq, ?_⟩)
  have hpair := hsub.filter (place · = place b)
  rw [filter_mergeSort, List.filter_cons_of_pos (by simpa using heq),
    List.filter_cons_of_pos (by simp)] at hpair
  exact List.pairwise_iff_forall_sublist.mp h (hpair.trans List.filter_sublist)

/-- The operations with a tag as a service. -/
def serviceOf (operations : List OperationSummary) (tag : String) : Service :=
  ⟨tag, (operations.filter (·.tag = tag)).mergeSort precedes⟩

/-- Adds an operation to the group of its tag. -/
def addTo (groups : OrderedMap (List OperationSummary)) (o : OperationSummary) :
    OrderedMap (List OperationSummary) :=
  groups.set o.tag ((groups.get? o.tag).getD [] ++ [o])

/-- The groups of some operations, added one after the other. -/
def grouped (operations : List OperationSummary) : OrderedMap (List OperationSummary) :=
  operations.foldl addTo .empty

/-- Services that come of the groups, visited in some order, and are then sorted by their tags in
some way, which need not be stable. -/
def Gathered (operations : List OperationSummary) (services : List Service) : Prop :=
  ∃ visited : List (String × List OperationSummary), visited.Perm (grouped operations).toList ∧
    services.Perm (visited.map fun (tag, found) => ⟨tag, found.mergeSort precedes⟩) ∧
    services.Pairwise fun a b => ¬ b.tag < a.tag

/-- The groups are those of some operations: one for each tag, with its operations in order. -/
structure Groups (groups : OrderedMap (List OperationSummary))
    (operations : List OperationSummary) : Prop where
  keys : groups.keys = (operations.map (·.tag)).eraseDups
  entries : ∀ tag found, (tag, found) ∈ groups.toList → found = operations.filter (·.tag = tag)

theorem Groups.getD {groups : OrderedMap (List OperationSummary)}
    {operations : List OperationSummary} (h : Groups groups operations) (tag : String) :
    (groups.get? tag).getD [] = operations.filter (·.tag = tag) := by
  cases hfound : groups.get? tag with
  | some found => exact h.entries tag found (lookup_mem hfound)
  | none =>
    refine (List.filter_eq_nil_iff.mpr fun o ho htag => ?_).symm
    have hkey : tag ∈ groups.toList.map (·.1) := by
      rw [← groups.keys_eq, h.keys, List.mem_eraseDups]
      exact List.mem_map.mpr ⟨o, ho, by simpa using htag⟩
    obtain ⟨entry, hentry, heq⟩ := List.mem_map.mp hkey
    exact absurd heq.symm (by simpa using List.lookup_eq_none_iff.mp hfound entry hentry)

/-- One more operation goes to the end of its group, and a new group to the end. -/
theorem Groups.addTo {groups : OrderedMap (List OperationSummary)}
    {operations : List OperationSummary} (h : Groups groups operations) (o : OperationSummary) :
    Groups (addTo groups o) (operations ++ [o]) where
  keys := by
    rw [Summary.addTo, List.map_append, List.map_singleton,
      OrderedMap.keys_set_of_eraseDups h.keys]
  entries tag found hmem := by
    rw [List.filter_append]
    rcases OrderedMap.mem_toList_set hmem with heq | ⟨hne, hold⟩
    · cases heq
      rw [h.getD, List.filter_cons_of_pos (by simp)]
      rfl
    · rw [h.entries tag found hold, List.filter_cons_of_neg (by simpa using Ne.symm hne),
        List.filter_nil, List.append_nil]

theorem groups_grouped (operations : List OperationSummary) :
    Groups (grouped operations) operations := by
  induction operations using List.reverseRecOn with
  | nil => exact ⟨rfl, nofun⟩
  | append_singleton operations o ih =>
    rw [grouped, List.foldl_append]
    exact ih.addTo o

theorem Groups.toList_eq {groups : OrderedMap (List OperationSummary)}
    {operations : List OperationSummary} (h : Groups groups operations) :
    groups.toList = groups.keys.map fun tag => (tag, operations.filter (·.tag = tag)) := by
  rw [OrderedMap.keys_eq, List.map_map]
  refine (List.map_id _).symm.trans (List.map_congr_left fun entry hentry => ?_)
  exact Prod.ext rfl (h.entries entry.1 entry.2 hentry)

/-- The tags of some operations, in order. -/
theorem nodup_tags (operations : List OperationSummary) :
    (operations.map (·.tag)).eraseDups.Nodup := by
  have hgroups := groups_grouped operations
  rw [← hgroups.keys]
  exact OrderedMap.nodup_keys _

theorem tags_group (operations : List OperationSummary) :
    ((group operations).map (·.tag)).Perm (operations.map (·.tag)).eraseDups := by
  rw [group, List.map_map]
  exact (List.map_id _).symm ▸ List.mergeSort_perm _ _

/-- Services come in the order of their tags, none twice. -/
theorem pairwise_group (operations : List OperationSummary) :
    (group operations).Pairwise fun a b => a.tag < b.tag := by
  have hsorted : ((group operations).map (·.tag)).Pairwise (· ≤ ·) := by
    rw [group, List.map_map, Function.comp_def, List.map_id']
    refine (List.pairwise_mergeSort ?_ ?_ _).imp (by simp)
    · intro a b c hab hbc
      exact decide_eq_true ((of_decide_eq_true hab).trans (of_decide_eq_true hbc))
    · intro a b
      simpa using le_total a b
  have hnodup : ((group operations).map (·.tag)).Nodup :=
    (tags_group operations).symm.nodup (nodup_tags operations)
  exact (List.pairwise_map.mp (hsorted.and hnodup)).imp fun h => lt_of_le_of_ne h.1 h.2

/-- However the groups are visited and the services are sorted, the services are the same. -/
theorem gathered_iff {operations : List OperationSummary} {services : List Service} :
    Gathered operations services ↔ services = group operations := by
  have hgroups := groups_grouped operations
  have hvisited : ((grouped operations).toList.map fun (tag, found) =>
      (⟨tag, found.mergeSort precedes⟩ : Service)).Perm (group operations) := by
    rw [hgroups.toList_eq, hgroups.keys, List.map_map]
    exact (List.mergeSort_perm _ _).symm.map (serviceOf operations)
  have hordered := pairwise_group operations
  constructor
  · rintro ⟨visited, hperm, hservices, hsorted⟩
    have hsame := (hservices.trans (hperm.map _)).trans hvisited
    refine List.Perm.eq_of_pairwise (fun a b ha hb hab hba => ?_) hsorted
      (hordered.imp fun h => lt_asymm h) hsame
    -- Two services that are not in order have the same tag, and no tag has two services.
    have htag : a.tag = b.tag := le_antisymm (not_lt.mp hab) (not_lt.mp hba)
    have honce : ((group operations).map (·.tag)).Nodup :=
      List.pairwise_map.mpr (hordered.imp fun h => h.ne)
    exact List.inj_on_of_nodup_map honce (hsame.mem_iff.mp ha) hb htag
  · rintro rfl
    exact ⟨(grouped operations).toList, .refl _, hvisited.symm,
      hordered.imp fun h => lt_asymm h⟩

/-- A list falls apart into its operations with the tags, if these are all different. -/
theorem perm_flatMap_tags {tags : List String} (hnodup : tags.Nodup)
    {operations : List OperationSummary} (hall : ∀ o ∈ operations, o.tag ∈ tags) :
    (tags.flatMap fun tag => operations.filter (·.tag = tag)).Perm operations := by
  induction tags generalizing operations with
  | nil =>
    rw [List.eq_nil_iff_forall_not_mem.mpr fun o ho => List.not_mem_nil (hall o ho)]
    rfl
  | cons tag rest ih =>
    obtain ⟨hfresh, hrest⟩ := List.nodup_cons.mp hnodup
    let others := operations.filter fun o => !decide (o.tag = tag)
    have hothers : (rest.flatMap fun t => operations.filter (·.tag = t)) =
        rest.flatMap fun t => others.filter (·.tag = t) := by
      refine List.flatMap_congr fun t ht => ?_
      have hne : t ≠ tag := ne_of_mem_of_not_mem ht hfresh
      rw [List.filter_filter]
      refine List.filter_congr fun o _ => ?_
      by_cases htag : o.tag = t <;> simp [htag, hne]
    have hleft : ∀ o ∈ others, o.tag ∈ rest := by
      intro o ho
      obtain ⟨ho, hne⟩ := List.mem_filter.mp ho
      exact (List.mem_cons.mp (hall o ho)).resolve_left (by simpa using hne)
    rw [List.flatMap_cons, hothers]
    exact ((ih hrest hleft).append_left _).trans (List.filter_append_perm _ _)

/-- Grouping neither loses nor duplicates an operation. -/
theorem perm_operations_group (operations : List OperationSummary) :
    ((group operations).flatMap (·.operations)).Perm operations := by
  have hperm := List.mergeSort_perm (operations.map (·.tag)).eraseDups (· ≤ ·)
  rw [group, List.flatMap_map]
  refine (List.Perm.flatMap_left _ fun tag _ => List.mergeSort_perm _ _).trans ?_
  refine perm_flatMap_tags (hperm.symm.nodup (nodup_tags operations)) fun o ho => ?_
  exact hperm.mem_iff.mpr (List.mem_eraseDups.mpr (List.mem_map.mpr ⟨o, ho, rfl⟩))

theorem mem_group {operations : List OperationSummary} {service : Service}
    (h : service ∈ group operations) :
    service.tag ∈ operations.map (·.tag) ∧ service = serviceOf operations service.tag := by
  obtain ⟨tag, htag, rfl⟩ := List.mem_map.mp h
  exact ⟨List.mem_eraseDups.mp ((List.mergeSort_perm _ _).mem_iff.mp htag), rfl⟩

theorem mem_serviceOf {operations : List OperationSummary} {tag : String} {o : OperationSummary} :
    o ∈ (serviceOf operations tag).operations ↔ o ∈ operations ∧ o.tag = tag := by
  rw [serviceOf, (List.mergeSort_perm _ _).mem_iff, List.mem_filter, decide_eq_true_eq]

theorem inhabited_group {operations : List OperationSummary} {service : Service}
    (h : service ∈ group operations) : service.operations ≠ [] := by
  obtain ⟨htag, hservice⟩ := mem_group h
  obtain ⟨o, ho, htag⟩ := List.mem_map.mp htag
  rw [hservice]
  exact List.ne_nil_of_mem (mem_serviceOf.mpr ⟨ho, htag⟩)

/-- Where paths are listed before webhooks and no operation stands twice, the operations of a
service are in order. -/
theorem sorted_group {operations : List OperationSummary}
    (hlisted : operations.Pairwise fun a b => a.webhook ≤ b.webhook)
    (honce : (operations.map rank).Nodup) {service : Service} (h : service ∈ group operations) :
    service.operations.Pairwise fun a b => rank a < rank b := by
  rw [(mem_group h).2]
  have hsorted := pairwise_mergeSort (hlisted.sublist
    (List.filter_sublist (p := (·.tag = service.tag))))
  have hnodup : ((serviceOf operations service.tag).operations.map rank).Nodup :=
    ((List.mergeSort_perm _ _).map rank).symm.nodup (honce.sublist (List.filter_sublist.map rank))
  exact (hsorted.and (List.pairwise_map.mp hnodup)).imp fun h => lt_of_le_of_ne h.1 h.2

theorem upperName_injective {a b : Method} (h : a.name.toUpper = b.name.toUpper) : a = b :=
  List.inj_on_of_nodup_map (show (Method.all.map (·.name.toUpper)).Nodup by decide +kernel)
    a.mem_all b.mem_all h

theorem nodup_ranks (doc : Document) :
    ((doc.listedOperations.map (ofListed doc)).map rank).Nodup := by
  rw [List.map_map]
  refine List.pairwise_map.mpr ((List.pairwise_map.mp
    doc.nodup_listedOperations).imp fun hne heq => hne ?_)
  have hplace := congrArg (fun rank => (ofLex rank).1) heq
  have hwebhook := congrArg (fun rank => (ofLex rank).2) heq
  have hpath := congrArg (fun place => (ofLex place).1) hplace
  have hmethod := congrArg (fun place => (ofLex place).2) hplace
  exact Prod.ext hwebhook (Prod.ext hpath (upperName_injective hmethod))

theorem perm_operations_ofDocument (doc : Document) :
    (ofDocument doc).operations.Perm (doc.listedOperations.map (ofListed doc)) := by
  rw [operations, services_ofDocument]
  exact perm_operations_group _

/-- A summary has one operation for a method of a path or a webhook. -/
theorem mem_operations_iff {doc : Document} {l : ListedOperation} (hl : doc.Lists l)
    {o : OperationSummary} :
    (o ∈ (ofDocument doc).operations ∧ o.webhook = l.webhook ∧ o.path = l.path ∧
      o.method = l.method.name.toUpper) ↔ o = ofListed doc l := by
  rw [(perm_operations_ofDocument doc).mem_iff]
  have hmem : ofListed doc l ∈ doc.listedOperations.map (ofListed doc) :=
    List.mem_map.mpr ⟨l, doc.mem_listedOperations.mpr hl, rfl⟩
  constructor
  · rintro ⟨ho, hwebhook, hpath, hmethod⟩
    refine List.inj_on_of_nodup_map (nodup_ranks doc) ho hmem ?_
    rw [rank, rank, place, place, hwebhook, hpath, hmethod]
    rfl
  · rintro rfl
    exact ⟨hmem, rfl, rfl, rfl⟩

/-- What is told of a document. -/
structure Summarizes (s : Summary) (doc : Document) : Prop where
  title : s.title = doc.info.title
  version : s.version = doc.info.version
  /-- Each operation that the document lists is told once, and no other. -/
  complete : ∃ listed : List ListedOperation, (listed.map (·.key)).Nodup ∧
    (∀ l, l ∈ listed ↔ doc.Lists l) ∧ s.operations.Perm (listed.map (ofListed doc))
  tagged : ∀ service ∈ s.services, ∀ o ∈ service.operations, service.tag = o.tags.headD miscTag
  inhabited : ∀ service ∈ s.services, service.operations ≠ []
  ordered : s.services.Pairwise fun a b => a.tag < b.tag
  sorted : ∀ service ∈ s.services, service.operations.Pairwise fun a b => rank a < rank b

/-- The summary of a document is the same however its groups are visited, and it has each operation
of the document once, at its place. -/
theorem summarizes_ofDocument (doc : Document) :
    (∀ services, Gathered (doc.listedOperations.map (ofListed doc)) services ↔
      services = (ofDocument doc).services) ∧ (ofDocument doc).Summarizes doc := by
  have hservices := services_ofDocument doc
  refine ⟨fun services => hservices ▸ gathered_iff, rfl, rfl, ?_, ?_, ?_, ?_, ?_⟩
  · exact ⟨doc.listedOperations, doc.nodup_listedOperations,
      fun l => doc.mem_listedOperations, perm_operations_ofDocument doc⟩
  · rw [hservices]
    intro service hmem o ho
    rw [(mem_group hmem).2] at ho
    obtain ⟨ho, htag⟩ := mem_serviceOf.mp ho
    obtain ⟨l, -, rfl⟩ := List.mem_map.mp ho
    exact htag.symm
  · rw [hservices]
    exact fun service hmem => inhabited_group hmem
  · rw [hservices]
    exact pairwise_group _
  · rw [hservices]
    exact fun service hmem => sorted_group (List.pairwise_map.mpr doc.pairwise_listedOperations)
      (nodup_ranks doc) hmem

/-- A webhook with the name of a path, a path item that is referred to, and an operation without
tags. -/
def shopDocument : Document :=
  let listed (tags : List String) : Operation := { tags := some tags }
  { paths := some (.ofList [
      ("/pets", some {
        operation? := (List.lookup · [(.post, listed ["pets"]), (.get, listed ["pets", "a"])]) }),
      ("/items", some { ref := "#/components/pathItems/Shared" })])
    webhooks := some (.ofList [
      ("/pets", some { operation? := (List.lookup · [(.get, listed ["pets"])]) })])
    components := some { pathItems := some (.ofList [
      ("Shared", some {
        operation? := (List.lookup · [(.get, listed ["pets"]), (.head, {})]) })]) } }

example : shopDocument.listedOperations.map (·.key) =
    [(false, "/pets", .get), (false, "/pets", .post), (false, "/items", .get),
      (false, "/items", .head), (true, "/pets", .get)] := by
  decide

end Summary

end ApiTypes
