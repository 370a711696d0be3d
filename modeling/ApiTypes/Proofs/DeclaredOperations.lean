import ApiTypes.Proofs.Names
import ApiTypes.Proofs.Typing.Registrations

/-!
The operations that are declared for a document are those that its path items access. They stand in
the order in which their ids first came, and an id that came more than once has the content it came
with last.
-/

namespace ApiTypes

/-- The types of the path items that are declared: of the paths, of the webhooks and of those among
the components. -/
def pathItemTypes (decls : List Decl) : List TypeExpr :=
  (declaredMembers decls "paths" ++ declaredMembers decls "webhooks" ++
    Typing.membersUnder "pathItems" (declaredMembers decls "components")).map Member.type

/-- The ids of the operations that are accessed in declared path items, in turn. -/
def accessedOperations (decls : List Decl) : List String :=
  (pathItemTypes decls).flatMap fun t => operationIds t.uses

namespace Typing

variable {w : Source} {σ : Setting} {p : Progress} {options : Options}

/-- The member that declares an operation. -/
def operationMember (options : Options) (e : OperationEntry) : Member :=
  .property e.id false options.immutable e.type e.doc

/-- The declared operations are those of a log, and are the ones that are accessed. -/
structure OperationsMatch (options : Options) (output : Output) (log : List OperationEntry) :
    Prop where
  /-- The path items access the operations of the log in turn. -/
  accesses : accessedOperations output.decls = log.map (·.id)
  /-- What is accessed is declared, and nothing else is. -/
  members : ∀ id, id ∈ accessedOperations output.decls ↔
    id ∈ memberNames (declaredMembers output.decls "operations")
  /-- The ids stand in the order in which they first came. -/
  order : memberNames (declaredMembers output.decls "operations") = (log.map (·.id)).eraseDups
  /-- An id that came more than once has the content it came with last. -/
  content : ∀ e ∈ output.operations, OperationRegistry.IsLast log e
  /-- Each member has the type and the documentation of its operation. -/
  contentDeclared : declaredMembers output.decls "operations" =
    output.operations.map (operationMember options)
  /-- There is a declaration also if there are no operations. -/
  declared : rootDecl options "operations"
    (objectOrEmpty (output.operations.map (operationMember options))) ∈ output.decls

theorem memberNames_operationMember (options : Options) (entries : List OperationEntry) :
    memberNames (entries.map (operationMember options)) = entries.map (·.id) := by
  have hname : Member.name? ∘ operationMember options = some ∘ (·.id) := rfl
  rw [memberNames, List.filterMap_map, hname, List.filterMap_eq_map]

theorem runs_of_generate {doc : Document} {request : Request} {output : Output}
    (h : generate doc request = .ok output) :
    ∃ decls q, Runs (settingOf doc request) (documentDecls doc) (startOf doc request) decls q ∧
      output = ⟨decls, q.warnings, q.operations.values⟩ := by
  rw [generate_eq] at h
  cases hversion : doc.checkVersion with
  | error e =>
    rw [hversion] at h
    cases h
  | ok _ =>
    rw [hversion] at h
    dsimp only at h
    cases hrun : exec (documentDecls doc) (settingOf doc request) (startOf doc request) with
    | mk result q =>
      rw [hrun] at h
      cases result with
      | error e => cases h
      | ok decls =>
        cases h
        exact ⟨decls, q, hrun, rfl⟩

/-- What is made of a document is made of its roots. -/
theorem roots_of_generate {doc : Document} {external : Option ExternalResolver} {output : Output}
    (hrun : generate doc { options, external } = .ok output) :
    ∃ roots q, Runs (settingOf doc { options, external }) (documentRoots doc)
        (startOf doc { options, external }) roots q ∧
      Valid ⟨doc, external⟩ q ∧ RootsTyped ⟨doc, external⟩ options q roots ∧
      output = ⟨rawDecls options.inject ++ rootDecls options roots q.operations ++
        furtherDecls doc options roots.aliases q, q.warnings, q.operations.values⟩ := by
  obtain ⟨decls, q, hdecls, rfl⟩ := runs_of_generate hrun
  obtain ⟨roots, r, hroots, hrest⟩ := Runs.bind_iff.mp hdecls.options_bind
  obtain ⟨rfl, rfl⟩ := Runs.pure_iff.mp hrest.get_bind
  obtain ⟨hr, -, htyped⟩ := hroots.of_valid (w := ⟨doc, external⟩)
    (documentRoots_ensures ⟨rfl, rfl⟩) (valid_startOf doc { options, external })
  exact ⟨roots, r, hroots, hr, htyped, rfl⟩

/-- The declarations of a run match the log of the roots. -/
theorem operationsMatch_of_roots {roots : Roots} {log : List OperationEntry}
    {warnings : List Warning} (hp : Valid w p) (hroots : RootsTyped w options p roots)
    (hholds : OperationRegistry.Holds p.operations log)
    (hids : memberIds (roots.paths.members?.getD []) ++
      memberIds (roots.webhooks.members?.getD []) ++
      memberIds (membersUnder Category.pathItems.name (roots.components.members?.getD [])) =
        log.map (·.id)) :
    OperationsMatch options ⟨rawDecls options.inject ++ rootDecls options roots p.operations ++
      furtherDecls w.doc options roots.aliases p, warnings, p.operations.values⟩ log := by
  have hroot (root : String) (t : TypeExpr) := @declaredMembers_root _ _ _ _ hp hroots root t
  have hdeclared : operationsType options p.operations =
      objectOrEmpty (p.operations.values.map (operationMember options)) := rfl
  have hmembers := hroot "operations" (operationsType options p.operations) (by simp [rootTypes])
  rw [hdeclared, members?_objectOrEmpty] at hmembers
  have haccesses : accessedOperations (rawDecls options.inject ++
      rootDecls options roots p.operations ++ furtherDecls w.doc options roots.aliases p) =
      log.map (·.id) := by
    unfold accessedOperations pathItemTypes
    rw [hroot "paths" roots.paths (by simp [rootTypes]),
      hroot "webhooks" roots.webhooks (by simp [rootTypes]),
      hroot "components" roots.components (by simp [rootTypes]), ← hids, List.flatMap_map,
      List.flatMap_append, List.flatMap_append]
    rfl
  have hnames : memberNames (p.operations.values.map (operationMember options)) =
      (log.map (·.id)).eraseDups := by
    rw [memberNames_operationMember, hholds.ids_values]
  constructor
  case accesses => exact haccesses
  case members =>
    intro id
    rw [haccesses, hmembers, hnames, List.mem_eraseDups]
  case order => rw [hmembers, hnames]
  case content =>
    intro e he
    obtain ⟨⟨key, e'⟩, hentry, rfl⟩ := List.mem_map.mp he
    exact (hholds.entries key e' hentry).2
  case contentDeclared => exact hmembers
  case declared =>
    rw [← hdeclared]
    apply List.mem_append_left
    apply List.mem_append_right
    simp [rootDecls]

/-- The operations that path items access are the ones that are declared. Each stands at the place
at which its id first came, with the type, the documentation, the place and the method that it came
with last. -/
theorem generate_operations_match {doc : Document} {external : Option ExternalResolver}
    {output : Output} (hrun : generate doc { options, external } = .ok output) :
    ∃ log, DocumentLog (settingOf doc { options, external }) doc
      (startOf doc { options, external }) log ∧ OperationsMatch options output log := by
  obtain ⟨roots, r, hroots, hr, htyped, rfl⟩ := roots_of_generate hrun
  obtain ⟨log, hlog, hoperations, hids⟩ := documentRoots_logged (w := ⟨doc, external⟩) ⟨rfl, rfl⟩
    (valid_startOf doc { options, external }) hroots
  have hholds : OperationRegistry.Holds r.operations log := by
    rw [hoperations]
    exact OperationRegistry.holds_registerAll log
  exact ⟨log, hlog, operationsMatch_of_roots hr htyped hholds hids⟩

/-- Operations in paths, in a webhook and among the components, one of them under an id that was
used before and one that is deprecated. -/
def shopDocument : Document where
  openapi := "3.1.0"
  paths := some (.ofList [
    ("/orders", some { operation? := (List.lookup · [
      (.get, { operationId := "list" }), (.put, { operationId := "old", deprecated := true })]) }),
    ("/items", some { operation? := (List.lookup · [
      (.get, { operationId := "list", summary := "items" }),
      (.post, { operationId := "add" })]) })])
  webhooks := some (.ofList [
    ("sold", some { operation? := (List.lookup · [(.post, { operationId := "sold" })]) })])
  components := some {
    pathItems := some (.ofList [
      ("Shared", some { operation? := (List.lookup · [(.get, { operationId := "add" })]) })]) }

theorem generate_operations_match_shop :
    let options : Options := { excludeDeprecated := true }
    ∃ output, generate shopDocument { options } = .ok output ∧
      (accessedOperations output.decls = ["list", "list", "add", "sold", "add"] ∧
        output.operations.map (fun e => (e.id, e.place, e.method)) =
          [("list", "#/paths/~1items", "get"), ("add", "#/components/pathItems/Shared", "get"),
            ("sold", "#/webhooks/sold", "post")]) ∧
      ∃ log, DocumentLog (settingOf shopDocument { options }) shopDocument
        (startOf shopDocument { options }) log ∧ OperationsMatch options output log := by
  intro options
  obtain ⟨output, hrun, hoperations⟩ := @exists_output shopDocument { options }
    (fun output => accessedOperations output.decls = ["list", "list", "add", "sold", "add"] ∧
      output.operations.map (fun e => (e.id, e.place, e.method)) =
        [("list", "#/paths/~1items", "get"), ("add", "#/components/pathItems/Shared", "get"),
          ("sold", "#/webhooks/sold", "post")]) _ (by decide +kernel)
  exact ⟨output, hrun, hoperations, generate_operations_match hrun⟩

end Typing

end ApiTypes
