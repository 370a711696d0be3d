import ApiTypes.Schema.Basic

/-!
API descriptions: paths and webhooks with their operations, and the components they share. Maps
keep the order of the document; wherever it may hold null, the model holds `none`.
-/

namespace ApiTypes

open Yaml (Value)

/-- A request method, in the order in which operations are written. -/
inductive Method where
  | get
  | put
  | post
  | delete
  | options
  | head
  | patch
  | trace
  deriving DecidableEq, Repr, Inhabited

namespace Method

def all : List Method := [.get, .put, .post, .delete, .options, .head, .patch, .trace]

def name : Method → String
  | .get => "get"
  | .put => "put"
  | .post => "post"
  | .delete => "delete"
  | .options => "options"
  | .head => "head"
  | .patch => "patch"
  | .trace => "trace"

theorem mem_all (method : Method) : method ∈ all := by
  cases method <;> decide

end Method

/-- The part of the general information that is shown. -/
structure Info where
  title : String := ""
  version : String := ""
  description : String := ""

structure MediaType where
  ref : String := ""
  schema : Option Schema := none
  sample : Value := .null

instance : Inhabited MediaType := ⟨{}⟩

abbrev Content := Option (OrderedMap (Option MediaType))

structure Header where
  ref : String := ""
  description : String := ""
  required : Bool := false
  deprecated : Bool := false
  schema : Option Schema := none
  content : Content := none

instance : Inhabited Header := ⟨{}⟩

structure Parameter where
  ref : String := ""
  name : String := ""
  location : String := ""
  description : String := ""
  required : Bool := false
  deprecated : Bool := false
  schema : Option Schema := none
  content : Content := none

instance : Inhabited Parameter := ⟨{}⟩

structure RequestBody where
  ref : String := ""
  description : String := ""
  required : Bool := false
  content : Content := none

instance : Inhabited RequestBody := ⟨{}⟩

structure Response where
  ref : String := ""
  summary : String := ""
  description : String := ""
  headers : Option (OrderedMap (Option Header)) := none
  content : Content := none

instance : Inhabited Response := ⟨{}⟩

abbrev Responses := OrderedMap (Option Response)

structure Operation where
  operationId : String := ""
  summary : String := ""
  description : String := ""
  deprecated : Bool := false
  tags : Option (List String) := none
  parameters : Option (List (Option Parameter)) := none
  requestBody : Option RequestBody := none
  responses : Option Responses := none

instance : Inhabited Operation := ⟨{}⟩

/-- The operations on one path, at most one for each method. -/
structure PathItem where
  ref : String := ""
  summary : String := ""
  description : String := ""
  parameters : Option (List (Option Parameter)) := none
  operation? : Method → Option Operation := fun _ => none

instance : Inhabited PathItem := ⟨{}⟩

namespace PathItem

/-- Replaces the operation of a method, or takes it away. -/
def setOperation (item : PathItem) (method : Method) (operation : Option Operation) : PathItem :=
  { item with
    operation? := fun other => if other = method then operation else item.operation? other }

theorem operation?_setOperation (item : PathItem) (method : Method) (o : Option Operation)
    (other : Method) : (item.setOperation method o).operation? other =
      if other = method then o else item.operation? other := rfl

/-- The operations in the order of methods. -/
def inOrder (item : PathItem) : List (Method × Operation) :=
  Method.all.filterMap fun method => (item.operation? method).map (method, ·)

theorem mem_inOrder {item : PathItem} {method : Method} {o : Operation} :
    (method, o) ∈ item.inOrder ↔ item.operation? method = some o := by
  constructor
  · intro hmem
    obtain ⟨method', -, hfound⟩ := List.mem_filterMap.mp hmem
    obtain ⟨o', ho', heq⟩ := Option.map_eq_some_iff.mp hfound
    cases heq
    exact ho'
  · intro hfound
    exact List.mem_filterMap.mpr ⟨method, method.mem_all, by rw [hfound, Option.map_some]⟩

end PathItem

abbrev PathItems := OrderedMap (Option PathItem)

structure Components where
  schemas : Option (OrderedMap (Option Schema)) := none
  responses : Option (OrderedMap (Option Response)) := none
  parameters : Option (OrderedMap (Option Parameter)) := none
  requestBodies : Option (OrderedMap (Option RequestBody)) := none
  headers : Option (OrderedMap (Option Header)) := none
  pathItems : Option PathItems := none

structure Document where
  openapi : String := ""
  swagger : String := ""
  info : Info := {}
  paths : Option PathItems := none
  webhooks : Option PathItems := none
  components : Option Components := none
  defs : Option (OrderedMap (Option Schema)) := none

instance : Inhabited Document := ⟨{}⟩

end ApiTypes
