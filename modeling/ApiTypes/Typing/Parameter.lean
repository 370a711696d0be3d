import ApiTypes.Typing.Content

/-!
The types of parameters. The parameters of an operation stand in one member for each location.
-/

namespace ApiTypes.Typing

/-- The type of a parameter: that of its schema or of its first media type. -/
def parameterType (p : Parameter) (place : String) : Typing TypeExpr := do
  if p.schema.isSome then schemaType p.schema place
  else
    match entriesOf p.content with
    | (name, m) :: _ => mediaTypeRefType m (Reference.join place [name])
    | [] => return .string

/-- Where a parameter can stand, in the order of writing. -/
def parameterLocations : List String := ["query", "header", "path", "cookie"]

/-- The parameter behind a reference, or the parameter itself. -/
def resolvedParameter? (p : Parameter) : Typing (Option Parameter) := do
  if p.ref = "" then return some p
  find? Parameter p.ref

/-- A parameter as it is listed, and what it stands for. -/
structure ListedParameter where
  listed : Parameter
  resolved : Parameter

/-- The parameters that are written, with what they stand for. A dangling reference is reported and
left out. -/
def resolveParameters (place : String) : List (Option Parameter) → Typing (List ListedParameter)
  | [] => pure []
  | none :: rest => resolveParameters place rest
  | some p :: rest => do
    match ← resolvedParameter? p with
    | none =>
      let _ ← unresolved p.ref place
      resolveParameters place rest
    | some resolved =>
      if (← options).excludeDeprecated && resolved.deprecated then resolveParameters place rest
      else return ⟨p, resolved⟩ :: (← resolveParameters place rest)

/-- Parameters in a path cannot be left out. -/
def isOptionalParameter (p : Parameter) : Bool := p.location ≠ "path" && !p.required

/-- The type of a parameter that may be listed by a reference. -/
def listedType (p : ListedParameter) (place : String) : Typing TypeExpr :=
  if p.listed.ref = "" then parameterType p.resolved place
  else refType parameterType p.listed.ref place

/-- The member for a parameter. -/
def parameterMember (place : String) (p : ListedParameter) : Typing Member := do
  let t ← listedType p (Reference.join place [p.resolved.location, p.resolved.name])
  return .property p.resolved.name (isOptionalParameter p.resolved) (← options).immutable t
    p.resolved.doc

/-- The member for the parameters at a location. It can be left out if all of them can. -/
def locationMember (place : String) (parameters : List ListedParameter) (location : String) :
    Typing Member := do
  let here := parameters.filter (·.resolved.location = location)
  let members ← here.mapM (parameterMember place)
  return .property location (here.all (isOptionalParameter ·.resolved)) (← options).immutable
    (if members.isEmpty then .never else .object members) []

/-- The member for a list of parameters. -/
def parametersMember (parameters : List (Option Parameter)) (place : String) : Typing Member := do
  let options ← options
  let listed ← resolveParameters place parameters
  let listed := if options.alphabetize then
      listed.mergeSort fun a b => a.resolved.name ≤ b.resolved.name
    else listed
  let members ← parameterLocations.mapM (locationMember place listed)
  return .property "parameters" false options.immutable (.object members) []

/-- What tells the parameter at a place from others: its location and name. A reference that dangles
or leads back to itself is told by its text. -/
def parameterKey (p : Parameter) (place : String) : Typing String := do
  let ownKey (p : Parameter) : String := p.location ++ ":" ++ p.name
  if p.ref = "" then return ownKey p
  match ← resolving (Resolver.locate? Parameter p.ref) with
  | none => return p.ref
  | some (found, resolved) =>
    return if found = place && !Reference.isExternal found && resolved.ref = p.ref then p.ref
      else ownKey resolved

/-- The parameters below a place, each with what tells it from others. -/
def keyedParameters (parameters : List (Option Parameter)) (place : String) :
    Typing (List (String × Parameter)) :=
  parameters.zipIdx.filterMapM fun (p, i) => match p with
    | none => pure none
    | some p => do
      return some (← parameterKey p (Reference.join place ["parameters", toString i]), p)

/-- The parameters of an operation over those of its path item: the later of two equal ones counts,
at the place of the earlier. -/
def mergeParameters (item : PathItem) (o : Operation) (place : String) (method : Method) :
    Typing (List (Option Parameter)) := do
  let shared ← keyedParameters (item.parameters.getD []) place
  let own ← keyedParameters (o.parameters.getD []) (Reference.join place [method.name])
  return (OrderedMap.ofList (shared ++ own)).values.map some

end ApiTypes.Typing
