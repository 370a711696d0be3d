import ApiTypes.Proofs.Boundedness
import ApiTypes.Proofs.Names
import ApiTypes.Proofs.Typing.DocumentCourse

/-!
Making types comes to an end, whatever cycles the references run in. If those that lead into other
documents are finitely many in the uniform spelling, then there is a bound on how much a resolver
need promise. From there on the promise does not matter, no reference leads too deep, and each
unfolding of the type of a schema goes to where fewer of these references are left, or to a smaller
schema.
-/

namespace ApiTypes.Typing

open Source (within)

/-- A request with a way to other documents that promises at most `reach` places there. -/
def Request.reaching (request : Request) (fetch : Option (String → Kind → Option Object))
    (reach : Nat) : Request :=
  { request with external := fetch.map (ExternalResolver.mk · reach) }

/-- From `bound` on, what is made of a document is `result`, and the references to `places` are used
up on the way. -/
structure Terminates (doc : Document) (request : Request)
    (fetch : Option (String → Kind → Option Object)) (bound : Nat) (places : List String)
    (result : Except Failure Output) : Prop where
  /-- Nothing that is made depends on how many steps are allowed for it. -/
  steady : ∀ reach, bound ≤ reach → generate doc (request.reaching fetch reach) = result
  /-- The steps that are allowed are never used up. -/
  ends : result ≠ .error (.typing .exhausted)
  /-- The rounds of the scan for discriminators go on until one finds nothing. -/
  scans : ∀ extra found r,
    (Discriminators.extend (within doc fetch bound).schemas
      ((within doc fetch bound).schemas.length + 1 + extra) found).run r =
    (Discriminators.extend (within doc fetch bound).schemas
      ((within doc fetch bound).schemas.length + 1) found).run r
  mem_places : ∀ key, key ∈ places ↔ key ∈ (within doc fetch bound).answered
  /-- What is gone to has fewer places that are not being written out, or is a smaller schema. -/
  descends : ∀ reach, bound ≤ reach → ∀ state next, Seen (within doc fetch reach) state →
    Calls (within doc fetch reach) state next →
      Prod.Lex (· < ·) (· < ·) (measure places next) (measure places state)
  /-- A schema is unfolded no more often than the places and its size say. -/
  unfolds : ∀ reach, bound ≤ reach → ∀ state, Seen (within doc fetch reach) state →
    ∀ steps, weight (within doc fetch reach) places state ≤ steps →
      ∀ σ p place, (within doc fetch reach).Knows p.resolver → p.inlining = state.1 →
        ∀ extra, exec (schemaBody (steps + extra) state.2 place) σ p =
          exec (schemaBody steps state.2 place) σ p

variable {doc : Document} {request : Request} {fetch : Option (String → Kind → Option Object)}

/-- A resolver that promises more than enough gives the same. -/
theorem generate_reaching {m n : Nat} (hbounded : (within doc fetch m).Bounded) (hle : m ≤ n) :
    generate doc (request.reaching fetch n) = generate doc (request.reaching fetch m) := by
  refine @generate_via doc (request.reaching fetch m) _ ⟨fun ref kind _ _ => ?_, ?_⟩
  · unfold Request.reaching
    cases fetch <;> rfl
  · cases fetch with
    | none => exact .inl rfl
    | some fetch => exact .inr ⟨hbounded, hle⟩

/-- In a bounded source the steps that are allowed suffice. -/
theorem generate_ne_exhausted {m : Nat} (hbounded : (within doc fetch m).Bounded) :
    generate doc (request.reaching fetch m) ≠ .error (.typing .exhausted) :=
  fun hrun => (along_document doc (request.reaching fetch m) none).fails .exhausted
    (exec_of_generate_error hrun) hbounded

theorem via_external {w : Source} {p : Progress} (h : w.Knows p.resolver) :
    p.via w.external = p := by
  unfold Progress.via Resolver.via
  rw [← h.external]

/-- If the references into other documents that lead to something are finitely many in the uniform
spelling, then making types terminates. -/
theorem generate_terminates (doc : Document) (request : Request)
    (fetch : Option (String → Kind → Option Object))
    (hfinite : (within doc fetch 0).answered.Finite) :
    ∃ bound places result, Terminates doc request fetch bound places result := by
  obtain ⟨bound, hcovers⟩ := Source.exists_covers hfinite
  refine ⟨bound, hfinite.toFinset.toList, generate doc (request.reaching fetch bound), ?_⟩
  have hbounded : (within doc fetch bound).Bounded := ⟨_, hcovers bound (Nat.le_refl _)⟩
  constructor
  case steady => exact fun reach hle => generate_reaching hbounded hle
  case ends => exact generate_ne_exhausted hbounded
  case scans => exact fun extra found r => Discriminators.extend_schemas_add extra found r
  case mem_places =>
    intro key
    rw [Finset.mem_toList, hfinite.mem_toFinset]
    exact ⟨fun ⟨o, ho⟩ => ⟨o, ho.within⟩, fun ⟨o, ho⟩ => ⟨o, ho.within⟩⟩
  case descends =>
    exact fun reach hle state next hstate hcall => hcall.measure_lt (hcovers reach hle) hstate
  case unfolds =>
    intro reach hle state hstate steps hsteps σ p place hknows hinl extra
    have hcourse := schemaBody_course (σ := σ) (v := (within doc fetch reach).external) steps extra
      hstate (fun _ => ⟨_, hcovers reach hle, hsteps⟩) fun _ => .inr ⟨_, hcovers reach hle⟩
    have hwide := (hcourse place).along p hknows hinl
    rw [via_external hknows] at hwide
    rw [hwide.follows (.refl _), via_external hwide.knows]

/-- A list whose nodes lie in another document, and a schema that is only a reference to itself. -/
def nodeDocument : Document where
  openapi := "3.1.0"
  components := some {
    schemas := some (.ofList [
      ("List", some { ref := "list.yaml#/Node" }),
      ("Loop", some { ref := "#/components/schemas/Loop" })]) }

/-- The nodes of the list, each of which refers to the next. -/
def fetchNode : String → Kind → Option Object
  | "list.yaml#/Node", .schema =>
    some (.schema { properties := some (.ofList [("next", some { ref := "list.yaml#/Node" })]) })
  | _, _ => none

theorem finite_answered_node : (within nodeDocument (some fetchNode) 0).answered.Finite := by
  refine (Set.finite_singleton (Reference.canonical "list.yaml#/Node")).subset ?_
  rintro key ⟨o, e, ref, kind, he, -, -, rfl, hfetch⟩
  cases he
  dsimp only [fetchNode] at hfetch
  split at hfetch
  · rfl
  · cases hfetch

/-- Cycles inside the document and in another one, which is reported. -/
theorem generate_terminates_node :
    (∃ output, generate nodeDocument (Request.reaching {} (some fetchNode) 1) = .ok output ∧
      output.warnings.map (·.kind) = [.refCycle]) ∧
    ∃ bound places result, Terminates nodeDocument {} (some fetchNode) bound places result :=
  ⟨exists_output (by decide +kernel), generate_terminates _ _ _ finite_answered_node⟩

end ApiTypes.Typing
