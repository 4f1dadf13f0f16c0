import MethodLift.Proofs.Depth

/-!
# Requests to a resolver

A resolver is asked from outside for the type of a descriptor or for the generic parameter that a
descriptor names. Either way it does what `resolveWithin` does with enough layers, unless a
parameter is asked for where there is none (`perform_cases`). `Later` relates a resolver to what it
is after further requests, in whatever order and for whatever assembly, failed ones included.
-/

namespace MethodLift

namespace Resolve

/-- What a resolver is asked for. -/
inductive Request where
  | type (d : Descriptor)
  | parameter (d : Descriptor)

namespace Request

def descriptor : Request → Descriptor
  | type d | parameter d => d

/-- The row that a request names, if it names one. -/
def row? (request : Request) : Option UInt32 := request.descriptor.row?.map (·.2)

def perform (table : TypeTable) (metadata : Metadata) : Request → ResolveM Signature
  | type d => resolve table metadata d
  | parameter d => Signature.parameter <$> resolveParameter table metadata d

end Request

variable {table : TypeTable} {metadata : Metadata} {d : Descriptor} {s : ResolveState}
  {request : Request} {r r' : Resolver} {i : UInt32} {p : GenericParameter} {n : Nat}

theorem outcome_parameter_of_owner {owner : GenericOwner} (h : d.kind.owner? = some owner) :
    outcome (Signature.parameter <$> resolveParameter table metadata d) s =
      outcome (resolveWithin table metadata (metadata.depth + 1) d) s := by
  rw [resolveParameter, outcome_parameterLayer h, ← outcome_within_succ]

theorem outcome_parameter_of_none (h : d.kind.owner? = none) :
    outcome (Signature.parameter <$> resolveParameter table metadata d) s =
      (.error (.notAParameter d.kind), s) := by
  rw [resolveParameter, parameterLayer, ownerOf, h]
  rfl

/-- A request is a resolution with enough layers, or it is refused at once. -/
theorem perform_cases (table : TypeTable) (metadata : Metadata) (request : Request) :
    (∃ n, metadata.depth ≤ n ∧ ∀ s, outcome (request.perform table metadata) s =
        outcome (resolveWithin table metadata n request.descriptor) s) ∨
      request.row? = none ∧ ∀ s, outcome (request.perform table metadata) s =
        (.error (.notAParameter request.descriptor.kind), s) := by
  cases request with
  | type d => exact .inl ⟨metadata.depth, Nat.le_refl _, fun _ => rfl⟩
  | parameter d =>
    cases h : d.kind.owner? with
    | some owner =>
      exact .inl ⟨metadata.depth + 1, Nat.le_succ _, fun _ => outcome_parameter_of_owner h⟩
    | none =>
      exact .inr ⟨by simp [Request.row?, Request.descriptor, Descriptor.row?, h],
        fun _ => outcome_parameter_of_none h⟩

theorem outcome_of_cached {owner : GenericOwner} (hrow : d.row? = some (owner, i))
    (hp : s.resolver.parameters.get? i = some p) :
    outcome (resolveWithin table metadata (n + 1) d) s = (.ok (.parameter p), s) := by
  rw [outcome_within_succ, show opening table metadata d s = .known p by simp [opening, hrow, hp]]
  rfl

/-- A request for a row in the cache is answered from the cache. -/
theorem perform_of_cached (hrow : request.row? = some i)
    (hp : s.resolver.parameters.get? i = some p) :
    (outcome (request.perform table metadata) s).1 = .ok (.parameter p) := by
  obtain ⟨⟨owner, _⟩, hd, rfl⟩ := Option.map_eq_some_iff.mp hrow
  rcases perform_cases table metadata request with ⟨n, hle, hn⟩ | ⟨hnone, -⟩
  · obtain ⟨n, rfl⟩ : ∃ k, n = k + 1 := ⟨n - 1, by simp only [Metadata.depth] at hle; omega⟩
    rw [hn, outcome_of_cached hd hp]
  · rw [hrow] at hnone
    cases hnone

/-- One request later. Requests that do not end have no later. -/
def Next (table : TypeTable) (metadata : Metadata) (r r' : Resolver) : Prop :=
  ∃ (request : Request) (references : References),
    Ends (outcome (request.perform table metadata) ⟨r, references⟩) ∧
      (outcome (request.perform table metadata) ⟨r, references⟩).2.resolver = r'

/-- Any number of requests later. -/
def Later (table : TypeTable) (metadata : Metadata) : Resolver → Resolver → Prop :=
  Relation.ReflTransGen (Next table metadata)

theorem keeps_perform :
    s.resolver.Keeps (outcome (request.perform table metadata) s).2.resolver := by
  rcases perform_cases table metadata request with ⟨n, -, h⟩ | ⟨-, h⟩ <;> rw [h]
  · exact keeps_within
  · exact .refl _

theorem Later.keeps (h : Later table metadata r r') : r.Keeps r' := by
  induction h with
  | refl => exact .refl _
  | tail _ hnext ih =>
    obtain ⟨request, references, -, rfl⟩ := hnext
    exact ih.trans (keeps_perform (s := ⟨_, references⟩))

end Resolve

end MethodLift
