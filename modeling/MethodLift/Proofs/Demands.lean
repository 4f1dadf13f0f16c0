import Mathlib.Data.Set.Insert
import MethodLift.Metadata.Resolve

/-!
# What a descriptor asks for

Each layer of resolution goes the same way. The descriptor is opened, which may put a new parameter
into the cache. Its demands are answered one after the other, up to the first that fails. Then the
resolution is closed with what the answers make, or with the error. The demands of a descriptor can
be read off the metadata (`recipe`); the state decides only whether a parameter is known already.

`outcome_resolveLayer` says this of every descriptor. Later proofs go by it and by the three ways to
open a descriptor (`opens`), and never open the layer itself.
-/

namespace MethodLift

/-! ## Outcomes -/

namespace Resolve

variable {α β : Type} {s : ResolveState}

/-- What a computation answers in a state, and the state that it leaves. -/
def outcome (x : ResolveM α) (s : ResolveState) : Except ResolveError α × ResolveState :=
  x.run.run s

@[simp] theorem outcome_pure (a : α) : outcome (pure a) s = (.ok a, s) := rfl

@[simp] theorem outcome_throw (e : ResolveError) :
    outcome (throw e : ResolveM α) s = (.error e, s) := rfl

theorem outcome_get_bind (f : ResolveState → ResolveM α) :
    outcome (get >>= f) s = outcome (f s) s := rfl

theorem outcome_bind (x : ResolveM α) (f : α → ResolveM β) :
    outcome (x >>= f) s = match outcome x s with
      | (.ok a, t) => outcome (f a) t
      | (.error e, t) => (.error e, t) := by
  simp only [outcome, ExceptT.run_bind, StateT.run_bind]
  rcases (ExceptT.run x).run s with ⟨_ | a, t⟩ <;> rfl

theorem outcome_tryCatch (x : ResolveM α) (handle : ResolveError → ResolveM α) :
    outcome (tryCatch x handle) s = match outcome x s with
      | (.ok a, t) => (.ok a, t)
      | (.error e, t) => outcome (handle e) t := by
  change (ExceptT.tryCatch x handle).run.run s = _
  simp only [ExceptT.tryCatch, ExceptT.run, ExceptT.mk, outcome, StateT.run_bind]
  rcases StateT.run x s with ⟨_ | a, t⟩ <;> rfl

end Resolve

/-! ## Demands -/

/-- Something that has to be answered before the signature of a descriptor can be made. -/
inductive Demand where
  /-- A record is missing or of the wrong kind. -/
  | refused (e : ResolveError)
  /-- The metadata give the signature at once. -/
  | given (signature : Signature)
  /-- The signature of another descriptor. -/
  | type (d : Descriptor)
  /-- The definition that the signature of another descriptor is rooted at. -/
  | base (d : Descriptor)

/-- The descriptor that has to be resolved for a demand. -/
def Demand.target? : Demand → Option Descriptor
  | type d | base d => some d
  | refused _ | given _ => none

/-- The demand is not refused for an endless chain, and its target satisfies `P`. -/
def Demand.AimsAt (P : Descriptor → Prop) (q : Demand) : Prop :=
  q ≠ .refused .endless ∧ ∀ e, q.target? = some e → P e

instance : Inhabited Signature := ⟨.position .type 0⟩

/-- Demands in order, and the signature that their answers make. -/
structure Recipe where
  demands : List Demand
  make : List Signature → Signature

namespace Recipe

def refused (e : ResolveError) : Recipe := ⟨[.refused e], fun _ => default⟩

def known (d : TypeDefinition) : Recipe := ⟨[], fun _ => .definition d⟩

/-- A single demand, whose answer is wrapped. -/
def wrapped (q : Demand) (wrap : Signature → Signature) : Recipe :=
  ⟨[q], fun as => wrap (as.headD default)⟩

/-- A generic type: first its definition, then its arguments. -/
def applied (base : Demand) (arguments : List Demand) : Recipe where
  demands := base :: arguments
  make as :=
    match (as.headD default).root? with
    | some d => .applied d as.tail
    | none => default

@[simp] theorem demands_applied (base : Demand) (arguments : List Demand) :
    (applied base arguments).demands = base :: arguments := rfl

end Recipe

/-- The row that a descriptor of a generic parameter names, and what the parameter belongs to. -/
def Descriptor.row? (d : Descriptor) : Option (GenericOwner × UInt32) :=
  match d.kind.owner? with
  | some owner => if d.data.toNat < UInt32.size then some (owner, d.data.toUInt32) else none
  | none => none

/-- The descriptor holds a pointer to the second one, or leads to a record that does. Generic
arguments that are generic parameters are mentioned by position, and not followed. -/
inductive Metadata.PointsTo (m : Metadata) (d : Descriptor) : Descriptor → Prop
  | element {record : ArrayRecord} {e : Descriptor} (hd : d.kind = .array)
      (hrecord : m.arrays.get? d.data = some record) (he : m.types.get? record.element = some e) :
      m.PointsTo d e
  | item {e : Descriptor} (hd : d.kind = .szArray) (he : m.types.get? d.data = some e) :
      m.PointsTo d e
  | pointee {e : Descriptor} (hd : d.kind = .ptr) (he : m.types.get? d.data = some e) :
      m.PointsTo d e
  | base {record : GenericClassRecord} {e : Descriptor} (hd : d.kind = .genericInst)
      (hrecord : m.classes.get? d.data = some record) (hm : m.pointsToDefinition = true)
      (he : m.types.get? record.definition = some e) : m.PointsTo d e
  | argument {record : GenericClassRecord} {pointers : List UInt64} {p : UInt64} {e : Descriptor}
      (hd : d.kind = .genericInst) (hrecord : m.classes.get? d.data = some record)
      (hpointers : m.arguments.get? record.arguments = some pointers) (hp : p ∈ pointers)
      (he : m.types.get? p = some e) (hkind : e.kind.isGenericParameter = false) : m.PointsTo d e

theorem Metadata.PointsTo.exists_pointer {m : Metadata} {d e : Descriptor} (h : m.PointsTo d e) :
    ∃ p, m.types.get? p = some e := by
  cases h with
  | element _ _ he | item _ he | pointee _ he | base _ _ _ he => exact ⟨_, he⟩
  | argument _ _ _ _ he _ => exact ⟨_, he⟩

namespace Resolve

variable (table : TypeTable) (metadata : Metadata)

/-- A generic parameter by position. -/
def positionDemand (d : Descriptor) : Demand :=
  match d.kind.owner? with
  | none => .refused (.notAParameter d.kind)
  | some owner =>
    if d.data.toNat < UInt32.size then
      match metadata.parameters.get? d.data.toUInt32 with
      | some row => .given (.position owner row.index)
      | none => .refused (.missing (.genericParameter d.data.toUInt32.toUInt64))
    else .refused (.missing (.genericParameter d.data))

/-- An element or a pointee. -/
def typeDemand (pointer : UInt64) : Demand :=
  match metadata.types.get? pointer with
  | some d => .type d
  | none => .refused (.missing (.type pointer))

/-- An item of a vector or an argument. Generic parameters are mentioned by position there. -/
def itemDemand (missing : ResolveError) (pointer : UInt64) : Demand :=
  match metadata.types.get? pointer with
  | some d => if d.kind.isGenericParameter then positionDemand metadata d else .type d
  | none => .refused missing

/-- The definition of a generic type. -/
def baseDemand (record : GenericClassRecord) : Demand :=
  if metadata.pointsToDefinition then
    match metadata.types.get? record.definition with
    | some d => .base d
    | none => .refused (.missing (.type record.definition))
  else
    match table.types[record.definition.toNat]? with
    | some d => .given (.definition d)
    | none => .refused (.noDefinition record.definition)

def argumentDemands (pointer : UInt64) : List Demand :=
  match metadata.arguments.get? pointer with
  | some pointers => pointers.map fun p => itemDemand metadata (.missingArgument p) p
  | none => [.refused (.missing (.genericArguments pointer))]

/-- The demands of a descriptor, as far as the metadata tell. A generic parameter has none of its
own, unless there is no row for it. -/
def recipe (d : Descriptor) : Recipe :=
  match d.kind.primitive? with
  | some kind => .known (table.primitive kind)
  | none =>
    match d.kind with
    | .classType | .valueType =>
      match table.types[d.data.toNat]? with
      | some x => .known x
      | none => .refused (.noDefinition d.data)
    | .array =>
      match metadata.arrays.get? d.data with
      | some record => .wrapped (typeDemand metadata record.element) (.array · record.rank)
      | none => .refused (.missing (.array d.data))
    | .szArray => .wrapped (itemDemand metadata (.missing (.type d.data)) d.data) .vector
    | .ptr => .wrapped (typeDemand metadata d.data) .pointer
    | .genericInst =>
      match metadata.classes.get? d.data with
      | some record =>
        .applied (baseDemand table metadata record) (argumentDemands metadata record.arguments)
      | none => .refused (.missing (.genericClass d.data))
    | .var | .mvar => .refused (.missing (.genericParameter d.data))
    | _ => .known table.object

/-- The answer to a demand, with answers for the descriptors below. -/
def answer (below : Descriptor → ResolveM Signature) : Demand → ResolveM Signature
  | .refused e => throw e
  | .given signature => pure signature
  | .type d => below d
  | .base d => do
    match (← below d).root? with
    | some x => return .definition x
    | none => throw .noGenericBase

/-- The answers to a list of demands, up to the first that fails. -/
def answerAll (below : Descriptor → ResolveM Signature) (qs : List Demand) (s : ResolveState) :
    Except ResolveError (List Signature) × ResolveState :=
  outcome (qs.mapM (answer below)) s

end Resolve

/-! ## Opening and closing -/

namespace ResolveState

/-- Import the definition that a signature is rooted at. -/
def importRoot (s : ResolveState) (signature : Signature) : ResolveState :=
  match signature.root? with
  | some d => { s with references := s.references.importType d }
  | none => s

/-- The next parameter, if it is made for `row`. -/
def nextParameter (s : ResolveState) (owner : GenericOwner) (row : GenericRow) :
    GenericParameter :=
  { id := .resolved s.resolver.nextSerial, name := row.name, flags := row.flags, owner,
    index := row.index }

def addParameter (s : ResolveState) (index : UInt32) (p : GenericParameter) : ResolveState :=
  { s with resolver := { s.resolver with
    parameters := s.resolver.parameters.insert index p
    nextSerial := s.resolver.nextSerial + 1 } }

def setConstraints (s : ResolveState) (p : GenericParameter) (constraints : List Signature) :
    ResolveState :=
  { s with resolver := { s.resolver with
    constraints := s.resolver.constraints.insert p.id constraints } }

def forget (s : ResolveState) (index : UInt32) : ResolveState :=
  { s with resolver := { s.resolver with parameters := s.resolver.parameters.erase index } }

@[simp] theorem resolver_importRoot (s : ResolveState) (signature : Signature) :
    (s.importRoot signature).resolver = s.resolver := by
  unfold importRoot
  split <;> rfl

end ResolveState

namespace Resolve

/-- How the resolution of a descriptor begins. -/
inductive Opening where
  | follow (recipe : Recipe)
  /-- The parameter is in the cache. -/
  | known (p : GenericParameter)
  /-- The parameter is made, and its constraints are to be resolved. -/
  | populate (index : UInt32) (row : GenericRow) (p : GenericParameter)

def opening (table : TypeTable) (metadata : Metadata) (d : Descriptor) (s : ResolveState) :
    Opening :=
  match d.row? with
  | none => .follow (recipe table metadata d)
  | some (owner, index) =>
    match s.resolver.parameters.get? index with
    | some p => .known p
    | none =>
      match metadata.parameters.get? index with
      | some row => .populate index row (s.nextParameter owner row)
      | none => .follow (recipe table metadata d)

namespace Opening

def demands : Opening → List Demand
  | follow r => r.demands
  | known _ => []
  | populate _ row _ => row.constraints.map .type

/-- The state in which the demands are answered. -/
def enter (s : ResolveState) : Opening → ResolveState
  | populate index _ p => s.addParameter index p
  | follow _ | known _ => s

/-- The signature that the answers make. -/
def made (as : List Signature) : Opening → Signature
  | follow r => r.make as
  | known p | populate _ _ p => .parameter p

/-- The state once all demands are answered. -/
def settle (s : ResolveState) (as : List Signature) : Opening → ResolveState
  | follow r => s.importRoot (r.make as)
  | known _ => s
  | populate _ _ p => s.setConstraints p as

/-- The state once a demand has failed. -/
def abandon (s : ResolveState) : Opening → ResolveState
  | populate index _ _ => s.forget index
  | follow _ | known _ => s

def close (o : Opening) :
    Except ResolveError (List Signature) × ResolveState →
      Except ResolveError Signature × ResolveState
  | (.ok as, s) => (.ok (o.made as), o.settle s as)
  | (.error e, s) => (.error e, o.abandon s)

end Opening

variable {table : TypeTable} {metadata : Metadata} {below : Descriptor → ResolveM Signature}
  {d : Descriptor} {s : ResolveState}

/-- The three ways to open a descriptor. -/
inductive Opens (table : TypeTable) (metadata : Metadata) (d : Descriptor) (s : ResolveState) :
    Opening → Prop
  | follow (hrow : ∀ owner index, d.row? = some (owner, index) →
      s.resolver.parameters.get? index = none ∧ metadata.parameters.get? index = none) :
      Opens table metadata d s (.follow (recipe table metadata d))
  | known {owner : GenericOwner} {index : UInt32} {p : GenericParameter}
      (hrow : d.row? = some (owner, index)) (hp : s.resolver.parameters.get? index = some p) :
      Opens table metadata d s (.known p)
  | populate {owner : GenericOwner} {index : UInt32} {row : GenericRow}
      (hrow : d.row? = some (owner, index)) (hnew : s.resolver.parameters.get? index = none)
      (hget : metadata.parameters.get? index = some row) :
      Opens table metadata d s (.populate index row (s.nextParameter owner row))

theorem opens (table : TypeTable) (metadata : Metadata) (d : Descriptor) (s : ResolveState) :
    Opens table metadata d s (opening table metadata d s) := by
  unfold opening
  cases hrow : d.row? with
  | none => exact .follow (by simp [hrow])
  | some place =>
    obtain ⟨owner, index⟩ := place
    simp only
    cases hp : s.resolver.parameters.get? index with
    | some p => exact .known hrow hp
    | none =>
      cases hget : metadata.parameters.get? index with
      | some row => exact .populate hrow hp hget
      | none =>
        refine .follow fun owner' index' h => ?_
        rw [hrow] at h
        cases h
        exact ⟨hp, hget⟩

/-! ## Demands and pointers -/

theorem aimsAt_refused {e : ResolveError} {P : Descriptor → Prop} (h : e ≠ .endless) :
    (Demand.refused e).AimsAt P :=
  ⟨by simpa using h, by simp [Demand.target?]⟩

theorem aimsAt_type {P : Descriptor → Prop} (h : P d) : (Demand.type d).AimsAt P :=
  ⟨by simp, by simpa [Demand.target?] using h⟩

theorem aimsAt_positionDemand {P : Descriptor → Prop} : (positionDemand metadata d).AimsAt P := by
  unfold positionDemand
  cases d.kind.owner? with
  | none => exact aimsAt_refused (by simp)
  | some owner =>
    simp only
    split
    · cases metadata.parameters.get? d.data.toUInt32 with
      | none => exact aimsAt_refused (by simp)
      | some row => exact ⟨by simp, by simp [Demand.target?]⟩
    · exact aimsAt_refused (by simp)

theorem aimsAt_typeDemand {P : Descriptor → Prop} {p : UInt64}
    (h : ∀ e, metadata.types.get? p = some e → P e) : (typeDemand metadata p).AimsAt P := by
  unfold typeDemand
  cases hp : metadata.types.get? p with
  | none => exact aimsAt_refused (by simp)
  | some e => exact aimsAt_type (h e hp)

theorem aimsAt_itemDemand {P : Descriptor → Prop} {p : UInt64} {missing : ResolveError}
    (hmissing : missing ≠ .endless)
    (h : ∀ e, metadata.types.get? p = some e → e.kind.isGenericParameter = false → P e) :
    (itemDemand metadata missing p).AimsAt P := by
  unfold itemDemand
  cases hp : metadata.types.get? p with
  | none => exact aimsAt_refused hmissing
  | some e =>
    simp only
    split
    · exact aimsAt_positionDemand
    · exact aimsAt_type (h e hp (Bool.eq_false_iff.mpr ‹_›))

theorem aimsAt_baseDemand {P : Descriptor → Prop} {record : GenericClassRecord}
    (h : ∀ e, metadata.pointsToDefinition = true →
      metadata.types.get? record.definition = some e → P e) :
    (baseDemand table metadata record).AimsAt P := by
  unfold baseDemand
  split
  · cases hp : metadata.types.get? record.definition with
    | none => exact aimsAt_refused (by simp)
    | some e => exact ⟨by simp, by simpa [Demand.target?] using h e ‹_› hp⟩
  · cases table.types[record.definition.toNat]? with
    | none => exact aimsAt_refused (by simp)
    | some x => exact ⟨by simp, by simp [Demand.target?]⟩

theorem aimsAt_argumentDemands {P : Descriptor → Prop} {p : UInt64} {q : Demand}
    (h : ∀ pointers, metadata.arguments.get? p = some pointers → ∀ a ∈ pointers, ∀ e,
      metadata.types.get? a = some e → e.kind.isGenericParameter = false → P e)
    (hq : q ∈ argumentDemands metadata p) : q.AimsAt P := by
  unfold argumentDemands at hq
  cases hp : metadata.arguments.get? p with
  | none =>
    simp only [hp, List.mem_singleton] at hq
    exact hq ▸ aimsAt_refused (by simp)
  | some pointers =>
    simp only [hp, List.mem_map] at hq
    obtain ⟨a, ha, rfl⟩ := hq
    exact aimsAt_itemDemand (by simp) (h pointers hp a ha)

/-- The demands of a descriptor have their targets where the descriptor points to. -/
theorem aimsAt_of_mem_recipe {q : Demand} (h : q ∈ (recipe table metadata d).demands) :
    q.AimsAt (metadata.PointsTo d) := by
  obtain ⟨kind, data, byRef⟩ := d
  cases kind
  case classType | valueType =>
    simp only [recipe, TypeKind.primitive?] at h
    cases hx : table.types[data.toNat]? with
    | none =>
      simp only [hx, Recipe.refused, List.mem_singleton] at h
      exact h ▸ aimsAt_refused (by simp)
    | some x => simp [hx, Recipe.known] at h
  case array =>
    simp only [recipe, TypeKind.primitive?] at h
    cases hr : metadata.arrays.get? data with
    | none =>
      simp only [hr, Recipe.refused, List.mem_singleton] at h
      exact h ▸ aimsAt_refused (by simp)
    | some record =>
      simp only [hr, Recipe.wrapped, List.mem_singleton] at h
      exact h ▸ aimsAt_typeDemand fun e he => .element rfl hr he
  case szArray =>
    simp only [recipe, TypeKind.primitive?, Recipe.wrapped, List.mem_singleton] at h
    exact h ▸ aimsAt_itemDemand (by simp) fun e he _ => .item rfl he
  case ptr =>
    simp only [recipe, TypeKind.primitive?, Recipe.wrapped, List.mem_singleton] at h
    exact h ▸ aimsAt_typeDemand fun e he => .pointee rfl he
  case genericInst =>
    simp only [recipe, TypeKind.primitive?] at h
    cases hr : metadata.classes.get? data with
    | none =>
      simp only [hr, Recipe.refused, List.mem_singleton] at h
      exact h ▸ aimsAt_refused (by simp)
    | some record =>
      simp only [hr, Recipe.applied, List.mem_cons] at h
      rcases h with rfl | h
      · exact aimsAt_baseDemand fun e hm he => .base rfl hr hm he
      · exact aimsAt_argumentDemands
          (fun pointers hpointers a ha e he hkind => .argument rfl hr hpointers ha he hkind) h
  case var | mvar =>
    simp only [recipe, TypeKind.primitive?, Recipe.refused, List.mem_singleton] at h
    exact h ▸ aimsAt_refused (by simp)
  all_goals simp [recipe, TypeKind.primitive?, Recipe.known] at h

/-! ## The equation of a layer -/

theorem answerAll_cons_of_error {q : Demand} {qs : List Demand} {e : ResolveError}
    {t : ResolveState} (h : outcome (answer below q) s = (.error e, t)) :
    answerAll below (q :: qs) s = (.error e, t) := by
  rw [answerAll, List.mapM_cons, outcome_bind, h]

theorem answerAll_cons_of_ok {q : Demand} {qs : List Demand} {a : Signature} {t : ResolveState}
    (h : outcome (answer below q) s = (.ok a, t)) :
    answerAll below (q :: qs) s =
      ((answerAll below qs t).1.map (a :: ·), (answerAll below qs t).2) := by
  rw [answerAll, List.mapM_cons, outcome_bind, h]
  simp only [outcome_bind, answerAll]
  rcases outcome (qs.mapM (answer below)) t with ⟨_ | as, u⟩ <;> rfl

theorem positionOf_eq (below : Descriptor → ResolveM Signature) :
    positionOf metadata d = answer below (positionDemand metadata d) := by
  unfold positionOf positionDemand ownerOf rowIndex rowAt
  cases d.kind.owner? with
  | none => rfl
  | some owner =>
    by_cases hd : d.data.toNat < UInt32.size
    · simp only [hd, if_true, pure_bind]
      cases metadata.parameters.get? d.data.toUInt32 <;> rfl
    · simp only [hd, if_false]
      rfl

theorem genericBase_eq {record : GenericClassRecord} :
    Signature.definition <$> genericBase table metadata below record =
      answer below (baseDemand table metadata record) := by
  unfold genericBase baseDemand definitionAt descriptorAt
  cases metadata.pointsToDefinition with
  | false => cases table.types[record.definition.toNat]? <;> rfl
  | true =>
    cases metadata.types.get? record.definition with
    | none => rfl
    | some b =>
      simp only [map_eq_pure_bind, if_true, pure_bind, bind_assoc, answer]
      congr 1
      funext signature
      cases signature.root? <;> rfl

theorem genericArgument_eq {p : UInt64} :
    genericArgument metadata below p =
      answer below (itemDemand metadata (.missingArgument p) p) := by
  unfold genericArgument itemDemand
  cases metadata.types.get? p with
  | none => rfl
  | some d =>
    cases h : d.kind.isGenericParameter with
    | false => simp [h, answer]
    | true => simpa [h] using positionOf_eq below

/-- A recipe followed to its end. -/
def follow (below : Descriptor → ResolveM Signature) (r : Recipe) : ResolveM Signature := do
  let as ← r.demands.mapM (answer below)
  modify fun s => s.importRoot (r.make as)
  return r.make as

theorem outcome_follow (r : Recipe) :
    outcome (follow below r) s = (Opening.follow r).close (answerAll below r.demands s) := by
  rw [follow, outcome_bind, answerAll]
  rcases outcome (r.demands.mapM (answer below)) s with ⟨_ | as, t⟩ <;> rfl

theorem follow_wrapped {q : Demand} {wrap : Signature → Signature}
    (hwrap : ∀ a, (wrap a).root? = none) :
    follow below (.wrapped q wrap) = wrap <$> answer below q := by
  simp only [follow, Recipe.wrapped, List.mapM_cons, List.mapM_nil, pure_bind, bind_assoc,
    map_eq_pure_bind, ResolveState.importRoot, hwrap]
  rfl

theorem genericInstance_eq {record : GenericClassRecord}
    (h : metadata.classes.get? d.data = some record) :
    genericInstance table metadata below d =
      follow below (.applied (baseDemand table metadata record)
        (argumentDemands metadata record.arguments)) := by
  unfold genericInstance
  simp only [h, follow, Recipe.applied, List.mapM_cons, bind_assoc]
  rw [← genericBase_eq]
  simp only [map_eq_pure_bind, bind_assoc, pure_bind]
  congr 1
  funext x
  unfold argumentDemands
  cases metadata.arguments.get? record.arguments with
  | none => rfl
  | some pointers =>
    simp only [List.mapM_map]
    rw [show genericArgument metadata below =
      fun p => answer below (itemDemand metadata (.missingArgument p) p) from
      funext fun _ => genericArgument_eq]
    rfl

/-- Without a generic parameter a layer follows the recipe. -/
theorem resolveLayer_eq_follow (h : d.kind.owner? = none) :
    resolveLayer table metadata below d = follow below (recipe table metadata d) := by
  obtain ⟨kind, data, byRef⟩ := d
  cases kind
  case var | mvar => cases h
  case classType | valueType =>
    simp only [resolveLayer, recipe, TypeKind.primitive?, definitionAt]
    cases table.types[data.toNat]? <;> rfl
  case array =>
    simp only [resolveLayer, recipe, TypeKind.primitive?, descriptorAt, typeDemand]
    cases metadata.arrays.get? data with
    | none => rfl
    | some record =>
      simp only
      rw [follow_wrapped fun _ => rfl]
      cases metadata.types.get? record.element with
      | none => rfl
      | some e => simp [answer]
  case szArray =>
    simp only [resolveLayer, recipe, TypeKind.primitive?, descriptorAt, itemDemand]
    rw [follow_wrapped fun _ => rfl]
    cases metadata.types.get? data with
    | none => rfl
    | some e =>
      cases he : e.kind.isGenericParameter with
      | false => simp [he, answer]
      | true => simp [he, positionOf_eq below]
  case ptr =>
    simp only [resolveLayer, recipe, TypeKind.primitive?, descriptorAt, typeDemand]
    rw [follow_wrapped fun _ => rfl]
    cases metadata.types.get? data with
    | none => rfl
    | some e => simp [answer]
  case genericInst =>
    simp only [resolveLayer, recipe, TypeKind.primitive?]
    cases hc : metadata.classes.get? data with
    | none => simp only [genericInstance, hc]; rfl
    | some record => exact genericInstance_eq hc
  all_goals rfl

theorem recipe_of_owner {owner : GenericOwner} (h : d.kind.owner? = some owner) :
    recipe table metadata d = .refused (.missing (.genericParameter d.data)) := by
  obtain ⟨kind, data, byRef⟩ := d
  cases kind
  case var | mvar => rfl
  all_goals cases h

theorem recipe_of_row? {owner : GenericOwner} {i : UInt32} (h : d.row? = some (owner, i)) :
    recipe table metadata d = .refused (.missing (.genericParameter d.data)) := by
  cases ho : d.kind.owner? with
  | none => simp [Descriptor.row?, ho] at h
  | some owner' => exact recipe_of_owner ho

theorem toUInt64_toUInt32 {w : UInt64} (h : w.toNat < UInt32.size) : w.toUInt32.toUInt64 = w := by
  apply UInt64.toNat_inj.mp
  simp only [UInt32.toNat_toUInt64, UInt64.toNat_toUInt32]
  exact Nat.mod_eq_of_lt h

/-- A generic parameter is taken from the cache, or made and populated. -/
theorem outcome_parameterLayer {owner : GenericOwner} (h : d.kind.owner? = some owner) :
    outcome (Signature.parameter <$> parameterLayer metadata below d) s =
      (opening table metadata d s).close (answerAll below (opening table metadata d s).demands
        ((opening table metadata d s).enter s)) := by
  unfold parameterLayer opening ownerOf rowIndex rowAt Descriptor.row?
  by_cases hd : d.data.toNat < UInt32.size
  · simp only [h, hd, if_true, pure_bind, map_eq_pure_bind, bind_assoc, outcome_get_bind]
    cases s.resolver.parameters.get? d.data.toUInt32 with
    | some p => rfl
    | none =>
      cases metadata.parameters.get? d.data.toUInt32 with
      | none =>
        rw [recipe_of_owner h, toUInt64_toUInt32 hd]
        rfl
      | some row =>
        simp only [Opening.demands, Opening.enter, answerAll, List.mapM_map, pure_bind, bind_assoc]
        rw [outcome_bind, show outcome (newParameter owner d.data.toUInt32 row) s =
          (.ok (s.nextParameter owner row),
            s.addParameter d.data.toUInt32 (s.nextParameter owner row)) from rfl]
        simp only [outcome_bind, outcome_tryCatch]
        change _ = Opening.close _ (outcome (row.constraints.mapM below) _)
        rcases outcome (row.constraints.mapM below)
          (s.addParameter d.data.toUInt32 (s.nextParameter owner row)) with ⟨_ | as, t⟩ <;> rfl
  · simp only [h, hd, if_false, pure_bind]
    rw [recipe_of_owner h]
    rfl

/-- A layer opens the descriptor, has its demands answered and closes with the answers. -/
theorem outcome_resolveLayer :
    outcome (resolveLayer table metadata below d) s =
      (opening table metadata d s).close (answerAll below (opening table metadata d s).demands
        ((opening table metadata d s).enter s)) := by
  cases h : d.kind.owner? with
  | none =>
    rw [resolveLayer_eq_follow h, outcome_follow]
    simp [opening, Descriptor.row?, h, Opening.demands, Opening.enter]
  | some owner =>
    rw [← outcome_parameterLayer h]
    obtain ⟨kind, data, byRef⟩ := d
    cases kind
    case var | mvar => simp [resolveLayer, TypeKind.primitive?]
    all_goals cases h

end Resolve

end MethodLift
