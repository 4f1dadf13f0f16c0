import MethodLift.Managed.Name
import MethodLift.Managed.References
import MethodLift.Metadata.Record
import MethodLift.Text.Number
import MethodLift.Text.Quoted

/-!
# From metadata records to signatures

`Resolver.resolve` follows a descriptor through the metadata and gives the signature it stands for.
What it mentions is imported on the way, also on a way that fails in the end.

Generic parameters are remembered by their row. A parameter is put into the cache before its
constraints are resolved, so that a constraint that leads back to it finds it there; if a constraint
fails, the parameter leaves the cache again.

Resolution is stated as one layer (`resolveLayer`) over an answer for the descriptors below it.
Along a chain of pointers no descriptor repeats unless the chain is endless, and a chain passes
through each parameter once, so `Metadata.depth` layers are enough; a chain that is longer has no
end and is an error.
-/

namespace MethodLift

open MethodLift.Text

/-- A record that is not in the metadata. -/
inductive MissingRecord where
  | type (pointer : UInt64)
  | array (pointer : UInt64)
  | genericClass (pointer : UInt64)
  | genericArguments (pointer : UInt64)
  | genericParameter (index : UInt64)
  deriving DecidableEq, Repr

def MissingRecord.render : MissingRecord → String
  | type p => "type descriptor at 0x" ++ hex p.toNat
  | array p => "array type at 0x" ++ hex p.toNat
  | genericClass p => "generic class at 0x" ++ hex p.toNat
  | genericArguments p => "generic inst at 0x" ++ hex p.toNat
  | genericParameter i => "generic parameter " ++ toString i.toNat

inductive ResolveError where
  /-- No definition has this index. -/
  | noDefinition (index : UInt64)
  /-- The base of a generic type is no definition. -/
  | noGenericBase
  /-- The descriptor is no generic parameter. -/
  | notAParameter (kind : TypeKind)
  /-- No descriptor where a generic argument points to. -/
  | missingArgument (pointer : UInt64)
  | missing (record : MissingRecord)
  /-- The chain of pointers has no end. -/
  | endless
  deriving DecidableEq, Repr

def ResolveError.message : ResolveError → String
  | noDefinition i => "Unable to resolve type definition index " ++ toString i.toNat
  | noGenericBase => "Unable to resolve base type for generic instance"
  | notAParameter k => "Can't import " ++ k.name ++ " as a generic parameter because it isn't one"
  | missingArgument p => "Generic argument descriptor at 0x" ++ hex p.toNat ++ " is missing"
  | missing r => "Missing metadata: " ++ r.render
  | endless => "Descriptors form an endless chain"

/-- What resolution remembers. -/
structure Resolver where
  names : NameCache := {}
  /-- Generic parameters by their row. -/
  parameters : FinMap UInt32 GenericParameter := ∅
  /-- The constraints of each parameter whose resolution finished. -/
  constraints : FinMap ParameterId (List Signature) := ∅
  /-- The serial number of the next parameter. -/
  nextSerial : Nat := 0
  deriving DecidableEq, Repr

/-- The constraints of a parameter, none before they are resolved. -/
def Resolver.constraintsOf (r : Resolver) (p : GenericParameter) : List Signature :=
  (r.constraints.get? p.id).getD []

/-- A parameter in full, with the number of its constraints. -/
def Resolver.describe (r : Resolver) (p : GenericParameter) : String :=
  "GenericParameter \x7b name: " ++ quoted p.name ++ ", flags: " ++ toString p.flags ++
    ", kind: " ++ p.owner.name ++ ", index_in_owner: " ++ toString p.index ++ ", constraints: " ++
    toString (r.constraintsOf p).length ++ " \x7d"

/-- The state of resolution: the caches and the references of the assembly that is written. -/
structure ResolveState where
  resolver : Resolver := {}
  references : References
  deriving DecidableEq, Repr

/-- A computation that keeps its effects when it fails. -/
abbrev ResolveM := ExceptT ResolveError (StateM ResolveState)

namespace Resolve

variable (table : TypeTable) (metadata : Metadata)

/-- Import a definition and name it. -/
def importDefinition (d : TypeDefinition) : ResolveM Signature := do
  modify fun s => { s with references := s.references.importType d }
  return .definition d

def definitionAt (index : UInt64) : ResolveM TypeDefinition :=
  match table.types[index.toNat]? with
  | some d => pure d
  | none => throw (.noDefinition index)

def descriptorAt (pointer : UInt64) : ResolveM Descriptor :=
  match metadata.types.get? pointer with
  | some d => pure d
  | none => throw (.missing (.type pointer))

/-- The row a descriptor of a generic parameter names. -/
def rowIndex (d : Descriptor) : ResolveM UInt32 :=
  if d.data.toNat < UInt32.size then pure d.data.toUInt32
  else throw (.missing (.genericParameter d.data))

def ownerOf (d : Descriptor) : ResolveM GenericOwner :=
  match d.kind.owner? with
  | some o => pure o
  | none => throw (.notAParameter d.kind)

def rowAt (index : UInt32) : ResolveM GenericRow :=
  match metadata.parameters.get? index with
  | some row => pure row
  | none => throw (.missing (.genericParameter index.toUInt64))

/-- A generic parameter by position, as generic arguments mention it. -/
def positionOf (d : Descriptor) : ResolveM Signature := do
  let owner ← ownerOf d
  let row ← rowAt metadata (← rowIndex d)
  return .position owner row.index

/-- A new parameter for a row, put into the cache without constraints. -/
def newParameter (owner : GenericOwner) (index : UInt32) (row : GenericRow) :
    ResolveM GenericParameter := do
  let s ← get
  let p : GenericParameter :=
    { id := .resolved s.resolver.nextSerial, name := row.name, flags := row.flags, owner,
      index := row.index }
  let resolver := { s.resolver with
    parameters := s.resolver.parameters.insert index p
    nextSerial := s.resolver.nextSerial + 1 }
  set { s with resolver }
  return p

def setConstraints (p : GenericParameter) (constraints : List Signature) : ResolveM Unit :=
  modify fun s => { s with resolver := { s.resolver with
    constraints := s.resolver.constraints.insert p.id constraints } }

def forgetParameter (index : UInt32) : ResolveM Unit :=
  modify fun s => { s with resolver := { s.resolver with
    parameters := s.resolver.parameters.erase index } }

section Layer

/- The answer for the descriptors below. -/
variable (below : Descriptor → ResolveM Signature)

/-- The generic parameter a descriptor names, from the cache or with its constraints resolved. -/
def parameterLayer (d : Descriptor) : ResolveM GenericParameter := do
  let owner ← ownerOf d
  let index ← rowIndex d
  match (← get).resolver.parameters.get? index with
  | some p => return p
  | none =>
    let row ← rowAt metadata index
    let p ← newParameter owner index row
    try
      setConstraints p (← row.constraints.mapM below)
    catch e =>
      forgetParameter index
      throw e
    return p

/-- The definition a generic type is made from. -/
def genericBase (record : GenericClassRecord) : ResolveM TypeDefinition := do
  if metadata.pointsToDefinition then
    let base ← below (← descriptorAt metadata record.definition)
    match base.root? with
    | some d => return d
    | none => throw .noGenericBase
  else definitionAt table record.definition

def genericArgument (pointer : UInt64) : ResolveM Signature :=
  match metadata.types.get? pointer with
  | none => throw (.missingArgument pointer)
  | some d => if d.kind.isGenericParameter then positionOf metadata d else below d

/-- A generic type; it is imported only once all arguments are resolved. -/
def genericInstance (d : Descriptor) : ResolveM Signature := do
  match metadata.classes.get? d.data with
  | none => throw (.missing (.genericClass d.data))
  | some record =>
    let base ← genericBase table metadata below record
    match metadata.arguments.get? record.arguments with
    | none => throw (.missing (.genericArguments record.arguments))
    | some pointers =>
      let arguments ← pointers.mapM (genericArgument metadata below)
      let _ ← importDefinition base
      return .applied base arguments

/-- The signature of a descriptor. A kind without a meaning here stands for the base class. -/
def resolveLayer (d : Descriptor) : ResolveM Signature := do
  match d.kind.primitive? with
  | some kind => importDefinition (table.primitive kind)
  | none =>
    match d.kind with
    | .classType | .valueType => importDefinition (← definitionAt table d.data)
    | .array =>
      match metadata.arrays.get? d.data with
      | none => throw (.missing (.array d.data))
      | some record =>
        let element ← below (← descriptorAt metadata record.element)
        return .array element record.rank
    | .szArray =>
      let element ← descriptorAt metadata d.data
      if element.kind.isGenericParameter then return .vector (← positionOf metadata element)
      else return .vector (← below element)
    | .ptr => return .pointer (← below (← descriptorAt metadata d.data))
    | .genericInst => genericInstance table metadata below d
    | .var | .mvar => return .parameter (← parameterLayer metadata below d)
    | _ => importDefinition table.object

end Layer

/-- The signature of a descriptor, at most `depth` layers deep. -/
def resolveWithin : Nat → Descriptor → ResolveM Signature
  | 0, _ => throw .endless
  | depth + 1, d => resolveLayer table metadata (resolveWithin depth) d

end Resolve

/-- More layers than any chain of pointers that ends. -/
def Metadata.depth (m : Metadata) : Nat := (m.types.size + 1) * (m.parameters.size + 1) + 1

/-- The signature a descriptor stands for. -/
def resolve (table : TypeTable) (metadata : Metadata) (d : Descriptor) : ResolveM Signature :=
  Resolve.resolveWithin table metadata metadata.depth d

/-- The generic parameter a descriptor names. -/
def resolveParameter (table : TypeTable) (metadata : Metadata) (d : Descriptor) :
    ResolveM GenericParameter :=
  Resolve.parameterLayer metadata (Resolve.resolveWithin table metadata metadata.depth) d

end MethodLift
