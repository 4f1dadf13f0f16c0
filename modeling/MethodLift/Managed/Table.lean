import MethodLift.FinMap
import MethodLift.Managed.Signature

/-!
# The table of loaded types

The loaded types in order, and the fields of those that have any. A built-in type is the loaded type
of its name if there is one; otherwise the table supplies a definition.
-/

namespace MethodLift

structure TypeTable where
  types : List TypeDefinition
  fields : FinMap TypeId (List Field) := ∅
  deriving DecidableEq, Repr

namespace TypeTable

/-- The definition of a built-in type that is not loaded. -/
def supplied (kind : Primitive) : TypeDefinition :=
  .topLevel ⟨.builtin kind, "System", kind.name, kind.isValueType, []⟩

/-- A loaded type that stands for a built-in type. -/
def standsFor (kind : Primitive) : TypeDefinition → Bool
  | .topLevel i => i.space == "System" && i.name == kind.name
  | .nested _ _ => false

def primitive (t : TypeTable) (kind : Primitive) : TypeDefinition :=
  (t.types.find? (standsFor kind)).getD (supplied kind)

def object (t : TypeTable) : TypeDefinition := t.primitive .object

/-- Give a type its fields, once. -/
def setFields? (t : TypeTable) (d : TypeDefinition) (fields : List Field) : Option TypeTable :=
  if t.fields.contains d.id then none else some { t with fields := t.fields.insert d.id fields }

def fieldsOf (t : TypeTable) (d : TypeDefinition) : List Field := (t.fields.get? d.id).getD []

/-- The first instance field at `offset`. -/
def instanceField? (t : TypeTable) (d : TypeDefinition) (offset : UInt32) : Option Field :=
  (t.fieldsOf d).find? fun f => !f.isStatic && f.offset == offset

/-- The first static field at `offset`. -/
def staticField? (t : TypeTable) (d : TypeDefinition) (offset : UInt32) : Option Field :=
  (t.fieldsOf d).find? fun f => f.isStatic && f.offset == offset

end TypeTable

end MethodLift
