import MethodLift.Managed.Primitive

/-!
# Type definitions

A type definition has an identity: two definitions with the same name are still two. The identity is
the position in the table of loaded types, or the built-in type that the table had to supply. A
nested type knows the type it is declared in, which gives its full name `Outer/Inner`.

A generic parameter has an identity too. Its constraints are kept elsewhere, since they may mention
the parameter itself.
-/

namespace MethodLift

/-- The identity of a type definition. -/
inductive TypeId where
  | listed (index : Nat)
  | builtin (kind : Primitive)
  deriving DecidableEq, Repr

/-- What a type definition says about itself. -/
structure TypeInfo where
  id : TypeId
  space : String
  name : String
  isValueType : Bool := false
  /-- The names of its generic parameters. -/
  generics : List String := []
  deriving DecidableEq, Repr

inductive TypeDefinition where
  | topLevel (info : TypeInfo)
  | nested (outer : TypeDefinition) (info : TypeInfo)
  deriving DecidableEq, Repr

namespace TypeDefinition

def info : TypeDefinition → TypeInfo
  | topLevel i => i
  | nested _ i => i

def id (d : TypeDefinition) : TypeId := d.info.id

def name (d : TypeDefinition) : String := d.info.name

/-- The namespace. -/
def space (d : TypeDefinition) : String := d.info.space

def isValueType (d : TypeDefinition) : Bool := d.info.isValueType

/-- The number of generic parameters. -/
def arity (d : TypeDefinition) : Nat := d.info.generics.length

/-- `Namespace.Name`, or `Outer/Inner` for a nested type. -/
def fullName : TypeDefinition → String
  | topLevel i => if i.space.isEmpty then i.name else i.space ++ "." ++ i.name
  | nested outer i => outer.fullName ++ "/" ++ i.name

/-- The type is named `System.name`. -/
def isSystem (d : TypeDefinition) (name : String) : Bool := d.space == "System" && d.name == name

end TypeDefinition

/-- What a generic parameter belongs to. -/
inductive GenericOwner where
  | type | method
  deriving DecidableEq, Repr

def GenericOwner.name : GenericOwner → String
  | type => "Type"
  | method => "Method"

/-- The identity of a generic parameter: made while resolving metadata, or given by a host. -/
inductive ParameterId where
  | resolved (serial : Nat)
  | given (serial : Nat)
  deriving DecidableEq, Repr

structure GenericParameter where
  id : ParameterId
  name : String
  flags : Nat
  owner : GenericOwner
  /-- Position in the owner's parameter list. -/
  index : Nat
  deriving DecidableEq, Repr

end MethodLift
