import MethodLift.Managed.Signature

/-!
# Managed methods

A method by its signature and owner. Two methods are the same only if their tokens are, so that
overloads loaded twice stay apart.
-/

namespace MethodLift

/-- How a method is implemented. -/
inductive Implementation where
  | managed | abstract | internalCall | pinvoke | native | runtime
  deriving DecidableEq, Repr

structure Parameter where
  name : String
  type : Signature
  deriving DecidableEq, Repr

structure Method where
  /-- The identity of the method. -/
  token : Nat
  name : String
  owner : TypeDefinition
  returnType : Signature
  isStatic : Bool := false
  parameters : List Parameter := []
  implementation : Implementation := .managed
  deriving DecidableEq, Repr

namespace Method

/-- The method has a body to rebuild. -/
def hasBody (m : Method) : Bool := m.implementation == .managed

def returnsVoid (m : Method) : Bool := m.returnType.isVoid

/-- `Namespace.Type::Name`. -/
def fullName (m : Method) : String := m.owner.fullName ++ "::" ++ m.name

def render (m : Method) : String :=
  let parameters := m.parameters.map fun p => p.type.render ++ " " ++ p.name
  (if m.isStatic then "static " else "") ++ m.returnType.render ++ " " ++ m.fullName ++ "(" ++
    ", ".intercalate parameters ++ ")"

end Method

end MethodLift
