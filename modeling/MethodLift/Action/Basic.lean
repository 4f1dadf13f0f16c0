import MethodLift.Action.Value
import MethodLift.Helper

/-!
# Actions

An action is one step of the rebuilt body with the native address it came from. Steps that only move
values between registers and the stack are kept too, since they explain where a value came from, but
they are bookkeeping: they show nothing in pseudocode and need no bytecode.

An action reads the locals in `consumed` and gives a value to the local in `produced`.
-/

namespace MethodLift

/-- The operands of the comparison that a conditional branch looks at. -/
structure Comparison where
  left : Input
  right : Input
  /-- The flags come from comparing the two values, not from a test of bits. -/
  modeled : Bool
  deriving DecidableEq, Repr

/-- What an action does. -/
inductive Effect where
  | arithmetic (op : ArithmeticOp) (left right : Input) (result : Nat)
  /-- Extend an integer into a new local. -/
  | convert (source : Input) (conversions : List Bytecode) (result : Nat)
  /-- A register receives a literal. -/
  | loadConstant (register : String) (value : Constant)
  /-- A register receives what another one holds. -/
  | copyRegister (destination : String) (source : Input)
  /-- A register is saved to a stack slot. -/
  | spill (register slot : String) (value : Option Value)
  /-- A register is loaded from a stack slot. -/
  | restore (register slot : String) (value : Option Value)
  /-- A register receives a class, a string literal or a static block. -/
  | loadGlobal (register : String) (address : Option UInt64) (value : Option Value)
  | readField (field : Input) (result : Option Nat)
  | writeField (field value : Input)
  | branch (condition : Condition) (comparison : Option Comparison) (target : UInt64)
    (inside : Bool)
  | jump (target : UInt64) (inside : Bool)
  | label (target : UInt64)
  | call (target : UInt64) (method : Option Method) (arguments : List Input) (stackArguments : Nat)
      (result : Option Nat)
  | allocate (type : Input) (result : Option Nat)
  | allocateArray (element length : Input) (result : Option Nat)
  | throw (exception : Input)
  /-- Throw a new exception of a type of the runtime. -/
  | throwNew (typeName : String) (type : Option TypeDefinition)
  | ret (value : Option Input)
  /-- A call into the runtime that managed code does not show. -/
  | helper (helper : Helper) (argument : Option Value)
  /-- An instruction that is not reconstructed. -/
  | unmodeled (instruction : String) (taint : Taint)
  deriving DecidableEq, Repr

namespace Effect

/-- The name of what an effect does. -/
def kindName : Effect → String
  | arithmetic .. => "Arithmetic"
  | convert .. => "Convert"
  | loadConstant .. => "ConstantLoad"
  | copyRegister .. => "RegisterCopy"
  | spill .. | restore .. => "StackSpill"
  | loadGlobal .. => "GlobalLoad"
  | readField .. => "FieldRead"
  | writeField .. => "FieldWrite"
  | branch .. => "ConditionalBranch"
  | jump .. => "Jump"
  | label .. => "Label"
  | call .. => "Call"
  | allocate .. => "Allocate"
  | allocateArray .. => "AllocateArray"
  | throw .. => "Throw"
  | throwNew .. => "ThrowNew"
  | ret .. => "Return"
  | helper .. => "RuntimeHelper"
  | unmodeled .. => "Unmodeled"

/-- The effect shows in the rebuilt body. -/
def isImportant : Effect → Bool
  | loadConstant .. | copyRegister .. | spill .. | restore .. | loadGlobal .. | helper .. => false
  | _ => true

/-- The inputs whose locals the effect reads. -/
def inputs : Effect → List Input
  | arithmetic _ left right _ => [left, right]
  | convert source _ _ => [source]
  | readField field _ => [field]
  | writeField field value => [field, value]
  | branch _ (some c) _ _ => [c.left, c.right]
  | call _ _ arguments _ _ => arguments
  | allocateArray _ length _ => [length]
  | throw exception => [exception]
  | ret (some value) => [value]
  | _ => []

/-- The locals the effect reads. -/
def consumed (e : Effect) : List Nat := e.inputs.filterMap Input.local?

/-- The local the effect gives a value to. -/
def produced : Effect → Option Nat
  | arithmetic _ _ _ result | convert _ _ result => some result
  | readField _ result | call _ _ _ _ result => result
  | allocate _ result | allocateArray _ _ result => result
  | _ => none

end Effect

structure Action where
  address : UInt64
  effect : Effect
  deriving DecidableEq, Repr

namespace Action

def isImportant (a : Action) : Bool := a.effect.isImportant

def consumed (a : Action) : List Nat := a.effect.consumed

def produced (a : Action) : Option Nat := a.effect.produced

end Action

end MethodLift
