import MethodLift.Bytecode.Basic

/-!
# Values of a method under reconstruction

A local is a variable of the rebuilt body: `this`, a parameter, or a temporary made for the result
of an instruction. A value says what a register, a stack slot or an operand is known to hold. An
input of an action is a value together with the text it was read from; a missing value is what keeps
the action from being written as bytecode.
-/

namespace MethodLift

open MethodLift.Text

/-- Why an action has no bytecode. -/
inductive Taint where
  /-- No value is known for an operand. -/
  | missingOperand (what : String)
  | unresolvedCall (target : UInt64)
  | unresolvedField (what : String)
  /-- The operand is known, and is nothing that managed code could push. -/
  | notLoadable (what : String)
  | noComparison
  | unmodeledCondition
  /-- Control goes to an address outside the body. -/
  | leavesMethod (target : UInt64)
  | missingType (name : String)
  | stackArguments (count : Nat)
  /-- Registers and stack slots that change from one round of a loop to the next. -/
  | loopCarried (what : String)
  | unmodeled (what : String)
  deriving DecidableEq, Repr

def Taint.message : Taint → String
  | missingOperand what => "no value is known for " ++ what
  | unresolvedCall t => "call to unresolved function 0x" ++ hexUpper t.toNat
  | unresolvedField what => "no field matches " ++ what
  | notLoadable what => what ++ " cannot be pushed as a managed value"
  | noComparison => "conditional branch without a preceding compare"
  | unmodeledCondition => "branch condition is not reconstructed"
  | leavesMethod t => "control leaves the method towards 0x" ++ hexUpper t.toNat
  | missingType name => "type " ++ name ++ " could not be resolved"
  | stackArguments n => toString n ++ " arguments are passed on the stack"
  | loopCarried what => "loop-carried value in " ++ what ++ " is not reconstructed"
  | unmodeled what => what

/-! ## Locals -/

/-- What a local is; an argument slot counts `this` first, a temporary slot starts anew. Slots are
numbers of 16 bits, and so they wrap around. -/
inductive LocalKind where
  | this
  | parameter (slot : UInt16)
  | temporary (slot : UInt16)
  deriving DecidableEq, Repr

def LocalKind.render : LocalKind → String
  | this => "This"
  | parameter slot => "Parameter(" ++ toString slot ++ ")"
  | temporary slot => "Variable(" ++ toString slot ++ ")"

structure Local where
  /-- Position in the list of locals. -/
  id : Nat
  name : String
  type : Signature
  /-- The register the value came in. -/
  register : Option String
  kind : LocalKind
  deriving DecidableEq, Repr

namespace Local

def load (l : Local) : Bytecode :=
  match l.kind with
  | .this => .ldarg 0
  | .parameter slot => .ldarg slot
  | .temporary slot => .ldloc slot

def store (l : Local) : Bytecode :=
  match l.kind with
  | .this => .starg 0
  | .parameter slot => .starg slot
  | .temporary slot => .stloc slot

def isVariable (l : Local) : Bool :=
  match l.kind with
  | .temporary _ => true
  | _ => false

/-- A place in text for a local that is not in the list. -/
def placeholder (id : Nat) : String := "<local #" ++ toString id ++ ">"

end Local

/-- The locals of a method, each at the position of its id. -/
abbrev Locals := List Local

namespace Locals

def find (ls : Locals) (id : Nat) : Except Taint Local :=
  match ls[id]? with
  | some l => .ok l
  | none => .error (.missingOperand ("local #" ++ toString id))

def nameOf (ls : Locals) (id : Nat) : String :=
  match ls[id]? with
  | some l => l.name
  | none => Local.placeholder id

/-- Type and name, as where a variable is first assigned. -/
def declaration (ls : Locals) (id : Nat) : String :=
  match ls[id]? with
  | some l => l.type.render ++ " " ++ l.name
  | none => Local.placeholder id

def store (ls : Locals) (id : Nat) : Except Taint Bytecode := (ls.find id).map Local.store

end Locals

/-! ## Values -/

inductive Value where
  | local (id : Nat)
  | constant (c : Constant)
  /-- A field of the object in a local, or a static field. -/
  | field (object : Option Nat) (ref : FieldRef)
  /-- The runtime structure of a class. -/
  | classPointer (d : TypeDefinition)
  /-- The block of static fields of a class. -/
  | staticFields (d : TypeDefinition)
  deriving DecidableEq, Repr

namespace Value

/-- The local that is read along with the value. -/
def local? : Value → Option Nat
  | .local id => some id
  | field object _ => object
  | _ => none

def integer (value : Int64) (width : Nat) : Value := constant (.ofWidth value width)

def render (ls : Locals) : Value → String
  | .local id => ls.nameOf id
  | constant c => c.render
  | field (some id) f => ls.nameOf id ++ "." ++ f.name
  | field none f => f.owner.fullName ++ "." ++ f.name
  | classPointer d => "typeof(" ++ d.fullName ++ ")"
  | staticFields d => d.fullName ++ ".<statics>"

/-- The code that pushes the value. -/
def load (ls : Locals) (v : Value) : Except Taint (List Bytecode) :=
  match v with
  | .local id => do return [(← ls.find id).load]
  | constant c => .ok [.ofConstant c]
  | field (some id) f => do return [(← ls.find id).load, .ldfld f]
  | field none f => .ok [.ldsfld f]
  | classPointer _ | staticFields _ => .error (.notLoadable (v.render ls))

/-- Equality up to how constants and fields compare. -/
def same : Value → Value → Bool
  | constant c, constant d => c.same d
  | field i f, field j g => i == j && f.same g
  | a, b => a == b

end Value

/-! ## Inputs -/

/-- What an action reads. -/
structure Input where
  /-- The text the value was read from. -/
  origin : String
  value : Option Value
  deriving DecidableEq, Repr

namespace Input

def ofValue (origin : String) (v : Value) : Input := ⟨origin, some v⟩

def missing (origin : String) : Input := ⟨origin, none⟩

def local? (i : Input) : Option Nat := i.value.bind Value.local?

def load (ls : Locals) (i : Input) : Except Taint (List Bytecode) :=
  match i.value with
  | some v => v.load ls
  | none => .error (.missingOperand i.origin)

def render (ls : Locals) (i : Input) : String :=
  match i.value with
  | some v => v.render ls
  | none => "<unknown " ++ i.origin ++ ">"

end Input

end MethodLift
