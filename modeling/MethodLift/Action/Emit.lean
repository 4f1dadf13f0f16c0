import MethodLift.Action.Basic

/-!
# Bytecode of actions

`Action.bytecode` is the code that does what an action does, or the taint that stands in its way.
A body is emitted as a whole or not at all: `emitAll` fails with the first tainted action.
-/

namespace MethodLift

open MethodLift.Text

/-- An action without bytecode. -/
structure TaintedAction where
  address : UInt64
  taint : Taint
  deriving DecidableEq, Repr

def TaintedAction.message (t : TaintedAction) : String :=
  "Tainted action at 0x" ++ hexUpper t.address.toNat ++ ": " ++ t.taint.message

/-- The inputs' code, one after another. -/
def loadAll (ls : Locals) : List Input → Except Taint (List Bytecode)
  | [] => .ok []
  | i :: is => do
    let first ← i.load ls
    let rest ← loadAll ls is
    return first ++ rest

namespace Comparison

/-- The right side is the integer zero. -/
def isWithZero (c : Comparison) : Bool :=
  match c.right.value with
  | some (.constant k) => k.isZero
  | _ => false

/-- Compare and branch; a test for zero needs one operand only. -/
def branchCode (ls : Locals) (c : Comparison) (condition : Condition) (target : UInt64) :
    Except Taint (List Bytecode) := do
  if !c.modeled then throw .unmodeledCondition
  let left ← c.left.load ls
  if c.isWithZero && condition == .equal then return left ++ [.brfalse target]
  if c.isWithZero && condition == .notEqual then return left ++ [.brtrue target]
  let right ← c.right.load ls
  match condition.test? with
  | some test => return left ++ right ++ [.branch test target]
  | none => throw .unmodeledCondition

end Comparison

/-- The code of an effect. -/
def Effect.bytecode (ls : Locals) : Effect → Except Taint (List Bytecode)
  | arithmetic op left right result => do
    let code ← loadAll ls [left, right]
    return code ++ [.arithmetic op, ← ls.store result]
  | convert source conversions result => do
    let code ← source.load ls
    return code ++ conversions ++ [← ls.store result]
  | loadConstant .. | copyRegister .. | spill .. | restore .. | loadGlobal .. | helper .. => .ok []
  | readField ⟨_, some value⟩ (some result) => do
    let code ← value.load ls
    return code ++ [← ls.store result]
  | readField field _ => .error (.unresolvedField field.origin)
  | writeField ⟨_, some (.field (some object) ref)⟩ value => do
    let object ← ls.find object
    return object.load :: (← value.load ls) ++ [.stfld ref]
  | writeField ⟨_, some (.field none ref)⟩ value => do
    return (← value.load ls) ++ [.stsfld ref]
  | writeField field _ => .error (.unresolvedField field.origin)
  | branch condition comparison target inside =>
    if !inside then .error (.leavesMethod target)
    else
      match comparison with
      | none => .error .noComparison
      | some c => c.branchCode ls condition target
  | jump target inside => if inside then .ok [.br target] else .error (.leavesMethod target)
  | label target => .ok [.label target]
  | call target none _ _ _ => .error (.unresolvedCall target)
  | call _ (some method) arguments stackArguments result =>
    if 0 < stackArguments then .error (.stackArguments stackArguments)
    else do
      let code ← loadAll ls arguments
      match result with
      | some result => return code ++ [.call method, ← ls.store result]
      | none => return code ++ [.call method]
  | allocate ⟨_, some (.classPointer d)⟩ (some result) => do
    return [.newobj (.definition d), ← ls.store result]
  | allocate type _ => .error (.missingOperand type.origin)
  | allocateArray ⟨_, some (.classPointer d)⟩ length (some result) => do
    let code ← length.load ls
    return code ++ [.newarr (.definition d), ← ls.store result]
  | allocateArray element _ _ => .error (.missingOperand element.origin)
  | throw exception => do return (← exception.load ls) ++ [.throw]
  | throwNew _ (some d) => .ok [.newobj (.definition d), .throw]
  | throwNew typeName none => .error (.missingType typeName)
  | ret none => .ok [.ret]
  | ret (some value) => do return (← value.load ls) ++ [.ret]
  | unmodeled _ taint => .error taint

namespace Action

/-- The code of an action. -/
def bytecode (ls : Locals) (a : Action) : Except TaintedAction (List Bytecode) :=
  (a.effect.bytecode ls).mapError fun taint => ⟨a.address, taint⟩

/-- Why the action has no code. -/
def taint? (ls : Locals) (a : Action) : Option TaintedAction :=
  match a.bytecode ls with
  | .ok _ => none
  | .error t => some t

end Action

/-- The code of all actions in order, or the first tainted one. -/
def emitAll (ls : Locals) : List Action → Except TaintedAction (List Bytecode)
  | [] => .ok []
  | a :: rest => do
    let first ← a.bytecode ls
    let code ← emitAll ls rest
    return first ++ code

end MethodLift
