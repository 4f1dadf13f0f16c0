import MethodLift.Lowered.Basic
import MethodLift.Isa.X64

/-!
# Lowering x86-64

The idiom `xor r, r` lowers to a move of zero. Two-operand arithmetic names its destination twice,
and a shift without a count shifts by one.
-/

namespace MethodLift.Lowered.X64

def stackPointer : String := "rsp"

/-- Both of the first two operands are the same register. -/
def isSelfOperation (i : Instruction) : Bool :=
  match i.operands with
  | .register a :: .register b :: _ => a == b
  | _ => false

/-- The node of one instruction. -/
def lower (isa : InstructionSet) (i : Instruction) : Node :=
  match i.operands.mapM (Value.ofOperand? stackPointer) with
  | none => .opaqueNode i
  | some values =>
    let node (code : OpCode) (values : List Value) : Node := { address := i.address, code, values }
    let whenSize (n : Nat) (code : OpCode) : Node :=
      if values.length = n then node code values else .opaqueNode i
    let toTarget (code : OpCode) : Node :=
      match i.target? with
      | some t => node code [.target t]
      | none => .opaqueNode i
    match isa.kind i with
    | .nop => node .nop []
    | .move => whenSize 2 .move
    | .load => whenSize 2 .load
    | .store => whenSize 2 .store
    | .loadAddress => whenSize 2 .loadAddress
    | .arithmetic op =>
      match op == .xor && isSelfOperation i, values with
      | true, dst :: _ => node .move [dst, .immediate 0]
      | _, [dst, src] => node (.arithmetic op) [dst, dst, src]
      | _, [dst, lhs, rhs] => node (.arithmetic op) [dst, lhs, rhs]
      | _, [dst] =>
        if op.isShift then node (.arithmetic op) [dst, dst, .immediate 1] else .opaqueNode i
      | _, _ => .opaqueNode i
    | .compare => whenSize 2 .compare
    | .test => whenSize 2 .test
    | .conditionalJump .unmodeled => .opaqueNode i
    | .conditionalJump c => toTarget (.jumpIf c)
    | .jump => toTarget .jump
    | .call => toTarget .call
    | .indirectJump => whenSize 1 .jump
    | .indirectCall => whenSize 1 .call
    | .ret => node .ret []
    | .push => whenSize 1 .push
    | .pop => whenSize 1 .pop
    | .trap => node .interrupt []
    | _ => .opaqueNode i

/-- The lowered form of a graph, block by block. -/
def lowerGraph (isa : InstructionSet) (g : Graph) : List Block :=
  g.blocks.map fun b =>
    { id := b.id, start := b.start, nodes := b.instructions.map (lower isa),
      successors := b.successors }

end MethodLift.Lowered.X64
