import MethodLift.Flow.Graph

/-!
# Lowered code

The nodes of lowered code do the same on every instruction set. Each instruction of a block becomes
one node; an instruction without a counterpart becomes an opaque node, which keeps its text. Memory
off the stack pointer is a stack slot.
-/

namespace MethodLift.Lowered

open MethodLift.Text

inductive OpCode where
  | nop | move | load | store | loadAddress
  | arithmetic (op : ArithmeticOp)
  | compare | test | jump
  | jumpIf (condition : Condition)
  | call | ret | push | pop | interrupt | opaqueCode
  deriving DecidableEq, Repr

def OpCode.render : OpCode → String
  | nop => "Nop"
  | move => "Move"
  | load => "Load"
  | store => "Store"
  | loadAddress => "LoadAddress"
  | arithmetic op => op.name
  | compare => "Compare"
  | test => "Test"
  | jump => "Jump"
  | jumpIf c => "JumpIf" ++ c.name
  | call => "Call"
  | ret => "Return"
  | push => "Push"
  | pop => "Pop"
  | interrupt => "Interrupt"
  | opaqueCode => "Opaque"

structure Address where
  base : Option String
  index : Option String
  scale : UInt8
  offset : Int64
  deriving DecidableEq, Repr

inductive Value where
  | register (name : String)
  /-- A slot by its offset from the stack pointer. -/
  | stackSlot (offset : Int64)
  | immediate (value : Int64)
  | memory (address : Address)
  /-- A code address. -/
  | target (address : UInt64)
  deriving DecidableEq, Repr

namespace Value

def ofMemory (stackPointer : String) (m : Memory) : Value :=
  if m.base = some stackPointer ∧ m.index = none then .stackSlot m.displacement
  else .memory ⟨m.base, m.index, m.scale, m.displacement⟩

def ofOperand? (stackPointer : String) : Operand → Option Value
  | .register r => some (.register r)
  | .immediate v => some (.immediate v)
  | .memory m => some (ofMemory stackPointer m)
  | .other _ => none

def render : Value → String
  | register r => r
  | stackSlot o => "stack:" ++ hexWord o
  | immediate v => (Operand.immediate v).render
  | target a => "@0x" ++ hexUpper a.toNat
  | memory m =>
    let terms := m.base.toList ++ (m.index.map fun i => i ++ "*" ++ toString m.scale.toNat).toList
    let terms := if m.offset ≠ 0 ∨ terms.isEmpty then terms ++ [hexWord m.offset] else terms
    "[" ++ "+".intercalate terms ++ "]"

end Value

structure Node where
  /-- The address of the instruction the node stands for. -/
  address : UInt64
  code : OpCode
  values : List Value
  /-- The instruction's text, for an opaque node. -/
  text : Option String := none
  deriving DecidableEq, Repr

namespace Node

def opaqueNode (i : Instruction) : Node := ⟨i.address, .opaqueCode, [], some i.render⟩

def isOpaque (n : Node) : Bool := n.code == .opaqueCode

def render (n : Node) : String :=
  match n.text with
  | some text => n.code.render ++ " ; " ++ text
  | none =>
    if n.values.isEmpty then n.code.render
    else n.code.render ++ " " ++ ", ".intercalate (n.values.map Value.render)

end Node

/-- The nodes of one basic block, with its edges. -/
structure Block where
  id : Nat
  start : UInt64
  nodes : List Node
  successors : List Edge
  deriving DecidableEq, Repr

def opaqueCount (blocks : List Block) : Nat :=
  (blocks.flatMap (·.nodes)).countP Node.isOpaque

/-- The lines of a block whose first node has number `first`. -/
def renderBlock (b : Block) (first : Nat) : String :=
  "block_" ++ toString b.id ++ ":\n" ++
    String.join ((b.nodes.zipIdx first).map fun n =>
      "  " ++ zeroPad 3 (toString n.2) ++ " " ++ n.1.render ++ "\n")

/-- One line a node; nodes are numbered through the method from `first`. -/
def renderFrom (first : Nat) : List Block → String
  | [] => ""
  | b :: bs => renderBlock b first ++ renderFrom (first + b.nodes.length) bs

def render (blocks : List Block) : String := renderFrom 0 blocks

end MethodLift.Lowered
