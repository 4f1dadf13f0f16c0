import MethodLift.Instruction.Basic

/-!
# What an instruction does

The vocabulary both instruction sets are read in: arithmetic operations, branch conditions, and the
kind of an instruction. The kind decides how control leaves an instruction: `endsFlow` says that it
never falls through, `endsBlock` that a basic block ends with it.
-/

namespace MethodLift

/-- Arithmetic and logic on two values. -/
inductive ArithmeticOp where
  | add | subtract | multiply | divide | and | or | xor
  | shiftLeft | shiftRight | shiftRightArithmetic
  deriving DecidableEq, Repr

namespace ArithmeticOp

def all : List ArithmeticOp :=
  [add, subtract, multiply, divide, and, or, xor, shiftLeft, shiftRight, shiftRightArithmetic]

def name : ArithmeticOp → String
  | add => "Add"
  | subtract => "Subtract"
  | multiply => "Multiply"
  | divide => "Divide"
  | and => "And"
  | or => "Or"
  | xor => "Xor"
  | shiftLeft => "ShiftLeft"
  | shiftRight => "ShiftRight"
  | shiftRightArithmetic => "ShiftRightArithmetic"

/-- The operator in pseudocode. -/
def symbol : ArithmeticOp → String
  | add => "+"
  | subtract => "-"
  | multiply => "*"
  | divide => "/"
  | and => "&"
  | or => "|"
  | xor => "^"
  | shiftLeft => "<<"
  | shiftRight => ">>>"
  | shiftRightArithmetic => ">>"

def isShift : ArithmeticOp → Bool
  | shiftLeft | shiftRight | shiftRightArithmetic => true
  | _ => false

end ArithmeticOp

/-- Outcomes of a comparison that a branch can ask for. `unmodeled` is a test of flags that no
comparison of two values stands for, such as sign, overflow or parity. -/
inductive Condition where
  | equal | notEqual | less | lessOrEqual | greater | greaterOrEqual
  | below | belowOrEqual | above | aboveOrEqual
  | unmodeled
  deriving DecidableEq, Repr

namespace Condition

def all : List Condition :=
  [equal, notEqual, less, lessOrEqual, greater, greaterOrEqual, below, belowOrEqual, above,
   aboveOrEqual, unmodeled]

def name : Condition → String
  | equal => "Equal"
  | notEqual => "NotEqual"
  | less => "Less"
  | lessOrEqual => "LessOrEqual"
  | greater => "Greater"
  | greaterOrEqual => "GreaterOrEqual"
  | below => "Below"
  | belowOrEqual => "BelowOrEqual"
  | above => "Above"
  | aboveOrEqual => "AboveOrEqual"
  | unmodeled => "Unmodeled"

/-- The operator in pseudocode; signed and unsigned orders are written alike. -/
def symbol : Condition → String
  | equal => "=="
  | notEqual => "!="
  | less | below => "<"
  | lessOrEqual | belowOrEqual => "<="
  | greater | above => ">"
  | greaterOrEqual | aboveOrEqual => ">="
  | unmodeled => "??"

end Condition

/-- The kind of an instruction. -/
inductive InstructionKind where
  | nop
  /-- Register or immediate to register, with or without extension. -/
  | move
  | load
  | store
  | loadAddress
  | arithmetic (op : ArithmeticOp)
  | compare
  /-- A bitwise test that sets flags only. -/
  | test
  | conditionalJump (condition : Condition)
  /-- Compare a register with zero and branch. -/
  | compareZeroAndBranch (condition : Condition)
  | jump
  | indirectJump
  | call
  | indirectCall
  | ret
  | push
  | pop
  /-- Padding or a trap. -/
  | trap
  | invalid
  | unknown
  deriving DecidableEq, Repr

namespace InstructionKind

def name : InstructionKind → String
  | nop => "Nop"
  | move => "Move"
  | load => "Load"
  | store => "Store"
  | loadAddress => "LoadAddress"
  | arithmetic op => "Arithmetic(" ++ op.name ++ ")"
  | compare => "Compare"
  | test => "Test"
  | conditionalJump c => "ConditionalJump(" ++ c.name ++ ")"
  | compareZeroAndBranch c => "CompareZeroAndBranch(" ++ c.name ++ ")"
  | jump => "Jump"
  | indirectJump => "IndirectJump"
  | call => "Call"
  | indirectCall => "IndirectCall"
  | ret => "Return"
  | push => "Push"
  | pop => "Pop"
  | trap => "Trap"
  | invalid => "Invalid"
  | unknown => "Unknown"

/-- Control never passes to the next instruction. -/
def endsFlow : InstructionKind → Bool
  | jump | indirectJump | ret | trap => true
  | _ => false

/-- A direct branch that may fall through. -/
def isConditional : InstructionKind → Bool
  | conditionalJump _ | compareZeroAndBranch _ => true
  | _ => false

/-- A direct branch, whose target is in its operands. -/
def isDirectBranch (k : InstructionKind) : Bool := k == jump || k.isConditional

/-- A basic block ends here. -/
def endsBlock (k : InstructionKind) : Bool := k.endsFlow || k.isConditional

end InstructionKind

end MethodLift
