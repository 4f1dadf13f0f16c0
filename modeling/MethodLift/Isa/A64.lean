import MethodLift.Isa.Basic

/-!
# AArch64

Pairs that are stored to or loaded from the stack frame save and restore registers around a body, so
they count as nothing. There is one calling convention.
-/

namespace MethodLift.A64

/-- The condition a branch suffix asks for. -/
def condition (suffix : List Char) : Condition :=
  match String.ofList suffix with
  | "eq" => .equal
  | "ne" => .notEqual
  | "lt" => .less
  | "le" => .lessOrEqual
  | "gt" => .greater
  | "ge" => .greaterOrEqual
  | "lo" | "cc" => .below
  | "ls" => .belowOrEqual
  | "hi" => .above
  | "hs" | "cs" => .aboveOrEqual
  | _ => .unmodeled

/-- Some operand refers to memory off the stack or frame pointer. -/
def isStackRelative (i : Instruction) : Bool :=
  i.operands.any fun op =>
    match op.memory?.bind (·.base) with
    | some base => ["sp", "x29", "fp"].contains base
    | none => false

def loadsMemory (i : Instruction) : Bool :=
  (i.operands[1]?.bind Operand.memory?).isSome

def kind (i : Instruction) : InstructionKind :=
  if i.isInvalid then .invalid
  else
    match Text.after? ['b', '.'] i.mnemonic.toList with
    | some suffix => .conditionalJump (condition suffix)
    | none =>
      match i.mnemonic with
      | "nop" => .nop
      | "brk" | "udf" | "hlt" => .trap
      | "stp" | "ldp" => if isStackRelative i then .nop else .unknown
      | "mov" | "movz" | "sxtw" | "uxtw" | "sxth" | "sxtb" | "uxth" | "uxtb" => .move
      | "ldr" | "ldur" | "ldrsw" | "ldrb" | "ldrh" | "ldrsb" | "ldrsh" =>
        if loadsMemory i then .load else .unknown
      | "str" | "stur" | "strb" | "strh" => .store
      | "adr" | "adrp" => .loadAddress
      | "add" => .arithmetic .add
      | "sub" => .arithmetic .subtract
      | "mul" => .arithmetic .multiply
      | "sdiv" | "udiv" => .arithmetic .divide
      | "and" => .arithmetic .and
      | "orr" => .arithmetic .or
      | "eor" => .arithmetic .xor
      | "lsl" => .arithmetic .shiftLeft
      | "lsr" => .arithmetic .shiftRight
      | "asr" => .arithmetic .shiftRightArithmetic
      | "cmp" => .compare
      | "tst" => .test
      | "cbz" => .compareZeroAndBranch .equal
      | "cbnz" => .compareZeroAndBranch .notEqual
      | "tbz" | "tbnz" => .conditionalJump .unmodeled
      | "b" => .jump
      | "br" => .indirectJump
      | "bl" => .call
      | "blr" => .indirectCall
      | "ret" => .ret
      | _ => .unknown

def convention : CallingConvention where
  arguments := ["x0", "x1", "x2", "x3", "x4", "x5", "x6", "x7"]
  result := "x0"
  volatile :=
    ["x0", "x1", "x2", "x3", "x4", "x5", "x6", "x7", "x8", "x9", "x10", "x11", "x12", "x13", "x14",
     "x15", "x16", "x17", "x18"]
  frame := ["sp", "x29", "x30"]
  positional := false

def isa : InstructionSet where
  architecture := .a64
  kind
  width? := Register.A64.width?
  family := Register.A64.family
  convention _ := convention

end MethodLift.A64
