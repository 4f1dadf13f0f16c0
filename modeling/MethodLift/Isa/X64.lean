import MethodLift.Isa.Basic

/-!
# x86-64

Moves are split by where memory stands: a memory destination stores, a memory source loads. A jump
or call is direct when its first operand is an immediate.
-/

namespace MethodLift.X64

/-- The condition of a conditional jump, by mnemonic. -/
def condition? (mnemonic : String) : Option Condition :=
  match mnemonic with
  | "je" | "jz" => some .equal
  | "jne" | "jnz" => some .notEqual
  | "jl" | "jnge" => some .less
  | "jle" | "jng" => some .lessOrEqual
  | "jg" | "jnle" => some .greater
  | "jge" | "jnl" => some .greaterOrEqual
  | "jb" | "jnae" | "jc" => some .below
  | "jbe" | "jna" => some .belowOrEqual
  | "ja" | "jnbe" => some .above
  | "jae" | "jnb" | "jnc" => some .aboveOrEqual
  | "js" | "jns" | "jo" | "jno" | "jp" | "jnp" | "jpe" | "jpo" | "jrcxz" | "jecxz" =>
    some .unmodeled
  | _ => none

def hasMemory (i : Instruction) (position : Nat) : Bool :=
  (i.operands[position]?.bind Operand.memory?).isSome

def hasImmediate (i : Instruction) (position : Nat) : Bool :=
  (i.operands[position]?.bind Operand.immediate?).isSome

def kind (i : Instruction) : InstructionKind :=
  if i.isInvalid then .invalid
  else
    match i.mnemonic with
    | "nop" | "endbr64" | "pause" => .nop
    | "int3" | "ud2" | "hlt" => .trap
    | "mov" | "movabs" =>
      if hasMemory i 0 then .store else if hasMemory i 1 then .load else .move
    | "movzx" | "movsx" | "movsxd" => if hasMemory i 1 then .load else .move
    | "lea" => .loadAddress
    | "add" => .arithmetic .add
    | "sub" => .arithmetic .subtract
    | "imul" => .arithmetic .multiply
    | "and" => .arithmetic .and
    | "or" => .arithmetic .or
    | "xor" => .arithmetic .xor
    | "shl" | "sal" => .arithmetic .shiftLeft
    | "shr" => .arithmetic .shiftRight
    | "sar" => .arithmetic .shiftRightArithmetic
    | "cmp" => .compare
    | "test" => .test
    | "jmp" => if hasImmediate i 0 then .jump else .indirectJump
    | "call" => if hasImmediate i 0 then .call else .indirectCall
    | "ret" | "retn" => .ret
    | "push" => .push
    | "pop" => .pop
    | m =>
      match condition? m with
      | some c => .conditionalJump c
      | none => .unknown

def microsoft : CallingConvention where
  arguments := ["rcx", "rdx", "r8", "r9"]
  result := "rax"
  volatile := ["rax", "rcx", "rdx", "r8", "r9", "r10", "r11"]
  frame := ["rsp", "rbp"]
  positional := true

def systemV : CallingConvention where
  arguments := ["rdi", "rsi", "rdx", "rcx", "r8", "r9"]
  result := "rax"
  volatile := ["rax", "rcx", "rdx", "rsi", "rdi", "r8", "r9", "r10", "r11"]
  frame := ["rsp", "rbp"]
  positional := false

def isa : InstructionSet where
  architecture := .x64
  kind
  width? := Register.X64.width?
  family := Register.X64.family
  convention
    | .microsoft => microsoft
    | .systemV => systemV

end MethodLift.X64
