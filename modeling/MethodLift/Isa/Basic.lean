import MethodLift.Instruction.Kind

/-!
# Instruction sets

An instruction set says of each instruction what kind it is, of each register which full register it
is a part of and how wide it is, and which registers a call uses.
-/

namespace MethodLift

inductive Architecture where
  | x86 | x64 | arm | a64 | unknown
  deriving DecidableEq, Repr

namespace Architecture

def render : Architecture → String
  | x86 => "x86-32"
  | x64 => "x86-64"
  | arm => "ARM"
  | a64 => "AArch64"
  | unknown => "Unknown"

end Architecture

/-- The calling convention an x86-64 binary was built for. -/
inductive Abi where
  | microsoft | systemV
  deriving DecidableEq, Repr

/-- The roles of registers in a call. -/
structure CallingConvention where
  /-- Registers of integer arguments, in order. -/
  arguments : List String
  /-- Register of an integer result. -/
  result : String
  /-- Registers a call may overwrite. -/
  volatile : List String
  /-- Stack and frame registers. -/
  frame : List String
  /-- Argument `n` takes register `n` even if an earlier one is a floating point number. -/
  positional : Bool
  deriving DecidableEq, Repr

def CallingConvention.isFrame (c : CallingConvention) (register : String) : Bool :=
  c.frame.contains register

structure InstructionSet where
  architecture : Architecture
  kind : Instruction → InstructionKind
  /-- The width of a register in bits. -/
  width? : String → Option Nat
  /-- The full register that a name is a part of. -/
  family : String → String
  convention : Abi → CallingConvention

/-- The stand-in width of a name that is no register. -/
def InstructionSet.width (isa : InstructionSet) (register : String) : Nat :=
  (isa.width? register).getD 64

end MethodLift
