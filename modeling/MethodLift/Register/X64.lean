import MethodLift.Text.Number

/-!
# Registers of x86-64

Every name maps to the 64-bit register it is a part of (`family`) and to its width in bits. `r8` to
`r15` are read by number, so that `r08d` is a part of `r8`; segment registers are known by name but
have no width.
-/

namespace MethodLift.Register.X64

open MethodLift.Text

/-- A name, the full register it is a part of, and its width in bits. -/
def legacy : List (String × String × Nat) :=
  [("rax", "rax", 64), ("eax", "rax", 32), ("ax", "rax", 16), ("al", "rax", 8), ("ah", "rax", 8),
   ("rbx", "rbx", 64), ("ebx", "rbx", 32), ("bx", "rbx", 16), ("bl", "rbx", 8), ("bh", "rbx", 8),
   ("rcx", "rcx", 64), ("ecx", "rcx", 32), ("cx", "rcx", 16), ("cl", "rcx", 8), ("ch", "rcx", 8),
   ("rdx", "rdx", 64), ("edx", "rdx", 32), ("dx", "rdx", 16), ("dl", "rdx", 8), ("dh", "rdx", 8),
   ("rsi", "rsi", 64), ("esi", "rsi", 32), ("si", "rsi", 16), ("sil", "rsi", 8),
   ("rdi", "rdi", 64), ("edi", "rdi", 32), ("di", "rdi", 16), ("dil", "rdi", 8),
   ("rsp", "rsp", 64), ("esp", "rsp", 32), ("sp", "rsp", 16), ("spl", "rsp", 8),
   ("rbp", "rbp", 64), ("ebp", "rbp", 32), ("bp", "rbp", 16), ("bpl", "rbp", 8),
   ("rip", "rip", 64), ("eip", "rip", 32)]

def segments : List String := ["cs", "ds", "es", "fs", "gs", "ss"]

def isSegment (name : String) : Bool := segments.contains name

/-- The full register and width of `r8` to `r15` and their parts `d`, `w` and `b`. -/
def extended? (name : String) : Option (String × Nat) :=
  match name.toList with
  | 'r' :: rest => do
    let number ← readUpTo 10 255 (rest.takeWhile Char.isDigit)
    guard (8 ≤ number ∧ number ≤ 15)
    let width ← match rest.dropWhile Char.isDigit with
      | [] => some 64
      | ['d'] => some 32
      | ['w'] => some 16
      | ['b'] => some 8
      | _ => none
    return ("r" ++ toString number, width)
  | _ => none

/-- The width of `xmm0` to `xmm31` and `ymm0` to `ymm31`. -/
def vectorWidth? (name : String) : Option Nat :=
  match name.toList with
  | 'x' :: 'm' :: 'm' :: rest => (readUpTo 10 31 rest).map fun _ => 128
  | 'y' :: 'm' :: 'm' :: rest => (readUpTo 10 31 rest).map fun _ => 256
  | _ => none

def legacy? (name : String) : Option (String × Nat) := legacy.lookup name

def isRegister (name : String) : Bool :=
  (legacy? name).isSome || (extended? name).isSome || (vectorWidth? name).isSome || isSegment name

/-- The width of a register in bits. -/
def width? (name : String) : Option Nat :=
  (legacy? name).map (·.2) <|> (extended? name).map (·.2) <|> vectorWidth? name

/-- The full register `name` is a part of; a name without one stands for itself. -/
def family (name : String) : String :=
  ((legacy? name).map (·.1) <|> (extended? name).map (·.1)).getD name

end MethodLift.Register.X64
