import MethodLift.Text.Number
import MethodLift.Register.X64
import MethodLift.Register.A64

/-!
# Operands of a native instruction

An operand is a register, an immediate, a memory reference `[base + index*scale + displacement]`, or
a text that is none of these. Immediates and displacements are 64-bit words read as signed numbers.

`render` is the written form. Immediates are hexadecimal with a sign in front; a displacement with
nothing before it is written as the unsigned word.
-/

namespace MethodLift

open MethodLift.Text

/-- A register name of either instruction set. -/
def isRegisterName (name : String) : Bool :=
  Register.X64.isRegister name || Register.A64.isRegister name

/-- A memory reference; `scale` multiplies the index. -/
structure Memory where
  base : Option String := none
  index : Option String := none
  scale : UInt8 := 1
  displacement : Int64 := 0
  /-- Access size in bytes, when the text states it. -/
  size : Option UInt8 := none
  /-- Segment override. -/
  segment : Option String := none
  deriving DecidableEq, Repr

inductive Operand where
  | register (name : String)
  | immediate (value : Int64)
  | memory (ref : Memory)
  | other (text : String)
  deriving DecidableEq, Repr

/-- The word as unsigned hexadecimal. -/
def hexWord (v : Int64) : String := "0x" ++ hex v.toUInt64.toNat

/-- The magnitude of a word in hexadecimal. -/
def hexMagnitude (v : Int64) : String := "0x" ++ hex v.toInt.natAbs

namespace Memory

/-- The reference is `[base + displacement]`, without an index. -/
def isBaseDisplacement (m : Memory) : Bool := m.base.isSome && m.index.isNone

/-- The registers of the reference, the index with its multiplier. -/
def registerTerms (m : Memory) : List String :=
  m.base.toList ++
    (m.index.map fun i => if 1 < m.scale then i ++ "*" ++ toString m.scale.toNat else i).toList

def render (m : Memory) : String :=
  let terms := m.registerTerms
  let inner :=
    if terms.isEmpty then hexWord m.displacement
    else
      let registers := " + ".intercalate terms
      if m.displacement = 0 then registers
      else if m.displacement < 0 then registers ++ " - " ++ hexMagnitude m.displacement
      else registers ++ " + " ++ hexMagnitude m.displacement
  "[" ++ inner ++ "]"

end Memory

namespace Operand

def register? : Operand → Option String
  | .register r => some r
  | _ => none

def immediate? : Operand → Option Int64
  | .immediate v => some v
  | _ => none

def memory? : Operand → Option Memory
  | .memory m => some m
  | _ => none

def render : Operand → String
  | .register r => r
  | .immediate v => if v < 0 then "-" ++ hexMagnitude v else hexMagnitude v
  | .memory m => m.render
  | .other s => s

end Operand

end MethodLift
