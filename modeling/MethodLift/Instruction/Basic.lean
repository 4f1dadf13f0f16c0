import MethodLift.Text.Blank
import MethodLift.Operand.Reader

/-!
# Native instructions

An instruction keeps its address, its bytes, the text a disassembler wrote for it and the operands
read from that text. Bytes that decode to nothing are an instruction too, with the mnemonic `(bad)`,
so that a body is a gapless sequence.
-/

namespace MethodLift

open MethodLift.Text

/-- The longest instruction in bytes. -/
def maxInstructionSize : Nat := 16

/-- The mnemonic of bytes that decode to nothing. -/
def invalidMnemonic : String := "(bad)"

structure Instruction where
  address : UInt64
  bytes : List UInt8
  /-- In lower case. -/
  mnemonic : String
  /-- The operands as the disassembler wrote them. -/
  operandText : String
  operands : List Operand
  deriving DecidableEq, Repr

namespace Instruction

/-- An instruction from its disassembly; at most `maxInstructionSize` bytes are kept. -/
def ofText (address : UInt64) (raw : List UInt8) (mnemonic operandText : String) : Instruction where
  address
  bytes := raw.take maxInstructionSize
  mnemonic := String.ofList (mnemonic.toList.map Char.toLower)
  operandText
  operands := Operand.readAll operandText

/-- The stand-in for bytes that decode to nothing. -/
def invalid (address : UInt64) (raw : List UInt8) : Instruction :=
  ofText address raw invalidMnemonic ""

def isInvalid (i : Instruction) : Bool := i.mnemonic == invalidMnemonic

/-- The number of bytes. -/
def size (i : Instruction) : Nat := i.bytes.length

/-- The address of the byte after the instruction. -/
def next (i : Instruction) : UInt64 := i.address + i.size.toUInt64

/-- Mnemonic and operands, divided by a tab. -/
def render (i : Instruction) : String :=
  if i.operandText.isEmpty then i.mnemonic else i.mnemonic ++ "\t" ++ i.operandText

/-- Mnemonic and operands, divided by a space. -/
def plainText (i : Instruction) : String :=
  String.ofList (trimEnd (i.mnemonic ++ " " ++ i.operandText).toList)

/-- The target of a direct branch or call: the last immediate operand. -/
def target? (i : Instruction) : Option UInt64 :=
  (i.operands.reverse.findSome? Operand.immediate?).map Int64.toUInt64

end Instruction

/-- The listing of a body, one line an instruction with its address in front. -/
def renderAssembly (body : List Instruction) : String :=
  "\n".intercalate <| body.map fun i =>
    let line := "0x" ++ hexUpper i.address.toNat ++ " " ++ i.mnemonic ++ " " ++ i.operandText
    String.ofList (trimEnd line.toList)

end MethodLift
