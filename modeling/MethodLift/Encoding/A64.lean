import MethodLift.Body.Basic

/-!
# A few encodings of AArch64

Instructions are words of four bytes, lowest first. Branches carry a signed number of words from the
start of the instruction in their low 26 bits. Whatever is not listed decodes to nothing.

As on x86-64, the table has what examples and tests need, and results are stated for every decoder.
-/

namespace MethodLift.Encoding.A64

open MethodLift.Text

/-- The word, mnemonic and operands. -/
def fixed : List (Nat × String × String) :=
  [(0x9B027C20, "mul", "x0, x1, x2"),
   (0xD65F03C0, "ret", ""),
   (0xD503201F, "nop", ""),
   (0x8B010000, "add", "x0, x0, x1"),
   (0xB9401000, "ldr", "w0, [x0, #0x10]"),
   (0xB9001001, "str", "w1, [x0, #0x10]"),
   (0xD61F0000, "br", "x0")]

def target (address displacement : UInt64) : String :=
  "#" ++ numeral (address + displacement).toNat

/-- The displacement in bytes that 26 bits stand for. -/
def branchDisplacement (word : Nat) : UInt64 :=
  let n := word % 0x4000000
  if n < 0x2000000 then (4 * n).toUInt64 else (4 * n).toUInt64 - 0x10000000

/-- Mnemonic and operands of a word. -/
def text? (word : Nat) (address : UInt64) : Option (String × String) :=
  fixed.lookup word <|>
    (if word = 0xB4000040 then some ("cbz", "x0, " ++ target address 8)
    else
      match word / 0x4000000 with
      | 0b000101 => some ("b", target address (branchDisplacement word))
      | 0b100101 => some ("bl", target address (branchDisplacement word))
      | _ => none)

def decode? (code : List UInt8) (address : UInt64) : Option Instruction := do
  let bytes := code.take 4
  if bytes.length = 4 then
    let (mnemonic, operands) ← text? (littleEndian bytes) address
    some (.ofText address bytes mnemonic operands)
  else none

def decoder : Decoder := Architecture.a64.decoder decode?

end MethodLift.Encoding.A64
