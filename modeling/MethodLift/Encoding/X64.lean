import MethodLift.Body.Basic

/-!
# A few encodings of x86-64

Instructions with fixed bytes are a table; branches and calls carry a signed displacement from the
end of the instruction. Whatever is not listed decodes to nothing.

The table is no disassembler: it has what examples and tests need. Results about bodies are stated
for every decoder, or for every one that answers with instructions it was shown.
-/

namespace MethodLift.Encoding.X64

open MethodLift.Text

/-- Bytes, mnemonic and operands. -/
def fixed : List (List UInt8 × String × String) :=
  [([0x89, 0xC8], "mov", "eax, ecx"),
   ([0x01, 0xC8], "add", "eax, ecx"),
   ([0x29, 0xD0], "sub", "eax, edx"),
   ([0x6B, 0xC1, 0x10], "imul", "eax, ecx, 0x10"),
   ([0xC3], "ret", ""),
   ([0x90], "nop", ""),
   ([0xCC], "int3", ""),
   ([0x85, 0xC9], "test", "ecx, ecx"),
   ([0x48, 0x85, 0xC9], "test", "rcx, rcx"),
   ([0x85, 0xC0], "test", "eax, eax"),
   ([0x31, 0xC0], "xor", "eax, eax"),
   ([0xB8, 0x01, 0x00, 0x00, 0x00], "mov", "eax, 1"),
   ([0x8B, 0x41, 0x10], "mov", "eax, dword ptr [rcx + 0x10]"),
   ([0x89, 0x41, 0x10], "mov", "dword ptr [rcx + 0x10], eax"),
   ([0x55], "push", "rbp"),
   ([0x5D], "pop", "rbp"),
   ([0x0F, 0xA2], "cpuid", ""),
   ([0x8D, 0x04, 0x09], "lea", "eax, [rcx + rcx]"),
   ([0x48, 0x89, 0x4C, 0x24, 0x08], "mov", "qword ptr [rsp + 8], rcx"),
   ([0xFF, 0xE0], "jmp", "rax")]

/-- Opcode, mnemonic and the size of the displacement in bytes. -/
def relative : List (UInt8 × String × Nat) :=
  [(0x74, "je", 1), (0x7F, "jg", 1), (0xEB, "jmp", 1), (0xE9, "jmp", 4), (0xE8, "call", 4)]

/-- The number of `size` bytes as a signed 64-bit word. -/
def signed (size : Nat) (bytes : List UInt8) : UInt64 :=
  let n := littleEndian bytes
  if n < Nat.pow 2 (8 * size - 1) then n.toUInt64 else n.toUInt64 - (Nat.pow 2 (8 * size)).toUInt64

/-- `[rip + d]` with its sign. -/
def ripRelative (displacement : UInt64) : String :=
  match displacement.toInt64.toInt with
  | .ofNat 0 => "[rip]"
  | .ofNat n => "[rip + " ++ numeral n ++ "]"
  | .negSucc n => "[rip - " ++ numeral (n + 1) ++ "]"

def fixed? (code : List UInt8) (address : UInt64) : Option Instruction :=
  (fixed.find? fun e => e.1.isPrefixOf code).map fun e => .ofText address e.1 e.2.1 e.2.2

def relative? (code : List UInt8) (address : UInt64) : Option Instruction := do
  let opcode ← code.head?
  let (mnemonic, size) ← relative.lookup opcode
  if size < code.length then
    let length := size + 1
    let target := address + length.toUInt64 + signed size ((code.drop 1).take size)
    some (.ofText address (code.take length) mnemonic (numeral target.toNat))
  else none

/-- A jump through memory off the instruction pointer. -/
def throughMemory? (code : List UInt8) (address : UInt64) : Option Instruction :=
  match code with
  | 0xFF :: 0x25 :: rest =>
    if 4 ≤ rest.length then
      let slot := ripRelative (signed 4 (rest.take 4))
      some (.ofText address (code.take 6) "jmp" ("qword ptr " ++ slot))
    else none
  | _ => none

def decode? (code : List UInt8) (address : UInt64) : Option Instruction :=
  fixed? code address <|> relative? code address <|> throughMemory? code address

def decoder : Decoder := Architecture.x64.decoder decode?

end MethodLift.Encoding.X64
