import MethodLift.Image.Basic

/-!
# Method bodies in an image

A decoder answers the instruction at the start of some bytes, or nothing. `fetch?` reads one
instruction of a body without looking at or past the end of the window: bytes that decode to nothing
become an invalid instruction as long as the decoder's skip width.
-/

namespace MethodLift

structure Decoder where
  decode? : List UInt8 → UInt64 → Option Instruction
  /-- How many bytes to skip where nothing decodes. -/
  skip : Nat

/-- How many bytes to skip on an architecture: a whole word where all instructions are words. -/
def Architecture.skip : Architecture → Nat
  | .a64 => 4
  | .x86 | .x64 | .arm | .unknown => 1

/-- The decoder of an architecture that knows the instructions of `decode?`. -/
def Architecture.decoder (a : Architecture)
    (decode? : List UInt8 → UInt64 → Option Instruction) : Decoder :=
  ⟨decode?, a.skip⟩

namespace Body

/-- `address + length`, but no further than the last address. -/
def windowEnd (address length : UInt64) : UInt64 :=
  if address.toNat + length.toNat < UInt64.size then address + length else 0xFFFFFFFFFFFFFFFF

/-- The instruction at `address` in a window that ends at `stop`; nothing if no byte is left. -/
def fetch? (decoder : Decoder) (image : Image) (stop address : UInt64) : Option Instruction :=
  if address < stop then do
    let remaining := stop.toNat - address.toNat
    let code ← image.bytesAt? address (min remaining maxInstructionSize)
    return (decoder.decode? code address).getD (.invalid address (code.take decoder.skip))
  else none

theorem lt_of_fetch? {decoder : Decoder} {image : Image} {stop address : UInt64} {i : Instruction}
    (h : fetch? decoder image stop address = some i) : address < stop := by
  unfold fetch? at h
  split at h
  · assumption
  · cases h

end Body

end MethodLift
