import MethodLift.Image.Elf
import MethodLift.Image.MachO
import MethodLift.Image.Pe

/-!
# Reading a binary file

The first bytes of a file tell its format.
-/

namespace MethodLift

inductive FileError where
  /-- Too short, or not what its first bytes announce. -/
  | malformed
  | unsupported
  /-- One file for several architectures. -/
  | fat
  deriving DecidableEq, Repr

/-- The message, for errors that have one of their own. -/
def FileError.message? : FileError → Option String
  | malformed => none
  | unsupported => some "Failed to parse binary format: Unsupported file format"
  | fat => some "Failed to parse binary format: Fat Mach-O images must be thinned first"

/-- The number of bytes in which every format shows. -/
def minFileSize : Nat := 16

/-- The image of a file. -/
def Image.ofFile (data : Array UInt8) : Except FileError Image :=
  if data.size < minFileSize then .error .malformed
  else
    let found (image : Option Image) : Except FileError Image :=
      match image with
      | some i => .ok i
      | none => .error .malformed
    let start := data.extract 0 4
    if start = #[0x7F, 0x45, 0x4C, 0x46] then found (Elf.read? data)
    else if start.extract 0 2 = #[0x4D, 0x5A] then found (Pe.read? data)
    else if start = #[0xCA, 0xFE, 0xBA, 0xBE] then .error .fat
    else if (MachO.layout? data).isSome then found (MachO.read? data)
    else .error .unsupported

end MethodLift
