import MethodLift.Body.Basic

/-!
# Listings as decoders

A listing is disassembly made elsewhere: rows of address, size and text. Its decoder answers the row
at the asked address if the bytes it is given hold the whole instruction.
-/

namespace MethodLift

structure ListingRow where
  address : UInt64
  size : Nat
  mnemonic : String
  operandText : String
  deriving DecidableEq, Repr

/-- The last row with an address counts. -/
def Decoder.ofListing (a : Architecture) (rows : List ListingRow) : Decoder :=
  a.decoder fun code address => do
    let row ← rows.reverse.find? fun r => r.address == address
    if row.size ≤ code.length then
      some (.ofText address (code.take row.size) row.mnemonic row.operandText)
    else none

end MethodLift
