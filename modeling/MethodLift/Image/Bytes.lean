import MethodLift.Image.Basic

/-!
# Fields of a binary file

Words of a file in either byte order, and texts that end at a zero byte. A read that runs past the
end of the data gives nothing.
-/

namespace MethodLift

inductive ByteOrder where
  | little | big
  deriving DecidableEq, Repr

namespace File

/-- The bytes of a range that lies in the data. -/
def slice? (data : Array UInt8) (offset size : Nat) : Option (List UInt8) :=
  if offset + size ≤ data.size then some (data.extract offset (offset + size)).toList else none

/-- The unsigned word of `size` bytes at `offset`. -/
def word? (order : ByteOrder) (data : Array UInt8) (size offset : Nat) : Option Nat :=
  (slice? data offset size).map fun bytes =>
    match order with
    | .little => littleEndian bytes
    | .big => littleEndian bytes.reverse

/-- The text of bytes that are UTF-8. -/
def utf8? (bytes : List UInt8) : Option String := String.fromUTF8? ⟨bytes.toArray⟩

/-- The bytes before the first zero. -/
def untilZero (bytes : List UInt8) : List UInt8 := bytes.takeWhile (· != 0)

/-- The text at the front of some bytes, up to a zero byte or the end. -/
def text? (bytes : List UInt8) : Option String := utf8? (untilZero bytes)

/-- The text at `offset` in the data. -/
def textAt? (data : Array UInt8) (offset : Nat) : Option String :=
  if offset < data.size then text? (data.extract offset data.size).toList else none

/-- An unsigned number of seven bits a byte, lowest first, and the rest of the bytes. -/
def varint? : List UInt8 → Option (Nat × List UInt8)
  | [] => none
  | b :: rest =>
    if b < 0x80 then some (b.toNat, rest)
    else (varint? rest).map fun (high, rest) => (b.toNat - 0x80 + 0x80 * high, rest)

end File

end MethodLift
