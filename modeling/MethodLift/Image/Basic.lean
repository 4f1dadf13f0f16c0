import MethodLift.Isa.Basic

/-!
# Binary images

An image is the data of a file together with the segments that map it to virtual addresses.
`bytesAt?` reads from an address to the end of its segment or of the data, and `word?` reads a
little-endian 64-bit word.
-/

namespace MethodLift

/-- A region of the file mapped at a virtual address. Addresses and positions are words of 64 bits,
and their sums wrap around. -/
structure Segment where
  name : String
  address : UInt64
  /-- Position of the region in the file. -/
  offset : Nat
  /-- Size of the part that the file backs. -/
  size : Nat
  executable : Bool
  deriving DecidableEq, Repr

namespace Segment

/-- The address after the segment. -/
def next (s : Segment) : UInt64 := s.address + s.size.toUInt64

def contains (s : Segment) (address : UInt64) : Bool := s.address ≤ address && address < s.next

/-- The position in the file of an address of the segment. -/
def position (s : Segment) (address : UInt64) : UInt64 :=
  s.offset.toUInt64 + (address - s.address)

/-- The position in the file after the segment. -/
def fileEnd (s : Segment) : UInt64 := s.offset.toUInt64 + s.size.toUInt64

end Segment

structure Image where
  architecture : Architecture
  segments : List Segment
  exports : List (String × UInt64) := []
  data : Array UInt8
  deriving DecidableEq, Repr

/-- The number whose base-256 digits are `bs`, lowest first. -/
def littleEndian : List UInt8 → Nat
  | [] => 0
  | b :: bs => b.toNat + 256 * littleEndian bs

namespace Image

/-- An image that maps `code` at `base`. -/
def raw (architecture : Architecture) (base : UInt64) (code : Array UInt8) : Image where
  architecture
  segments := [⟨"raw", base, 0, code.size, true⟩]
  data := code

/-- The first segment that maps `address`. -/
def segmentFor? (image : Image) (address : UInt64) : Option Segment :=
  image.segments.find? (·.contains address)

def isMapped (image : Image) (address : UInt64) : Bool := (image.segmentFor? address).isSome

/-- The bytes from `address` on, at most `limit` of them and none past its segment or the data;
nothing when there is no byte. -/
def bytesAt? (image : Image) (address : UInt64) (limit : Nat) : Option (List UInt8) := do
  let s ← image.segmentFor? address
  let start := (s.position address).toNat
  let stop := min (min s.fileEnd.toNat (start + limit)) image.data.size
  if start < stop then some (image.data.extract start stop).toList else none

/-- The little-endian word of eight bytes at `address`. -/
def word? (image : Image) (address : UInt64) : Option UInt64 := do
  let bytes ← image.bytesAt? address 8
  if bytes.length = 8 then some (littleEndian bytes).toUInt64 else none

def executableSegments (image : Image) : List Segment := image.segments.filter (·.executable)

end Image

end MethodLift
