import MethodLift.Image.Bytes

/-!
# PE files

Sections are mapped relative to the image base. An export is found through three tables: a name, the
ordinal at the same position, and the address at that ordinal. An address inside the directory of
the exports holds no code but a text, which says where in another file the function is.
-/

namespace MethodLift.Pe

open MethodLift.Text

def half? (data : Array UInt8) (offset : Nat) : Option Nat := File.word? .little data 2 offset

def word? (data : Array UInt8) (offset : Nat) : Option Nat := File.word? .little data 4 offset

def architecture (machine : Nat) : Architecture :=
  match machine with
  | 0x14C => .x86
  | 0x8664 => .x64
  | 0x1C0 => .arm
  | 0xAA64 => .a64
  | _ => .unknown

/-- A stretch of the image, relative to its base. -/
structure Directory where
  address : Nat
  size : Nat
  deriving DecidableEq, Repr

def Directory.contains (d : Directory) (address : Nat) : Bool :=
  d.address ≤ address && address < d.address + d.size

/-- What the optional header says. -/
structure OptionalHeader where
  imageBase : Nat
  fileAlignment : Nat
  exports : Option Directory
  deriving DecidableEq, Repr

/-- The first data directory, unless it is all zero. -/
def exportDirectory? (data : Array UInt8) (count start : Nat) : Option (Option Directory) := do
  if 16 < count then none
  let _ ← File.slice? data start (count * 8)
  if count = 0 then return none
  let address ← word? data start
  let size ← word? data (start + 4)
  return if address = 0 ∧ size = 0 then none else some ⟨address, size⟩

def OptionalHeader.read? (data : Array UInt8) (start : Nat) : Option OptionalHeader := do
  match ← half? data start with
  | 0x10B =>
    let count ← word? data (start + 92)
    return {
      imageBase := ← word? data (start + 28)
      fileAlignment := ← word? data (start + 36)
      exports := ← exportDirectory? data count (start + 96) }
  | 0x20B =>
    let count ← word? data (start + 108)
    return {
      imageBase := ← File.word? .little data 8 (start + 24)
      fileAlignment := ← word? data (start + 36)
      exports := ← exportDirectory? data count (start + 112) }
  | _ => none

structure Section where
  name : String
  virtualSize : Nat
  /-- Relative to the image base. -/
  address : Nat
  rawSize : Nat
  rawOffset : Nat
  executable : Bool
  deriving DecidableEq, Repr

namespace Section

def read? (data : Array UInt8) (start : Nat) : Option Section := do
  let name ← File.slice? data start 8
  let flags ← word? data (start + 36)
  return {
    name := (File.text? name).getD ""
    virtualSize := ← word? data (start + 8)
    address := ← word? data (start + 12)
    rawSize := ← word? data (start + 16)
    rawOffset := ← word? data (start + 20)
    executable := flags / 0x20000000 % 2 == 1 }

/-- The part of the section that the file backs. -/
def size (s : Section) : Nat :=
  if s.virtualSize = 0 then s.rawSize else min s.rawSize s.virtualSize

def segment (s : Section) (imageBase : Nat) : Segment :=
  ⟨s.name, (imageBase + s.address).toUInt64, s.rawOffset, s.size, s.executable⟩

/-- `n` rounded up to a multiple of `unit`. -/
def roundUp (n unit : Nat) : Nat := (n + unit - 1) / unit * unit

/-- Where a loader starts to read the section. -/
def alignedOffset (s : Section) : Nat := s.rawOffset / 0x200 * 0x200

/-- How much of the section a loader reads. -/
def loadedSize (s : Section) (fileAlignment : Nat) : Nat :=
  let raw := roundUp (s.rawOffset + s.rawSize) fileAlignment - s.alignedOffset
  let raw := min raw (roundUp s.rawSize 0x1000)
  if s.virtualSize = 0 then raw else min raw (roundUp s.virtualSize 0x1000)

end Section

/-- The place in the file of an address relative to the image base. -/
def fileOffset? (sections : List Section) (fileAlignment address : Nat) : Option Nat :=
  if 0 < fileAlignment ∧ fileAlignment &&& (fileAlignment - 1) = 0 then
    (sections.find? fun s =>
      s.address ≤ address && address < s.address + s.loadedSize fileAlignment).map
        fun s => address - s.address + s.alignedOffset
  else none

/-- As many of `count` words of `size` bytes as the data holds. -/
def wordsAt (data : Array UInt8) (size count start : Nat) : List Nat :=
  (List.range count).filterMap fun n => File.word? .little data size (start + n * size)

/-- A table that the export directory points to. -/
def tableAt (data : Array UInt8) (offset? : Nat → Option Nat) (size count address : Nat) :
    List Nat :=
  match offset? address with
  | some place => wordsAt data size count place
  | none => []

/-- The text names a function of another file: `library.name` or `library.#ordinal`. -/
def namesElsewhere (text : List Char) : Bool :=
  match text.dropWhile (· ≠ '.') with
  | _ :: '#' :: ordinal => (readUpTo 10 0xFFFFFFFF ordinal).isSome
  | _ :: _ :: _ => true
  | _ => false

/-- An address outside the directory is one of this image; inside it, the text there has to name a
function elsewhere. -/
def leadsSomewhere (data : Array UInt8) (offset? : Nat → Option Nat) (directory : Directory)
    (address : Nat) : Bool :=
  !directory.contains address ||
    ((offset? address).bind (File.textAt? data)).any fun text => namesElsewhere text.toList

/-- The exports that have a name, with addresses relative to the image base; `start` is where the
directory is in the file. Counts that no file of this length can hold give no exports. -/
def namedExports (data : Array UInt8) (offset? : Nat → Option Nat) (directory : Directory)
    (start : Nat) : List (String × Nat) :=
  let field (n : Nat) : Nat := (word? data (start + n)).getD 0
  let addressCount := field 20
  let nameCount := field 24
  if addressCount ≤ data.size ∧ nameCount ≤ data.size then
    let addresses := tableAt data offset? 4 addressCount (field 28)
    let names := tableAt data offset? 4 nameCount (field 32)
    let ordinals := tableAt data offset? 2 nameCount (field 36)
    (names.zip ordinals).filterMap fun (name, ordinal) => do
      let address ← addresses[ordinal]?
      guard (leadsSomewhere data offset? directory address)
      let text ← (offset? name).bind (File.textAt? data)
      return (text, address)
  else []

/-- The exports of a directory whose head is in the file as a whole. -/
def exportsOf (data : Array UInt8) (offset? : Nat → Option Nat) (directory : Directory) :
    List (String × Nat) :=
  match offset? directory.address with
  | some start =>
    if start + 40 ≤ data.size then namedExports data offset? directory start else []
  | none => []

/-- The image of a file. -/
def read? (data : Array UInt8) : Option Image := do
  let header ← word? data 0x3C
  if (← word? data header) ≠ 0x4550 then none
  let _ ← File.slice? data header 24
  let machine ← half? data (header + 4)
  let sectionCount ← half? data (header + 6)
  let optionalSize ← half? data (header + 20)
  let optional ←
    if optionalSize = 0 then some ⟨0, 0, none⟩ else OptionalHeader.read? data (header + 24)
  let table := header + 24 + optionalSize
  let sections ← (List.range sectionCount).mapM fun n => Section.read? data (table + n * 40)
  let exports := match optional.exports with
    | some directory => exportsOf data (fileOffset? sections optional.fileAlignment) directory
    | none => []
  return {
    architecture := architecture machine
    segments := sections.map (·.segment optional.imageBase)
    exports := exports.map fun (name, address) => (name, (optional.imageBase + address).toUInt64)
    data }

end MethodLift.Pe
