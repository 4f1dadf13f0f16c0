import MethodLift.Image.Bytes

/-!
# Mach-O files

Segments come from the load commands in order. Exports are in a trie: a node holds the address of
the symbol spelled so far, if there is one, and edges with the letters that lead on. Exported
addresses count from the segment named `__TEXT`.
-/

namespace MethodLift.MachO

/-- The two things that decide how fields are laid out. -/
structure Layout where
  order : ByteOrder
  /-- Addresses have 64 bits. -/
  wide : Bool
  deriving DecidableEq, Repr

def Layout.word? (l : Layout) (data : Array UInt8) (offset : Nat) : Option Nat :=
  File.word? l.order data 4 offset

/-- The layout that the first four bytes state. -/
def layout? (data : Array UInt8) : Option Layout :=
  match File.word? .big data 4 0 with
  | some 0xFEEDFACE => some ⟨.big, false⟩
  | some 0xFEEDFACF => some ⟨.big, true⟩
  | some 0xCEFAEDFE => some ⟨.little, false⟩
  | some 0xCFFAEDFE => some ⟨.little, true⟩
  | _ => none

def architecture (cpu : Nat) : Architecture :=
  match cpu with
  | 7 => .x86
  | 0x1000007 => .x64
  | 12 => .arm
  | 0x100000C => .a64
  | _ => .unknown

/-- A load command that matters here. -/
inductive Command where
  | segment (s : Segment)
  /-- Place and size of the export trie. -/
  | exportTrie (offset size : Nat)
  | other
  deriving DecidableEq, Repr

/-- A segment with fields of `size` bytes that start after its name; its data must be in the
file. -/
def segment? (l : Layout) (data : Array UInt8) (size start : Nat) : Option Segment := do
  let name ← File.slice? data (start + 8) 16
  let field (n : Nat) := File.word? l.order data size (start + 24 + n * size)
  let address ← field 0
  let offset ← field 2
  let fileSize ← field 3
  let protection ← l.word? data (start + 24 + 4 * size)
  let _ ← l.word? data (start + 24 + 4 * size + 12)
  if 0 < fileSize then
    let _ ← File.slice? data offset fileSize
  return ⟨(File.text? name).getD "", address.toUInt64, offset, fileSize, protection / 4 % 2 == 1⟩

/-- The place and size of the export trie, from a command with other tables before them. -/
def exportTrie? (l : Layout) (data : Array UInt8) (start : Nat) : Option Command := do
  return .exportTrie (← l.word? data (start + 40)) (← l.word? data (start + 44))

/-- The command at `start` and its size. -/
def command? (l : Layout) (data : Array UInt8) (start : Nat) : Option (Command × Nat) := do
  let code ← l.word? data start
  let size ← l.word? data (start + 4)
  if data.size < start + size then none
  let command ← match code with
    | 0x1 => (segment? l data 4 start).map .segment
    | 0x19 => (segment? l data 8 start).map .segment
    | 0x22 | 0x80000022 => exportTrie? l data start
    | _ => some .other
  return (command, size)

def commands? (l : Layout) (data : Array UInt8) : Nat → Nat → Option (List Command)
  | 0, _ => some []
  | count + 1, start => do
    let (command, size) ← command? l data start
    return command :: (← commands? l data count (start + size))

/-- The edges of a node: the letters and the place of the node they lead to. -/
def edges? : Nat → List UInt8 → Option (List (String × Nat))
  | 0, _ => some []
  | count + 1, bytes => do
    if bytes.isEmpty then none
    let letters := File.untilZero bytes
    let text ← File.utf8? letters
    let (place, rest) ← File.varint? (bytes.drop (letters.length + 1))
    return (text, place) :: (← edges? count rest)

/-- The symbols below a node whose letters so far are `name`, at most `depth` edges deep. -/
def symbols? (trie : List UInt8) : Nat → String → Nat → Option (List (String × Nat))
  | 0, _, _ => none
  | depth + 1, name, place =>
    if place < trie.length then do
      let (size, body) ← File.varint? (trie.drop place)
      let own := if size = 0 then [] else
        (do
          let (_, rest) ← File.varint? body
          let (address, _) ← File.varint? rest
          return (name, address)).toList
      let (count, rest) ← File.varint? (body.drop size)
      let below ← (← edges? count rest).mapM fun (letters, next) =>
        symbols? trie depth (name ++ letters) next
      return own ++ below.flatten
    else some []

/-- The symbols of a trie; a broken trie has none. -/
def exportsOf (data : Array UInt8) (offset size : Nat) : List (String × Nat) :=
  match File.slice? data offset size with
  | some trie => (symbols? trie (size + 1) "" 0).getD []
  | none => []

/-- The image of a file. -/
def read? (data : Array UInt8) : Option Image := do
  let l ← layout? data
  let headerSize := if l.wide then 32 else 28
  let _ ← File.slice? data 0 headerSize
  let cpu ← l.word? data 4
  let count ← l.word? data 16
  let size ← l.word? data 20
  if size / 8 < count ∨ data.size < size then none
  let commands ← commands? l data count headerSize
  let segments := commands.filterMap fun
    | .segment s => some s
    | _ => none
  let base := ((segments.find? fun s => s.name == "__TEXT").map (·.address)).getD 0
  let trie := (commands.filterMap fun
    | .exportTrie offset size => some (offset, size)
    | _ => none).getLast?
  let exports := match trie with
    | some (offset, size) => exportsOf data offset size
    | none => []
  return {
    architecture := architecture cpu
    segments
    exports := exports.map fun (name, offset) => (name, base + offset.toUInt64)
    data }

end MethodLift.MachO
