import MethodLift.Image.Bytes
import MethodLift.Text.Number

/-!
# ELF files

Loadable segments come from the program headers. Exports are the functions among the dynamic
symbols: the dynamic section names the tables of symbols and texts by address, the program headers
say where an address is in the file, and the second word of the hash table is the number of symbols.
-/

namespace MethodLift.Elf

open MethodLift.Text

/-- The two things that decide how fields are laid out. -/
structure Layout where
  order : ByteOrder
  /-- Addresses have 64 bits. -/
  wide : Bool
  deriving DecidableEq, Repr

namespace Layout

variable (l : Layout) (data : Array UInt8)

def half? (offset : Nat) : Option Nat := File.word? l.order data 2 offset

def word? (offset : Nat) : Option Nat := File.word? l.order data 4 offset

/-- A field of the width of an address. -/
def address? (offset : Nat) : Option Nat := File.word? l.order data (if l.wide then 8 else 4) offset

end Layout

/-- The layout that the identification bytes state. -/
def layout? (data : Array UInt8) : Option Layout :=
  let wide : Option UInt8 := data[4]?
  let order : Option UInt8 := data[5]?
  match wide, order with
  | some 1, some 1 => some ⟨.little, false⟩
  | some 1, some 2 => some ⟨.big, false⟩
  | some 2, some 1 => some ⟨.little, true⟩
  | some 2, some 2 => some ⟨.big, true⟩
  | _, _ => none

def architecture (machine : Nat) : Architecture :=
  match machine with
  | 3 => .x86
  | 62 => .x64
  | 40 => .arm
  | 183 => .a64
  | _ => .unknown

structure ProgramHeader where
  type : Nat
  flags : Nat
  offset : Nat
  address : Nat
  fileSize : Nat
  memorySize : Nat
  deriving DecidableEq, Repr

namespace ProgramHeader

def isLoad (h : ProgramHeader) : Bool := h.type == 1

def isDynamic (h : ProgramHeader) : Bool := h.type == 2

def isExecutable (h : ProgramHeader) : Bool := h.flags % 2 == 1

def read? (l : Layout) (data : Array UInt8) (start : Nat) : Option ProgramHeader :=
  if l.wide then do
    return {
      type := ← l.word? data start
      flags := ← l.word? data (start + 4)
      offset := ← l.address? data (start + 8)
      address := ← l.address? data (start + 16)
      fileSize := ← l.address? data (start + 32)
      memorySize := ← l.address? data (start + 40) }
  else do
    return {
      type := ← l.word? data start
      offset := ← l.word? data (start + 4)
      address := ← l.word? data (start + 8)
      fileSize := ← l.word? data (start + 16)
      memorySize := ← l.word? data (start + 20)
      flags := ← l.word? data (start + 24) }

def segment (h : ProgramHeader) : Segment :=
  ⟨"LOAD@0x" ++ hex h.address, h.address.toUInt64, h.offset, h.fileSize, h.isExecutable⟩

end ProgramHeader

/-- The program headers that the file header announces. -/
def programHeaders? (l : Layout) (data : Array UInt8) : Option (List ProgramHeader) := do
  let _ ← File.slice? data 0 (if l.wide then 64 else 52)
  let start ← l.address? data (if l.wide then 32 else 28)
  let count ← l.half? data (if l.wide then 56 else 44)
  let size := if l.wide then 56 else 32
  (List.range count).mapM fun n => ProgramHeader.read? l data (start + n * size)

/-- The place in the file of a virtual address. -/
def fileOffset? (headers : List ProgramHeader) (address : Nat) : Option Nat :=
  (headers.find? fun h =>
    h.isLoad && h.address ≤ address && address - h.address < h.memorySize).map
      fun h => h.offset + (address - h.address)

/-- The entries of the dynamic section, up to the one that ends it. -/
def dynamicEntries? (l : Layout) (data : Array UInt8) (h : ProgramHeader) :
    Option (List (Nat × Nat)) := do
  let size := if l.wide then 16 else 8
  if h.fileSize = 0 then return []
  let _ ← File.slice? data h.offset h.fileSize
  let entries ← (List.range (h.fileSize / size)).mapM fun n => do
    let tag ← l.address? data (h.offset + n * size)
    let value ← l.address? data (h.offset + n * size + size / 2)
    return (tag, value)
  return entries.takeWhile fun e => e.1 != 0

/-- The value of the last entry with a tag. -/
def valueOf? (entries : List (Nat × Nat)) (tag : Nat) : Option Nat :=
  (entries.reverse.find? fun e => e.1 == tag).map (·.2)

/-- The texts of a table are UTF-8. -/
def isTextTable (bytes : List UInt8) : Bool := (File.utf8? bytes).isSome

/-- The text at a position of a text table; the end of a table without a final zero is empty. -/
def tableText? (bytes : List UInt8) (position : Nat) : Option String :=
  if position < bytes.length then File.text? (bytes.drop position)
  else if position = bytes.length ∧ bytes.getLast?.any (· != 0) then some ""
  else none

structure Symbol where
  name : Nat
  info : Nat
  value : Nat
  deriving DecidableEq, Repr

def Symbol.isFunction (s : Symbol) : Bool := s.info % 16 == 2

def Symbol.read? (l : Layout) (data : Array UInt8) (start : Nat) : Option Symbol := do
  return {
    name := ← l.word? data start
    info := ← File.word? l.order data 1 (start + if l.wide then 4 else 12)
    value := ← l.address? data (start + if l.wide then 8 else 4) }

/-- The exported functions that the dynamic section leads to. -/
def dynamicExports? (l : Layout) (data : Array UInt8) (headers : List ProgramHeader)
    (entries : List (Nat × Nat)) : Option (List (String × UInt64)) := do
  let place (tag : Nat) := (valueOf? entries tag).bind (fileOffset? headers)
  let texts ← File.slice? data ((place 5).getD 0) ((valueOf? entries 10).getD 0)
  if !isTextTable texts then none
  let count ← match place 4 with
    | some hash => l.word? data (hash + 4)
    | none => some 0
  let size := if l.wide then 24 else 16
  let table := (place 6).getD 0
  if 0 < count then
    let _ ← File.slice? data table (count * size)
  let symbols ← (List.range count).mapM fun n => Symbol.read? l data (table + n * size)
  return (symbols.filter fun s => s.isFunction && s.value != 0).filterMap fun s =>
    (tableText? texts s.name).map fun name => (name, s.value.toUInt64)

/-- The image of a file. -/
def read? (data : Array UInt8) : Option Image := do
  let l ← layout? data
  let headers ← programHeaders? l data
  let machine ← l.half? data 18
  let exports ← match headers.find? (·.isDynamic) with
    | some h => (dynamicEntries? l data h).bind (dynamicExports? l data headers)
    | none => some []
  return {
    architecture := architecture machine
    segments := (headers.filter (·.isLoad)).map (·.segment)
    exports
    data }

end MethodLift.Elf
