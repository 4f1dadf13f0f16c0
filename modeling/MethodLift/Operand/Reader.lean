import MethodLift.Text.Blank
import MethodLift.Operand.Basic

/-!
# Reading operand text

A disassembler writes the operands of an instruction as one text. `Operand.readAll` cuts it at the
commas outside brackets and reads every piece, in the notation of x86-64 (`dword ptr [rbp + rcx*8 -
0x10]`) or of AArch64 (`[x0, x2, lsl #3]`). A piece that fits neither stays as its text.
-/

namespace MethodLift.Operand

open MethodLift.Text

/-! ## Cutting -/

/-- How a character changes the bracket depth. -/
def depthChange (c : Char) : Int :=
  if c = '[' ∨ c = '{' then 1 else if c = ']' ∨ c = '}' then -1 else 0

/-- The text cut at the commas that stand at bracket depth zero, starting at depth `depth`. -/
def cutAtCommas (depth : Int) : List Char → List (List Char)
  | [] => [[]]
  | c :: cs =>
    if c = ',' ∧ depth = 0 then [] :: cutAtCommas depth cs
    else consFirst c (cutAtCommas (depth + depthChange c) cs)

/-! ## Integers -/

/-- The magnitude of an integer: hexadecimal after `0x`, else decimal, and at most 64 bits. -/
def readMagnitude (cs : List Char) : Option UInt64 :=
  let limit := UInt64.size - 1
  let value :=
    match cs with
    | '0' :: 'x' :: digits => readUpTo 16 limit digits
    | _ => if cs.all Char.isDigit then readUpTo 10 limit cs else none
  value.map Nat.toUInt64

/-- An integer such as `#0x10`, `-0x10`, `16` or `#-8`. A magnitude past the signed range is the
word with that pattern, and its negation wraps. -/
def readInteger (cs : List Char) : Option Int64 :=
  match (trim cs).dropWhile (· == '#') with
  | '-' :: rest => (readMagnitude rest).map fun m => -m.toInt64
  | digits => (readMagnitude digits).map UInt64.toInt64

/-! ## Memory references -/

/-- The access size in bytes that a size word states. -/
def accessSize? (cs : List Char) : Option UInt8 :=
  match String.ofList cs with
  | "byte" => some 1
  | "word" => some 2
  | "dword" => some 4
  | "qword" => some 8
  | "tbyte" => some 10
  | "xmmword" => some 16
  | "ymmword" => some 32
  | _ => none

/-- The segment and the rest of the text before a bracket, as in `qword ptr fs:[…]`. The segment is
the last word, where only the space divides words. -/
def readSegment (front : List Char) : Option String × List Char :=
  let front := trim (dropEndWhile (· == ':') (trim front))
  if front.contains ' ' then
    let last := trim (front.reverse.takeWhile (· != ' ')).reverse
    let rest := trim ((front.reverse.dropWhile (· != ' ')).drop 1).reverse
    let name := String.ofList last
    if Register.X64.isSegment name then (some name, rest) else (none, front)
  else
    let name := String.ofList front
    if Register.X64.isSegment name then (some name, []) else (none, front)

/-- Add one term of a sum to the reference: `reg*scale`, an integer, or a register, which is the
base unless there is one. -/
def addTerm (m : Memory) (negative : Bool) (term : List Char) : Option Memory :=
  if term.contains '*' then do
    let scale ← readUpTo 10 255 ((term.dropWhile (· != '*')).drop 1)
    let index := String.ofList (term.takeWhile (· != '*'))
    return { m with index := some index, scale := scale.toUInt8 }
  else
    match readInteger term with
    | some v => some { m with displacement := m.displacement + if negative then -v else v }
    | none =>
      let name := String.ofList term
      if isRegisterName name then
        match m.base with
        | none => some { m with base := some name }
        | some _ => some { m with index := some name }
      else none

/-- A sum of terms, each with the sign word that stands right before it. -/
def readSum (m : Memory) (negative : Bool) : List (List Char) → Option Memory
  | [] => some m
  | ['+'] :: rest => readSum m false rest
  | ['-'] :: rest => readSum m true rest
  | term :: rest => do
    let m ← addTerm m negative term
    readSum m false rest

/-- The multiplier for a shift such as `lsl #3`; eight places or more count as none. -/
def shiftScale (cs : List Char) : UInt8 :=
  let amount := ((words cs)[1]?.bind readInteger).getD 0
  let places := amount.toUInt64.toNat % UInt32.size
  if places < 8 then (Nat.pow 2 places).toUInt8 else 1

/-- A list `base, offset` or `base, index, shift`. -/
def readParts (m : Memory) : List (List Char) → Option Memory
  | [] => none
  | base :: rest => do
    let name := String.ofList base
    guard (isRegisterName name)
    let m := { m with base := some name }
    let m ← match rest[0]? with
      | none => some m
      | some second =>
        match readInteger second with
        | some v => some { m with displacement := v }
        | none =>
          let index := String.ofList second
          if isRegisterName index then some { m with index := some index } else none
    match rest[1]? with
    | none => return m
    | some shift => return { m with scale := shiftScale shift }

/-- A memory reference: what stands before the first bracket gives size and segment, what stands up
to the last closing bracket gives the address. -/
def readMemory (cs : List Char) : Option Memory :=
  let front := cs.takeWhile (· != '[')
  let tail := (cs.dropWhile (· != '[')).drop 1
  if tail.contains ']' then
    let inner := ((tail.reverse.dropWhile (· != ']')).drop 1).reverse
    let (segment, front) := readSegment front
    let size := (before? ['p', 't', 'r'] front).bind fun word => accessSize? (trim word)
    let m : Memory := { size, segment }
    if inner.contains ',' then readParts m ((inner.splitOnP (· == ',')).map trim)
    else readSum m false (words inner)
  else none

/-! ## Operands -/

/-- One operand, read in lower case. -/
def read (piece : List Char) : Operand :=
  let lower := piece.map Char.toLower
  let text := String.ofList lower
  if lower.contains '[' then
    match readMemory lower with
    | some m => .memory m
    | none => .other text
  else
    match readInteger lower with
    | some v => .immediate v
    | none => if isRegisterName text then .register text else .other text

/-- All operands of an instruction, in order. -/
def readAll (text : String) : List Operand :=
  match trim text.toList with
  | [] => []
  | cs => (cutAtCommas 0 cs).map fun piece => read (trim piece)

end MethodLift.Operand
