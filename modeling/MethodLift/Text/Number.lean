/-!
# Numbers as digits

Reading digits in a base up to sixteen, and writing a number in hexadecimal or decimal. Reading is
strict: no digit at all, or one character that is no digit of the base, gives nothing.
-/

namespace MethodLift.Text

/-- The value of a hexadecimal digit of either case. -/
def digitValue (c : Char) : Option Nat :=
  if '0' ≤ c ∧ c ≤ '9' then some (c.toNat - '0'.toNat)
  else if 'a' ≤ c ∧ c ≤ 'f' then some (c.toNat - 'a'.toNat + 10)
  else if 'A' ≤ c ∧ c ≤ 'F' then some (c.toNat - 'A'.toNat + 10)
  else none

/-- Continue the number `acc` with the digits `cs`. -/
def digitsFrom (base : Nat) : Nat → List Char → Option Nat
  | acc, [] => some acc
  | acc, c :: cs =>
    match digitValue c with
    | some d => if d < base then digitsFrom base (acc * base + d) cs else none
    | none => none

/-- The number written by a non-empty run of digits. -/
def readDigits (base : Nat) : List Char → Option Nat
  | [] => none
  | cs => digitsFrom base 0 cs

/-- A number of at most `limit`, with an optional plus sign. -/
def readUpTo (base limit : Nat) (cs : List Char) : Option Nat :=
  let digits := match cs with
    | '+' :: rest => rest
    | _ => cs
  (readDigits base digits).filter (· ≤ limit)

/-- Lower-case hexadecimal digits, at least one. -/
def hex (n : Nat) : String := String.ofList (Nat.toDigits 16 n)

/-- Upper-case hexadecimal digits, at least one. -/
def hexUpper (n : Nat) : String := String.ofList ((Nat.toDigits 16 n).map Char.toUpper)

/-- A number as disassembly shows it: a single digit as it is, anything larger in hexadecimal. -/
def numeral (n : Nat) : String := if n < 10 then hex n else "0x" ++ hex n

/-- `text` with zeros in front up to `width` characters. -/
def zeroPad (width : Nat) (text : String) : String :=
  String.ofList (List.replicate (width - text.length) '0') ++ text

/-- A byte as two hexadecimal digits. -/
def hexByte (b : UInt8) : String := zeroPad 2 (hex b.toNat)

/-- Bytes as hexadecimal digits, two a byte. -/
def hexBytes (bs : List UInt8) : String := String.join (bs.map hexByte)

/-- The bytes that pairs of hexadecimal digits stand for. -/
def readHexBytes : List Char → Option (List UInt8)
  | [] => some []
  | hi :: lo :: rest => do
    let h ← digitValue hi
    let l ← digitValue lo
    let bs ← readHexBytes rest
    return (h * 16 + l).toUInt8 :: bs
  | [_] => none

end MethodLift.Text
