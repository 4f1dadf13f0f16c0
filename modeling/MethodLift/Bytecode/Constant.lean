import MethodLift.Decimal.Shortest
import MethodLift.Managed.Primitive
import MethodLift.Text.Quoted

/-!
# Constants

The literals a method body can hold. Floating point numbers are kept as the bits that encode them;
`same` compares them as numbers, so that the two zeros are the same and a NaN is not itself.
-/

namespace MethodLift

open MethodLift.Text

inductive Constant where
  | null
  | boolean (value : Bool)
  | int32 (value : Int32)
  | int64 (value : Int64)
  | single (bits : UInt32)
  | double (bits : UInt64)
  | string (text : String)
  deriving DecidableEq, Repr

namespace Constant

/-- An integer of the width in bits of the register it lands in. -/
def ofWidth (value : Int64) (width : Nat) : Constant :=
  if width ≤ 32 then int32 value.toInt32 else int64 value

/-- The built-in type of the constant. -/
def primitive? : Constant → Option Primitive
  | null => none
  | boolean _ => some .boolean
  | int32 _ => some .int32
  | int64 _ => some .int64
  | single _ => some .single
  | double _ => some .double
  | string _ => some .string

def integer? : Constant → Option Int64
  | int32 v => some v.toInt64
  | int64 v => some v
  | _ => none

def isZero (c : Constant) : Bool := c.integer? == some 0

def render : Constant → String
  | null => "null"
  | boolean b => if b then "true" else "false"
  | int32 v => toString v.toInt
  | int64 v => toString v.toInt
  | single bits => Decimal.binary32.render bits.toNat ++ "f"
  | double bits => Decimal.binary64.render bits.toNat
  | string text => quoted text

/-- Equality of the values that two constants stand for. -/
def same : Constant → Constant → Bool
  | single a, single b => Decimal.binary32.equal a.toNat b.toNat
  | double a, double b => Decimal.binary64.equal a.toNat b.toNat
  | a, b => a == b

end Constant

end MethodLift
