import MethodLift.Text.Number

/-!
# Registers of AArch64

The `w` names are the low halves of the `x` names; `fp` and `lr` are other names of `x29` and `x30`.
The zero register `xzr` and the stack pointer `sp` have no number.
-/

namespace MethodLift.Register.A64

open MethodLift.Text

/-- The number of a register named by the letter `kind` and a number up to thirty. -/
def numbered? (kind : Char) (name : String) : Option Nat :=
  match name.toList with
  | c :: rest => if c = kind then readUpTo 10 30 rest else none
  | [] => none

/-- The width of a vector register, which its first letter gives. -/
def vectorWidth? (name : String) : Option Nat :=
  match name.toList with
  | c :: rest => do
    let width ← match c with
      | 'b' => some 8
      | 'h' => some 16
      | 's' => some 32
      | 'd' => some 64
      | 'q' | 'v' => some 128
      | _ => none
    let _ ← readUpTo 10 31 rest
    return width
  | [] => none

def isRegister (name : String) : Bool :=
  ["sp", "wsp", "xzr", "wzr", "fp", "lr"].contains name || (numbered? 'x' name).isSome ||
    (numbered? 'w' name).isSome || (vectorWidth? name).isSome

/-- The width of a register in bits. -/
def width? (name : String) : Option Nat :=
  if ["sp", "xzr", "fp", "lr"].contains name then some 64
  else if ["wsp", "wzr"].contains name then some 32
  else if (numbered? 'x' name).isSome then some 64
  else if (numbered? 'w' name).isSome then some 32
  else vectorWidth? name

/-- The full register `name` is a part of; a name without one stands for itself. -/
def family (name : String) : String :=
  match name with
  | "fp" => "x29"
  | "lr" => "x30"
  | "wsp" => "sp"
  | "wzr" => "xzr"
  | _ =>
    match numbered? 'w' name with
    | some n => "x" ++ toString n
    | none => name

end MethodLift.Register.A64
