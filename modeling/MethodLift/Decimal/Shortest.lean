/-!
# Binary floating point numbers as shortest decimals

A binary number is given by its bit pattern. It is written with the fewest decimal digits that read
back as the same number; of two such decimals the nearer one is taken, and the upper one on a tie.
The decimal point always stands among or beside the digits: there is no exponent.

The digits are found by exact arithmetic on `m * 2^q`. All reals between two midpoints round to the
number, and the midpoints themselves do when `m` is even.
-/

namespace MethodLift.Decimal

/-- A binary format by the widths of its two fields. -/
structure Format where
  fractionBits : Nat
  exponentBits : Nat
  deriving DecidableEq, Repr

def binary32 : Format := ⟨23, 8⟩

def binary64 : Format := ⟨52, 11⟩

namespace Format

def fraction (f : Format) (bits : Nat) : Nat := bits % Nat.pow 2 f.fractionBits

def exponent (f : Format) (bits : Nat) : Nat :=
  bits / Nat.pow 2 f.fractionBits % Nat.pow 2 f.exponentBits

def isNegative (f : Format) (bits : Nat) : Bool :=
  bits / Nat.pow 2 (f.fractionBits + f.exponentBits) % 2 == 1

/-- All exponent bits are set. -/
def isSpecial (f : Format) (bits : Nat) : Bool := f.exponent bits == Nat.pow 2 f.exponentBits - 1

def isNaN (f : Format) (bits : Nat) : Bool := f.isSpecial bits && f.fraction bits != 0

def isZero (f : Format) (bits : Nat) : Bool := f.fraction bits == 0 && f.exponent bits == 0

/-- The patterns stand for equal numbers: a NaN equals nothing and both zeros are equal. -/
def equal (f : Format) (a b : Nat) : Bool :=
  !f.isNaN a && !f.isNaN b && (a == b || (f.isZero a && f.isZero b))

/-- The integer `m` of a finite number `m * 2^q`. -/
def mantissa (f : Format) (bits : Nat) : Nat :=
  if f.exponent bits = 0 then f.fraction bits else f.fraction bits + Nat.pow 2 f.fractionBits

/-- The exponent `q` of a finite number `m * 2^q`. -/
def scale (f : Format) (bits : Nat) : Int :=
  let bias : Int := Nat.pow 2 (f.exponentBits - 1) - 1 + f.fractionBits
  (max 1 (f.exponent bits) : Nat) - bias

end Format

/-- The reals that round to a number, in units of `2^scale`. -/
structure Interval where
  low : Nat
  value : Nat
  high : Nat
  scale : Int
  /-- The ends round to the number as well. -/
  closed : Bool
  deriving DecidableEq, Repr

/-- The interval of a finite number other than zero. Below a power of two the numbers are twice as
dense. -/
def Format.interval (f : Format) (bits : Nat) : Interval :=
  let m := f.mantissa bits
  { low := 4 * m - if m = Nat.pow 2 f.fractionBits then 1 else 2
    value := 4 * m
    high := 4 * m + 2
    scale := f.scale bits - 2
    closed := m % 2 == 0 }

/-- Compare `c * 10^p` with `n * 2^s`. -/
def compareScaled (c : Nat) (p : Int) (n : Nat) (s : Int) : Ordering :=
  compare (c * Nat.pow 10 p.toNat * Nat.pow 2 (-s).toNat)
    (n * Nat.pow 2 s.toNat * Nat.pow 10 (-p).toNat)

namespace Interval

/-- The decimal `c * 10^p` lies in the interval. -/
def holds (i : Interval) (c : Nat) (p : Int) : Bool :=
  let low := compareScaled c p i.low i.scale
  let high := compareScaled c p i.high i.scale
  (low == .gt || (i.closed && low == .eq)) && (high == .lt || (i.closed && high == .eq))

/-- Numerator and denominator of the value. -/
def ratio (i : Interval) : Nat × Nat :=
  (i.value * Nat.pow 2 i.scale.toNat, Nat.pow 2 (-i.scale).toNat)

/-- The least `e` for which the value is below `10^e`. -/
def magnitude (i : Interval) : Int :=
  let (n, d) := i.ratio
  if d ≤ n then (Nat.toDigits 10 (n / d)).length
  else 1 - ((Nat.toDigits 10 ((d + n - 1) / n - 1)).length : Int)

/-- The largest multiple of `10^p` that is no larger than the value, as its factor. -/
def floorAt (i : Interval) (p : Int) : Nat :=
  let (n, d) := i.ratio
  n * Nat.pow 10 (-p).toNat / (d * Nat.pow 10 p.toNat)

/-- The value lies below the middle between `c` and `c + 1` on the grid of `10^p`. -/
def isBelowMiddle (i : Interval) (c : Nat) (p : Int) : Bool :=
  compareScaled (2 * c + 1) p (2 * i.value) i.scale == .gt

/-- The neighbour of the value on the grid of `10^p` that reads back as it. -/
def onGrid? (i : Interval) (p : Int) : Option (Nat × Int) :=
  let c := i.floorAt p
  match i.holds c p, i.holds (c + 1) p with
  | true, true => some (if i.isBelowMiddle c p then c else c + 1, p)
  | true, false => some (c, p)
  | false, true => some (c + 1, p)
  | false, false => none

/-- The coarsest grid with a hit, tried from `10^p` downwards. -/
def shortestFrom (i : Interval) : Nat → Int → Nat × Int
  | 0, p => (i.floorAt p, p)
  | fuel + 1, p =>
    match i.onGrid? p with
    | some hit => hit
    | none => shortestFrom i fuel (p - 1)

/-- The shortest decimal that reads back, as digits and power of ten. Seventeen digits are always
enough. -/
def shortest (i : Interval) : Nat × Int := i.shortestFrom 17 (i.magnitude - 1)

end Interval

/-- The number `c * 10^p` with its decimal point. -/
def renderPositional (c : Nat) (p : Int) : String :=
  let digits := Nat.toDigits 10 c
  if 0 ≤ p then String.ofList (digits ++ List.replicate p.toNat '0')
  else
    let places := (-p).toNat
    let whole := digits.take (digits.length - places)
    let part := List.replicate (places - digits.length) '0' ++ digits.drop (digits.length - places)
    let part := (part.reverse.dropWhile (· == '0')).reverse
    let whole := if whole.isEmpty then ['0'] else whole
    String.ofList (if part.isEmpty then whole else whole ++ '.' :: part)

/-- The shortest decimal text of a bit pattern. -/
def Format.render (f : Format) (bits : Nat) : String :=
  if f.isNaN bits then "NaN"
  else
    let sign := if f.isNegative bits then "-" else ""
    if f.isSpecial bits then sign ++ "inf"
    else if f.isZero bits then sign ++ "0"
    else
      let (c, p) := (f.interval bits).shortest
      sign ++ renderPositional c p

end MethodLift.Decimal
