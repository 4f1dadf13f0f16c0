import MethodLift.Body.Descent

/-!
# Decoding a method body

A body whose length is known is swept exactly. Otherwise a strategy finds its end, in a window of at
most `maxSize` bytes.
-/

namespace MethodLift

/-- How to find the end of a body of unknown length. -/
inductive Boundary where
  | linear | recursive
  deriving DecidableEq, Repr

def Boundary.render : Boundary → String
  | linear => "Linear sweep"
  | recursive => "Recursive descent"

structure BodyOptions where
  boundary : Boundary := .linear
  maxSize : UInt64 := 0x10000
  deriving DecidableEq, Repr

/-- The instructions of the body at `address`, if decoding comes to an end; there are none when the
address is not mapped. -/
def decodeBody (isa : InstructionSet) (decoder : Decoder) (image : Image) (address : UInt64)
    (length : Option UInt64) (options : BodyOptions) : Option (List Instruction) :=
  if image.isMapped address then
    match length with
    | some n => Body.sweepExact decoder image (Body.windowEnd address n) address
    | none =>
      let stop := Body.windowEnd address options.maxSize
      match options.boundary with
      | .linear => Body.sweep isa decoder image stop address
      | .recursive => some (Body.descend isa decoder image stop address)
  else some []

end MethodLift
