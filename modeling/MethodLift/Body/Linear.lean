import MethodLift.Body.Basic

/-!
# Linear sweeps

`sweepExact` decodes a window of known length from front to back. `sweep` guesses where a body ends:
at an instruction that ends flow once no forward branch target seen so far lies beyond it. A
conditional branch always counts, an unconditional jump only while a target is pending, so that a
tail call does not drag the next function into the body.

A sweep is a loop that need not end: at an instruction without bytes it would go round for ever. It
gives no body then. Otherwise the next instruction lies further on, and the window ends some time.
-/

namespace MethodLift.Body

/-- The instructions from `address` up to `stop`, one after the other. -/
def sweepExact (decoder : Decoder) (image : Image) (stop address : UInt64) :
    Option (List Instruction) :=
  match _h : fetch? decoder image stop address with
  | none => some []
  | some i =>
    if address < i.next then (sweepExact decoder image stop i.next).map (i :: ·) else none
termination_by stop.toNat - address.toNat
decreasing_by
  have := lt_of_fetch? _h
  simp only [UInt64.lt_iff_toNat_lt] at *
  omega

/-- The direct target of `i`, when it lies between `start` and `stop`. -/
def forwardTarget? (i : Instruction) (start stop : UInt64) : Option UInt64 :=
  i.target?.filter fun t => start ≤ t && t < stop

/-- The targets that wait to be reached once `i` has been swept. -/
def pendingAfter (kind : InstructionKind) (i : Instruction) (stop : UInt64)
    (pending : List UInt64) : List UInt64 :=
  let counts := kind.isConditional || (kind == .jump && !pending.isEmpty)
  let pending := if counts then (forwardTarget? i i.next stop).toList ++ pending else pending
  pending.filter fun t => i.next ≤ t

/-- The instructions from `address` on until the body looks finished. -/
def sweepFrom (isa : InstructionSet) (decoder : Decoder) (image : Image) (stop : UInt64)
    (pending : List UInt64) (address : UInt64) : Option (List Instruction) :=
  match _h : fetch? decoder image stop address with
  | none => some []
  | some i =>
    let kind := isa.kind i
    let pending := pendingAfter kind i stop pending
    if kind.endsFlow && pending.isEmpty then some [i]
    else if address < i.next then (sweepFrom isa decoder image stop pending i.next).map (i :: ·)
    else none
termination_by stop.toNat - address.toNat
decreasing_by
  have := lt_of_fetch? _h
  simp only [UInt64.lt_iff_toNat_lt] at *
  omega

/-- A body whose length is guessed, within a window that ends at `stop`. -/
def sweep (isa : InstructionSet) (decoder : Decoder) (image : Image) (stop start : UInt64) :
    Option (List Instruction) :=
  sweepFrom isa decoder image stop [] start

end MethodLift.Body
