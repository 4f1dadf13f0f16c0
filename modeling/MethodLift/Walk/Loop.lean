import MethodLift.Walk.Setting

/-!
# Values carried around a loop

A branch backwards starts another round of a loop. The code of the loop was made for the state of
the first round, so it is right only if every register and stack slot that a round reads before
writing it still holds the same value. `carried` lists those that do not.
-/

namespace MethodLift

/-- The first elements up to and including the first that satisfies `p`. -/
def takeThrough {α : Type} (p : α → Bool) : List α → List α
  | [] => []
  | x :: xs => if p x then [x] else x :: takeThrough p xs

/-- An offset with its sign. -/
def signedText (v : Int64) : String :=
  if 0 ≤ v.toInt then "+" ++ toString v.toInt else toString v.toInt

def slotName (slot : Slot) : String := "[" ++ slot.1 ++ signedText slot.2 ++ "]"

namespace Setting

variable (s : Setting)

/-- The instructions from a loop's head to the branch back to it. -/
def loopBody (head back : UInt64) : List Instruction :=
  takeThrough (fun i => i.address == back) (s.body.dropWhile fun i => i.address != head)

/-- The first operand is only written. -/
def writesFirst (i : Instruction) : Bool :=
  match s.isa.kind i with
  | .move | .load | .loadAddress | .pop => true
  | .arithmetic _ => 3 ≤ i.operands.length
  | _ => false

/-- An operand read from mentions the register. -/
def operandReads (register : String) : Operand → Bool
  | .register r => s.isa.family r == register
  | .memory ref =>
    ref.base.any (fun r => s.isa.family r == register) ||
      ref.index.any (fun r => s.isa.family r == register)
  | _ => false

/-- A destination mentions the register in an address. -/
def destinationReads (register : String) : Operand → Bool
  | .register _ => false
  | operand => s.operandReads register operand

def isCall (i : Instruction) : Bool :=
  match s.isa.kind i with
  | .call | .indirectCall => true
  | _ => false

/-- The instruction reads the full register; a call may read the argument registers. -/
def readsRegister (register : String) (i : Instruction) : Bool :=
  (match i.operands with
    | [] => false
    | first :: rest =>
      (if s.writesFirst i then s.destinationReads register first
        else s.operandReads register first) ||
      rest.any (s.operandReads register)) ||
  (s.isCall i && s.convention.arguments.contains register) ||
  (s.isa.kind i == .ret && register == s.convention.result)

/-- The instruction overwrites the full register. -/
def writesRegister (register : String) (i : Instruction) : Bool :=
  (match i.operands with
    | .register r :: _ => s.isa.family r == register
    | _ => false) ||
  (s.isCall i && s.convention.volatile.contains register)

/-- The code reads the full register before it writes it. -/
def needsRegister (register : String) : List Instruction → Bool
  | [] => false
  | i :: rest =>
    if s.readsRegister register i then true
    else if s.writesRegister register i then false
    else needsRegister register rest

/-- A memory operand of the instruction is the stack slot. -/
def touchesSlot (slot : Slot) (i : Instruction) : Bool :=
  i.operands.any fun operand =>
    operand.memory?.any fun ref =>
      ref.index.isNone && ref.displacement == slot.2 &&
        ref.base.any fun r => s.isa.family r == slot.1

/-- The code loads the stack slot before it stores to it. -/
def needsSlot (slot : Slot) : List Instruction → Bool
  | [] => false
  | i :: rest =>
    if s.touchesSlot slot i then s.isa.kind i != .store else needsSlot slot rest

/-- What a round of the loop needs as it was at the head, and finds changed; sorted. -/
def carried (loop : List Instruction) (head now : Machine) : List String :=
  let registers := head.registers.entries.filter fun (r, v) =>
    now.registers.get? r != some v && s.needsRegister r loop
  let slots := head.stack.entries.filter fun (slot, v) =>
    now.stack.get? slot != some v && s.needsSlot slot loop
  let names := registers.map (fun e => e.1) ++ slots.map fun e => slotName e.1
  names.mergeSort

end Setting

end MethodLift
