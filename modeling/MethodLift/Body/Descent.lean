import MethodLift.Body.Linear

/-!
# Recursive descent

`descend` follows control flow from the entry of a body and collects what it reaches. Conditional
targets in the window are always followed. An unconditional target is followed when it points
backwards or no further than the furthest conditional target seen so far, which keeps tail calls
out. Calls are never followed.

The search is a small machine: it either walks straight on from an address (`cursor`) or takes the
next waiting address. Every step finds a new address of the window, drops a waiting one or stops
walking, so three steps an address of the window are enough.
-/

namespace MethodLift.Body

/-- The state of the search. -/
structure Descent where
  /-- What was found, by ascending address. -/
  seen : List (UInt64 × Instruction)
  /-- Addresses that wait to be walked from. -/
  queue : List UInt64
  /-- Where the current walk stands. -/
  cursor : Option UInt64
  /-- The furthest conditional target so far. -/
  furthest : UInt64

/-- Insert by ascending address. -/
def insertByAddress (address : UInt64) (i : Instruction) :
    List (UInt64 × Instruction) → List (UInt64 × Instruction)
  | [] => [(address, i)]
  | e :: es => if address < e.1 then (address, i) :: e :: es else e :: insertByAddress address i es

namespace Descent

def start (entry : UInt64) : Descent := ⟨[], [entry], none, entry⟩

def hasSeen (d : Descent) (address : UInt64) : Bool := d.seen.any fun e => e.1 == address

/-- The search after `i` was found at `address`. -/
def visit (isa : InstructionSet) (entry stop : UInt64) (d : Descent) (address : UInt64)
    (i : Instruction) : Descent :=
  let kind := isa.kind i
  let target := forwardTarget? i entry stop
  let furthest :=
    if kind.isConditional then (target.map (max d.furthest)).getD d.furthest else d.furthest
  let followed :=
    if kind.isConditional then target
    else if kind == .jump then target.filter fun t => t ≤ d.furthest || t < address
    else none
  { seen := insertByAddress address i d.seen
    queue := d.queue ++ followed.toList
    cursor := if kind.endsFlow then none else some i.next
    furthest }

/-- One step; nothing is left to do when there is no cursor and the queue is empty. -/
def step (isa : InstructionSet) (decoder : Decoder) (image : Image) (entry stop : UInt64)
    (d : Descent) : Option Descent :=
  match d.cursor with
  | some address =>
    if d.hasSeen address then some { d with cursor := none }
    else
      match fetch? decoder image stop address with
      | none => some { d with cursor := none }
      | some i => some (d.visit isa entry stop address i)
  | none =>
    match d.queue with
    | [] => none
    | address :: rest => some { d with queue := rest, cursor := some address }

/-- At most `fuel` steps. -/
def run (isa : InstructionSet) (decoder : Decoder) (image : Image) (entry stop : UInt64) :
    Nat → Descent → Descent
  | 0, d => d
  | fuel + 1, d =>
    match d.step isa decoder image entry stop with
    | none => d
    | some d => run isa decoder image entry stop fuel d

end Descent

/-- Everything reachable from `entry` within a window that ends at `stop`, by ascending address. -/
def descend (isa : InstructionSet) (decoder : Decoder) (image : Image) (stop entry : UInt64) :
    List Instruction :=
  let fuel := 3 * (stop.toNat - entry.toNat) + 3
  ((Descent.start entry).run isa decoder image entry stop fuel).seen.map (·.2)

end MethodLift.Body
