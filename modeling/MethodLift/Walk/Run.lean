import MethodLift.Flow.Graph
import MethodLift.Walk.Loop
import MethodLift.Walk.Step

/-!
# The walk over a body

Instructions are visited in order. At a branch target the state is made from what the branches seen
so far brought along: it is joined with the current state if control falls into the target, and
replaces it otherwise. A branch backwards is checked against the state its target was entered with.
-/

namespace MethodLift

structure Walk where
  machine : Machine
  locals : Locals
  /-- The slot of the next temporary. -/
  nextSlot : UInt16 := 0
  actions : List Action := []
  /-- The joined states of the branches to targets ahead. -/
  incoming : FinMap UInt64 Machine := ∅
  /-- The state at each branch target passed. -/
  entered : FinMap UInt64 Machine := ∅
  /-- Control runs on from the instruction before. -/
  fallsThrough : Bool := true
  /-- What was imported into the destination assembly, in order. -/
  imports : List Signature := []
  deriving DecidableEq, Repr

namespace Walk

/-- The number of arguments among the locals of a method. -/
def argumentCount (method : Method) : Nat := (Setting.argumentsOf method).length

/-- A local for the result of an instruction. -/
def temporary (id : Nat) (slot : UInt16) (new : NewLocal) : Local :=
  { id, name := "local" ++ toString slot, type := new.type, register := some new.register,
    kind := .temporary slot }

def start (s : Setting) : Walk :=
  { machine := s.entryMachine, locals := s.entryLocals, imports := s.entryImports }

/-- Arrive at a branch target. -/
def enter (w : Walk) (address : UInt64) : Walk :=
  let machine := match w.incoming.get? address with
    | some m => if w.fallsThrough then w.machine.join m else m
    | none => w.machine
  { w with
    machine
    incoming := w.incoming.erase address
    entered := w.entered.insert address machine
    actions := w.actions ++ [⟨address, .label address⟩] }

/-- Take an instruction's step. -/
def advance (w : Walk) (s : Setting) (i : Instruction) : Walk :=
  let id := w.locals.length
  let step := s.step w.locals id w.machine i
  { w with
    machine := step.machine
    locals := w.locals ++ (step.result.map (temporary id w.nextSlot)).toList
    nextSlot := if step.result.isSome then w.nextSlot + 1 else w.nextSlot
    actions := w.actions ++ step.effects.map (Action.mk i.address)
    imports := w.imports ++ step.imports }

/-- Bring the state along a branch ahead. -/
def branchAhead (w : Walk) (target : UInt64) : Walk :=
  let m := match w.incoming.get? target with
    | some m => m.join w.machine
    | none => w.machine
  { w with incoming := w.incoming.insert target m }

/-- Check a branch back to a target that was passed. -/
def branchBack (w : Walk) (s : Setting) (i : Instruction) (target : UInt64) : Walk :=
  match w.entered.get? target with
  | none => w
  | some head =>
    match s.carried (s.loopBody target i.address) head w.machine with
    | [] => w
    | names =>
      let taint := .loopCarried (", ".intercalate names)
      { w with actions := w.actions ++ [⟨i.address, .unmodeled i.plainText taint⟩] }

/-- The target in the body that an instruction may branch to. -/
def branchTarget? (s : Setting) (i : Instruction) : Option UInt64 :=
  if (s.isa.kind i).isDirectBranch then i.target?.filter s.isInside else none

/-- Follow the branch of an instruction, if it has one. -/
def branch (w : Walk) (s : Setting) (i : Instruction) : Walk :=
  match branchTarget? s i with
  | some target => if target ≤ i.address then w.branchBack s i target else w.branchAhead target
  | none => w

/-- Control passes from the instruction to the next one. -/
def passes (s : Setting) (i : Instruction) : Bool :=
  let kind := s.isa.kind i
  !kind.endsFlow && !Graph.isFinalCall s.helpers kind i

/-- Visit the next instruction. -/
def visit (s : Setting) (w : Walk) (i : Instruction) : Walk :=
  let w := if (Graph.branchTargets s.isa s.body).contains i.address then w.enter i.address else w
  { (w.advance s i).branch s i with fallsThrough := passes s i }

/-- The walk over the whole body. -/
def run (s : Setting) : Walk := s.body.foldl (visit s) (start s)

end Walk

end MethodLift
