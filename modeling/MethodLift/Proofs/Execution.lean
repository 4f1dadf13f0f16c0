import MethodLift.Bytecode.Basic
import MethodLift.Isa.X64

/-!
# Two machines for integer code

`Native` runs straight-line x86-64 code on 64-bit registers: moves, arithmetic that wraps around,
pushes and pops. `Frame` runs bytecode of the same kind on an evaluation stack. Whatever is not
integer code has no step on either machine.
-/

namespace MethodLift

/-! ## Native code -/

namespace Native

/-- Arithmetic on 64-bit words. -/
inductive Alu where
  | add | sub | imul | and | or | xor
  deriving DecidableEq, Repr

namespace Alu

def ofMnemonic? (mnemonic : String) : Option Alu :=
  [("add", add), ("sub", sub), ("imul", imul), ("and", and), ("or", or), ("xor", xor)].lookup
    mnemonic

/-- The result, wrapped around. -/
def apply (a b : Int64) : Alu → Int64
  | add => a + b
  | sub => a - b
  | imul => a * b
  | and => a &&& b
  | or => a ||| b
  | xor => a ^^^ b

end Alu

/-- A 64-bit register that is neither stack, frame nor instruction pointer. -/
def isGeneral (register : String) : Bool :=
  Register.X64.width? register == some 64 &&
    !(["rsp", "rbp", "rip"].contains (Register.X64.family register))

inductive Source where
  | register (name : String)
  | immediate (value : Int64)
  deriving DecidableEq, Repr

def Source.ofOperand? : Operand → Option Source
  | .register r => if isGeneral r then some (.register r) else none
  | .immediate v => some (.immediate v)
  | _ => none

inductive Op where
  | move (target : String) (source : Source)
  /-- `target` receives the result of the two others. -/
  | alu (f : Alu) (target left : String) (right : Source)
  | push (register : String)
  | pop (target : String)
  deriving DecidableEq, Repr

/-- An instruction with a register and a source. -/
def Op.ofPair? (mnemonic register : String) (source : Source) : Option Op :=
  if mnemonic = "mov" then some (.move register source)
  else (Alu.ofMnemonic? mnemonic).map fun f => .alu f register register source

/-- The straight-line operation that an instruction is. -/
def Op.ofInstruction? (i : Instruction) : Option Op :=
  match i.operands with
  | [.register r, operand] =>
    if isGeneral r then (Source.ofOperand? operand).bind (ofPair? i.mnemonic r) else none
  | [.register r, .register a, .immediate v] =>
    if isGeneral r ∧ isGeneral a ∧ i.mnemonic = "imul" then some (.alu .imul r a (.immediate v))
    else none
  | [.register r] =>
    if isGeneral r ∧ i.mnemonic = "push" then some (.push r)
    else if isGeneral r ∧ i.mnemonic = "pop" then some (.pop r)
    else none
  | _ => none

structure State where
  /-- Words by full register. -/
  registers : String → Int64
  /-- The last word pushed first. -/
  stack : List Int64

namespace State

def get (σ : State) (register : String) : Int64 := σ.registers (Register.X64.family register)

def set (σ : State) (register : String) (v : Int64) : State :=
  { σ with registers := fun r => if r = Register.X64.family register then v else σ.registers r }

def read (σ : State) : Source → Int64
  | .register r => σ.get r
  | .immediate v => v

end State

/-- One operation; there is none to pop from an empty stack. -/
def Op.exec (σ : State) : Op → Option State
  | move r source => some (σ.set r (σ.read source))
  | alu f r a b => some (σ.set r (f.apply (σ.get a) (σ.read b)))
  | push r => some { σ with stack := σ.get r :: σ.stack }
  | pop r =>
    match σ.stack with
    | v :: rest => some (({ σ with stack := rest } : State).set r v)
    | [] => none

/-- Operations in order. -/
def run (σ : State) : List Op → Option State
  | [] => some σ
  | op :: ops => (op.exec σ).bind (run · ops)

end Native

/-! ## Bytecode -/

/-- The result of integer arithmetic, wrapped around. -/
def ArithmeticOp.compute? (a b : Int64) : ArithmeticOp → Option Int64
  | add => some (a + b)
  | subtract => some (a - b)
  | multiply => some (a * b)
  | and => some (a &&& b)
  | or => some (a ||| b)
  | xor => some (a ^^^ b)
  | _ => none

/-- A call under evaluation. -/
structure Frame where
  arguments : List Int64
  /-- Local variables that have a value. -/
  assigned : UInt16 → Option Int64 := fun _ => none
  stack : List Int64 := []

namespace Frame

def push (f : Frame) (v : Int64) : Frame := { f with stack := v :: f.stack }

def assign (f : Frame) (slot : UInt16) (v : Int64) : Frame :=
  { f with assigned := fun k => if k = slot then some v else f.assigned k }

/-- One instruction of integer code. -/
def step (f : Frame) : Bytecode → Option Frame
  | .ldarg n => f.arguments[n.toNat]?.map f.push
  | .ldloc n => (f.assigned n).map f.push
  | .stloc n =>
    match f.stack with
    | v :: rest => some (({ f with stack := rest } : Frame).assign n v)
    | [] => none
  | .ldcI8 v => some (f.push v)
  | .arithmetic op =>
    match f.stack with
    | b :: a :: rest => (op.compute? a b).map fun v => { f with stack := v :: rest }
    | _ => none
  | _ => none

def steps (f : Frame) : List Bytecode → Option Frame
  | [] => some f
  | b :: code => (f.step b).bind (steps · code)

theorem steps_append (f : Frame) (c d : List Bytecode) :
    f.steps (c ++ d) = (f.steps c).bind (steps · d) := by
  induction c generalizing f with
  | nil => rfl
  | cons b c ih =>
    simp only [List.cons_append, steps]
    cases f.step b with
    | none => rfl
    | some g => exact ih g

end Frame

end MethodLift
