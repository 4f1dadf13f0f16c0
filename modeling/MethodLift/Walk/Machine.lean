import MethodLift.Action.Basic
import MethodLift.FinMap

/-!
# What the machine is known to hold

The state of the walk over a body: which value each full register and each stack slot holds, the
values pushed and not yet popped, and the comparison that set the flags. Whatever is not known is
left out. Where several ways lead to one place, `join` keeps what all of them agree on.
-/

namespace MethodLift

/-- A stack slot: frame register and displacement. -/
abbrev Slot := String × Int64

structure Machine where
  /-- Values by full register. -/
  registers : FinMap String Value := ∅
  stack : FinMap Slot Value := ∅
  /-- Pushed values, the last one first; a pushed value may be unknown. -/
  pushed : List (Option Value) := []
  comparison : Option Comparison := none
  deriving DecidableEq, Repr

namespace Machine

/-- Keep only what both states agree on. -/
def join (m n : Machine) : Machine where
  registers := m.registers.agree n.registers
  stack := m.stack.agree n.stack
  pushed := if m.pushed = n.pushed then m.pushed else []
  comparison := if m.comparison = n.comparison then m.comparison else none

/-- Let a full register hold a value, or nothing known. -/
def setRegister (m : Machine) (register : String) : Option Value → Machine
  | some v => { m with registers := m.registers.insert register v }
  | none => { m with registers := m.registers.erase register }

@[simp] theorem stack_setRegister (m : Machine) (register : String) (v : Option Value) :
    (m.setRegister register v).stack = m.stack := by
  cases v <;> rfl

@[simp] theorem pushed_setRegister (m : Machine) (register : String) (v : Option Value) :
    (m.setRegister register v).pushed = m.pushed := by
  cases v <;> rfl

@[simp] theorem comparison_setRegister (m : Machine) (register : String) (v : Option Value) :
    (m.setRegister register v).comparison = m.comparison := by
  cases v <;> rfl

theorem get?_setRegister (m : Machine) (register : String) (v : Option Value) (r : String) :
    (m.setRegister register v).registers.get? r =
      if r = register then v else m.registers.get? r := by
  cases v with
  | none => exact m.registers.get?_erase register r
  | some v => exact m.registers.get?_insert register r v

/-- Let a stack slot hold a value, or nothing known. -/
def setSlot (m : Machine) (slot : Slot) : Option Value → Machine
  | some v => { m with stack := m.stack.insert slot v }
  | none => { m with stack := m.stack.erase slot }

@[simp] theorem registers_setSlot (m : Machine) (slot : Slot) (v : Option Value) :
    (m.setSlot slot v).registers = m.registers := by
  cases v <;> rfl

@[simp] theorem pushed_setSlot (m : Machine) (slot : Slot) (v : Option Value) :
    (m.setSlot slot v).pushed = m.pushed := by
  cases v <;> rfl

@[simp] theorem comparison_setSlot (m : Machine) (slot : Slot) (v : Option Value) :
    (m.setSlot slot v).comparison = m.comparison := by
  cases v <;> rfl

theorem get?_setSlot (m : Machine) (slot : Slot) (v : Option Value) (a : Slot) :
    (m.setSlot slot v).stack.get? a = if a = slot then v else m.stack.get? a := by
  cases v with
  | none => exact m.stack.get?_erase slot a
  | some v => exact m.stack.get?_insert slot a v

def push (m : Machine) (v : Option Value) : Machine := { m with pushed := v :: m.pushed }

/-- The value on top of the stack and the state without it. -/
def pop (m : Machine) : Option Value × Machine :=
  match m.pushed with
  | v :: rest => (v, { m with pushed := rest })
  | [] => (none, m)

/-- Forget the registers a call may overwrite, and the flags. -/
def clobber (m : Machine) (volatile : List String) : Machine :=
  { m with registers := volatile.foldl FinMap.erase m.registers, comparison := none }

end Machine

end MethodLift
