import MethodLift.Isa.Basic
import MethodLift.Managed.Table
import MethodLift.Walk.Machine

/-!
# The setting of a walk

What the walk over one body relies on and never changes: the instruction set and calling convention,
the runtime helpers, what the host knows about addresses, the loaded types, the method and its
native body. Operands, memory references and arguments are read in a setting.
-/

namespace MethodLift

/-- What the host knows to live at an address. -/
structure Symbols where
  /-- The method whose code starts there. -/
  methodAt? : UInt64 → Option Method := fun _ => none
  /-- The class whose runtime structure is pointed to from there; for an array its element class. -/
  classAt? : UInt64 → Option TypeDefinition := fun _ => none
  /-- The string literal stored there. -/
  stringAt? : UInt64 → Option String := fun _ => none

structure Setting where
  isa : InstructionSet
  convention : CallingConvention
  helpers : HelperTable
  symbols : Symbols
  table : TypeTable
  /-- The type of a full name. -/
  findType? : String → Option TypeDefinition
  method : Method
  body : List Instruction

/-- The register that always reads as zero. -/
def zeroRegister : String := "xzr"

/-- Where the pointer to the static fields stands in the runtime structure of a class. -/
def staticFieldsOffset : Int64 := 0xB8

/-- How an argument reaches the callee. -/
inductive ArgumentSlot where
  | register (name : String)
  | floatingPoint
  | stack
  deriving DecidableEq, Repr

/-- What a memory reference points to. -/
inductive Place where
  | stack (slot : Slot)
  | global (address : UInt64)
  | relative (base : Value) (offset : Int64)
  | unknown
  deriving DecidableEq, Repr

/-- The slots of arguments, given which ones are floating point numbers; `position` and `integers`
count the arguments and the integer arguments so far. -/
def CallingConvention.slotsFrom (c : CallingConvention) (position integers : Nat) :
    List Bool → List ArgumentSlot
  | [] => []
  | true :: rest => .floatingPoint :: c.slotsFrom (position + 1) integers rest
  | false :: rest =>
    let slot := match c.arguments[if c.positional then position else integers]? with
      | some r => .register r
      | none => .stack
    slot :: c.slotsFrom (position + 1) (integers + 1) rest

/-- How each argument of a method is passed, `this` first. -/
def CallingConvention.argumentSlots (c : CallingConvention) (m : Method) : List ArgumentSlot :=
  c.slotsFrom 0 0 <|
    (if m.isStatic then [] else [false]) ++ m.parameters.map fun p => p.type.isFloatingPoint

namespace Setting

variable (s : Setting)

/-! ## Registers and operands -/

/-- The register is a part of a stack or frame register. -/
def isFrame (register : String) : Bool := s.convention.isFrame (s.isa.family register)

/-- Let the full register of a name hold a value. -/
def bind (m : Machine) (register : String) (v : Option Value) : Machine :=
  m.setRegister (s.isa.family register) v

def readRegister (m : Machine) (register : String) : Input :=
  if s.isa.family register = zeroRegister then
    .ofValue register (.integer 0 (s.isa.width register))
  else ⟨register, m.registers.get? (s.isa.family register)⟩

/-- The width of an operand in bits. -/
def operandWidth : Operand → Nat
  | .register r => s.isa.width r
  | .memory ref => (ref.size.map fun n => n.toNat * 8).getD 32
  | _ => 32

/-- The value of a source operand; an immediate takes the given width. -/
def input (m : Machine) (width : Nat) (operand : Operand) : Input :=
  match operand with
  | .register r => s.readRegister m r
  | .immediate v => .ofValue operand.render (.integer v width)
  | .memory _ | .other _ => .missing operand.render

/-- The integer type of a register that wide. -/
def integerType (width : Nat) : Signature :=
  .definition (s.table.primitive (if width ≤ 32 then .int32 else .int64))

/-- The argument at a position of a call that takes integers only. -/
def argument (m : Machine) (position : Nat) : Input :=
  match s.convention.arguments[position]? with
  | some r => s.readRegister m r
  | none => .missing ("argument " ++ toString position)

/-- What a call passes in the slot of its argument number `position`. -/
def passed (m : Machine) (slot : ArgumentSlot) (position : Nat) : Input :=
  match slot with
  | .register r => s.readRegister m r
  | .floatingPoint => .missing ("floating point argument " ++ toString position)
  | .stack => .missing ("stack argument " ++ toString position)

def clobber (m : Machine) : Machine := m.clobber s.convention.volatile

/-! ## Memory -/

/-- Where a memory reference of instruction `i` points to. -/
def place (m : Machine) (i : Instruction) (ref : Memory) : Place :=
  if ref.segment.isSome || ref.index.isSome then .unknown
  else
    match ref.base with
    | none => .global ref.displacement.toUInt64
    | some base =>
      if base = "rip" then .global (i.next + ref.displacement.toUInt64)
      else if s.isFrame base then .stack (s.isa.family base, ref.displacement)
      else
        match m.registers.get? (s.isa.family base) with
        | some (.constant c) =>
          match c.integer? with
          | some a => .global (a.toUInt64 + ref.displacement.toUInt64)
          | none => .unknown
        | some v => .relative v ref.displacement
        | none => .unknown

/-- The field at an offset from a value of a known type. -/
def fieldAt? (ls : Locals) (base : Value) (offset : Int64) : Option FieldRef :=
  if 0 ≤ offset.toInt ∧ offset.toInt < UInt32.size then
    let offset := offset.toUInt64.toUInt32
    match base with
    | .local id => do
      let owner ← (← ls[id]?).type.root?
      return ⟨owner, ← s.table.instanceField? owner offset⟩
    | .staticFields owner => (s.table.staticField? owner offset).map fun f => ⟨owner, f⟩
    | _ => none
  else none

/-- The object that a field reached through a value belongs to. -/
def fieldValue (base : Value) (f : FieldRef) : Value :=
  match base with
  | .local id => .field (some id) f
  | _ => .field none f

/-! ## The body and its arguments -/

/-- The address of an instruction of the body. -/
def isInside (address : UInt64) : Bool := s.body.any fun i => i.address == address

/-- Kind, name and type of each argument, `this` first. -/
def argumentsOf (m : Method) : List (LocalKind × String × Signature) :=
  let this := if m.isStatic then [] else [(.this, "this", .definition m.owner)]
  let parameters := m.parameters.zipIdx.map fun (p, n) =>
    let slot := (this.length + n).toUInt16
    (.parameter slot, if p.name.isEmpty then "arg" ++ toString slot else p.name, p.type)
  this ++ parameters

/-- The register an argument comes in. -/
def registerOf : ArgumentSlot → Option String
  | .register r => some r
  | _ => none

/-- The locals at entry: the arguments. -/
def entryLocals : Locals :=
  ((argumentsOf s.method).zip (s.convention.argumentSlots s.method)).zipIdx.map
    fun ((⟨kind, name, type⟩, slot), id) => { id, name, type, register := registerOf slot, kind }

/-- What is imported at entry: the types of the arguments. -/
def entryImports : List Signature := (argumentsOf s.method).map fun a => a.2.2

/-- The state at entry: each argument that comes in a register is there. -/
def entryMachine : Machine :=
  s.entryLocals.foldl (fun m l =>
    match l.register with
    | some r => m.setRegister r (some (.local l.id))
    | none => m) {}

end Setting

end MethodLift
