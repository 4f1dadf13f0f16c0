import MethodLift.Walk.Setting

/-!
# One instruction

`Setting.step` says what an instruction does to the known machine state and to the rebuilt body. It
depends on the state before, the locals made so far and the id that a new local would get, and on
nothing else: where control came from is no concern of a step.

A step makes at most one new local. Stack and frame registers are never bound to a value.
-/

namespace MethodLift

/-- The type of a new local and the full register it is made for. -/
structure NewLocal where
  type : Signature
  register : String
  deriving DecidableEq, Repr

/-- What an instruction does. -/
structure Step where
  /-- The state after it. -/
  machine : Machine
  /-- What it adds to the rebuilt body, in order. -/
  effects : List Effect := []
  result : Option NewLocal := none
  /-- What it imports into the destination assembly, in order. -/
  imports : List Signature := []
  deriving DecidableEq, Repr

/-- Whether a move extends its source, and if so with its sign. -/
def signedExtension? (mnemonic : String) : Option Bool :=
  [("movsx", true), ("movsxd", true), ("movzx", false), ("sxtb", true), ("sxth", true),
   ("sxtw", true), ("uxtb", false), ("uxth", false), ("uxtw", false)].lookup mnemonic

/-- The effect of an instruction that is not reconstructed. -/
def Instruction.unmodeled (i : Instruction) (what : String) : Effect :=
  .unmodeled i.plainText (.unmodeled what)

/-- The effect of an instruction whose operands have a form that is not reconstructed. -/
def Instruction.unmodeledForm (i : Instruction) : Effect :=
  i.unmodeled (i.mnemonic ++ " operand form")

namespace Setting

variable (s : Setting) (ls : Locals) (fresh : Nat) (m : Machine) (i : Instruction)

/-- The full register that a new local is made for. -/
def newLocal (register : String) (type : Signature) : NewLocal := ⟨type, s.isa.family register⟩

/-! ## Moves, loads and stores -/

/-- A register receives a constant. -/
def loadConstant (register : String) (value : Constant) : Step where
  machine := s.bind m register (some (.constant value))
  effects := [.loadConstant register value]

/-- Extend an integer into a new local. -/
def stepConvert (register : String) (source : Operand) (signed : Bool) : Step :=
  let width := s.operandWidth source
  let target := s.isa.width register
  let widening := if 32 < target then [Bytecode.extend 64 signed] else []
  { machine := s.bind m register (some (.local fresh))
    effects := [.convert (s.input m width source) (.extend width signed :: widening) fresh]
    result := some (s.newLocal register (s.integerType target))
    imports := [s.integerType target] }

def stepMove : Step :=
  match i.operands with
  | [.register register, source] =>
    if s.isFrame register then ⟨m, [], none, []⟩
    else
      match signedExtension? i.mnemonic with
      | some signed => s.stepConvert fresh m register source signed
      | none =>
        match source with
        | .immediate v => s.loadConstant m register (.ofWidth v (s.isa.width register))
        | .register r =>
          if s.isFrame r then { machine := s.bind m register none }
          else
            let source := s.readRegister m r
            { machine := s.bind m register source.value
              effects := [.copyRegister register source] }
        | _ => { machine := m, effects := [i.unmodeled (i.mnemonic ++ " source")] }
  | _ => { machine := m, effects := [i.unmodeledForm] }

/-- A register receives what an address in the image is known to hold. -/
def loadGlobal (register : String) (address : UInt64) : Step :=
  let value := ((s.symbols.classAt? address).map Value.classPointer) <|>
    ((s.symbols.stringAt? address).map fun text => Value.constant (.string text))
  { machine := s.bind m register value
    effects := [.loadGlobal register (some address) value] }

/-- A register receives a field; a new local is made for it. -/
def loadField (register : String) (ref : Memory) (base : Value) (offset : Int64) : Step :=
  match s.fieldAt? ls base offset with
  | some f =>
    { machine := s.bind m register (some (.local fresh))
      effects := [.readField (.ofValue ref.render (fieldValue base f)) (some fresh)]
      result := some (s.newLocal register f.field.type)
      imports := [f.field.type] }
  | none =>
    { machine := s.bind m register none, effects := [.readField (.missing ref.render) none] }

def loadFrom (register : String) (ref : Memory) : Place → Step
  | .stack slot =>
    let value := m.stack.get? slot
    { machine := s.bind m register value, effects := [.restore register ref.render value] }
  | .global address => s.loadGlobal m register address
  | .relative (.classPointer d) offset =>
    if offset = staticFieldsOffset then
      let value := some (.staticFields d)
      { machine := s.bind m register value, effects := [.loadGlobal register none value] }
    else s.loadField ls fresh m register ref (.classPointer d) offset
  | .relative base offset => s.loadField ls fresh m register ref base offset
  | .unknown =>
    { machine := s.bind m register none, effects := [.readField (.missing ref.render) none] }

def stepLoad : Step :=
  match i.operands with
  | .register register :: sources =>
    match sources.findSome? Operand.memory? with
    | some ref =>
      if s.isFrame register then { machine := m }
      else s.loadFrom ls fresh m register ref (s.place m i ref)
    | none => { machine := m, effects := [i.unmodeledForm] }
  | _ => { machine := m, effects := [i.unmodeledForm] }

/-- The first memory reference among the operands, and the first operand that is not it. -/
def storeOperands? : List Operand → Option (Memory × Operand)
  | .memory ref :: source :: _ => some (ref, source)
  | source :: rest => (rest.findSome? Operand.memory?).map fun ref => (ref, source)
  | [] => none

def stepStore : Step :=
  match storeOperands? i.operands with
  | none => { machine := m, effects := [i.unmodeledForm] }
  | some (ref, source) =>
    let width := (ref.size.map fun n => n.toNat * 8).getD (s.operandWidth source)
    let value := s.input m width source
    match s.place m i ref with
    | .stack slot =>
      { machine := m.setSlot slot value.value
        effects := [.spill source.render ref.render value.value] }
    | .relative base offset =>
      let field := (s.fieldAt? ls base offset).map (fieldValue base)
      { machine := m, effects := [.writeField ⟨ref.render, field⟩ value] }
    | .global _ | .unknown =>
      { machine := m, effects := [.writeField (.missing ref.render) value] }

/-- The address that an address computation is known to give. -/
def addressOf? : Option Operand → Option UInt64
  | some (.immediate v) => some v.toUInt64
  | some (.memory ref) =>
    match s.place m i ref with
    | .global a => some a
    | _ => none
  | _ => none

def stepLoadAddress : Step :=
  match i.operands with
  | .register register :: sources =>
    if s.isFrame register then { machine := m }
    else
      match s.addressOf? m i sources.head? with
      | some a => s.loadConstant m register (.int64 a.toInt64)
      | none => { machine := s.bind m register none }
  | _ => { machine := m, effects := [i.unmodeledForm] }

def stepPush : Step where
  machine := m.push (i.operands.head?.bind fun operand => (s.input m 64 operand).value)

def stepPop : Step :=
  let (value, m) := m.pop
  match i.operands with
  | .register register :: _ =>
    if s.isFrame register then { machine := m } else { machine := s.bind m register value }
  | _ => { machine := m }

/-! ## Arithmetic and comparisons -/

/-- Exclusive or of a register with itself. -/
def isZeroing (op : ArithmeticOp) (register : String) : List Operand → Bool
  | [_, .register r] => op == .xor && s.isa.family r == s.isa.family register
  | _ => false

/-- The two operands of an arithmetic instruction; a shift without a count shifts by one. -/
def arithmeticInputs? (op : ArithmeticOp) (width : Nat) : List Operand → Option (Input × Input)
  | [a] =>
    if op.isShift then some (s.input m width a, .ofValue "1" (.constant (.int32 1))) else none
  | [a, b] | [_, a, b] => some (s.input m width a, s.input m width b)
  | _ => none

def stepArithmetic (op : ArithmeticOp) : Step :=
  match i.operands with
  | .register register :: _ =>
    let m := { m with comparison := none }
    if s.isFrame register then { machine := m }
    else
      let width := s.isa.width register
      if s.isZeroing op register i.operands then s.loadConstant m register (.ofWidth 0 width)
      else
        match s.arithmeticInputs? m op width i.operands with
        | some (left, right) =>
          { machine := s.bind m register (some (.local fresh))
            effects := [.arithmetic op left right fresh]
            result := some (s.newLocal register (s.integerType width))
            imports := [s.integerType width] }
        | none => { machine := m, effects := [i.unmodeledForm] }
  | _ => { machine := m, effects := [i.unmodeled "arithmetic on memory"] }

/-- Both operands are parts of one register. -/
def isSameRegister : Operand → Operand → Bool
  | .register a, .register b => s.isa.family a == s.isa.family b
  | _, _ => false

/-- The comparison of two values. -/
def comparisonOf : List Operand → Option Comparison
  | a :: b :: rest =>
    let width := s.operandWidth a
    some ⟨s.input m width a, s.input m width b, rest.isEmpty⟩
  | _ => none

/-- A test of bits; of a register with itself it is a comparison with zero. -/
def testOf : List Operand → Option Comparison
  | a :: b :: _ =>
    let width := s.operandWidth a
    some ⟨s.input m width a, .ofValue b.render (.integer 0 width), s.isSameRegister a b⟩
  | _ => none

/-- The comparison that a combined compare and branch makes. -/
def zeroComparisonOf : List Operand → Option Comparison
  | a :: _ =>
    let width := s.operandWidth a
    some ⟨s.input m width a, .ofValue "#0" (.integer 0 width), true⟩
  | [] => none

/-! ## Branches, calls and returns -/

/-- The effect of a conditional branch. -/
def branchEffect (condition : Condition) (comparison : Option Comparison) : Effect :=
  match i.target? with
  | some target => .branch condition comparison target (s.isInside target)
  | none => i.unmodeled "branch without target"

/-- The effect of a return in a state. -/
def returnEffect : Effect :=
  if s.method.returnsVoid then .ret none
  else if s.method.returnType.isFloatingPoint then .ret (some (.missing "floating point return"))
  else .ret (some (s.readRegister m s.convention.result))

/-- A call of managed code, or of code nothing is known about. -/
def stepManagedCall (target : UInt64) : Step :=
  let after := s.clobber m
  match s.symbols.methodAt? target with
  | none => { machine := after, effects := [.call target none [] 0 none] }
  | some callee =>
    let slots := s.convention.argumentSlots callee
    let arguments := slots.zipIdx.map fun (slot, n) => s.passed m slot n
    let onStack := slots.countP (· == .stack)
    if callee.returnsVoid then
      { machine := after, effects := [.call target (some callee) arguments onStack none] }
    else
      { machine := s.bind after s.convention.result (some (.local fresh))
        effects := [.call target (some callee) arguments onStack (some fresh)]
        result := some (s.newLocal s.convention.result callee.returnType)
        imports := [callee.returnType] }

/-- A jump; one that leaves the body for a known method is a call and a return. -/
def stepJump : Step :=
  match i.target? with
  | none => { machine := m, effects := [i.unmodeled "jump without target"] }
  | some target =>
    if !s.isInside target && (s.symbols.methodAt? target).isSome then
      let call := s.stepManagedCall fresh m target
      { call with effects := call.effects ++ [s.returnEffect call.machine] }
    else { machine := m, effects := [.jump target (s.isInside target)] }

/-- Throw a new exception of a type given by name. -/
def throwNew (typeName : String) : Step :=
  let type := s.findType? typeName
  { machine := s.clobber m
    effects := [.throwNew typeName type]
    imports := (type.map .definition).toList }

/-- Make a local for the object that a helper returns, if its class is known; `type` is the type of
the object, given that of the class. -/
def allocated (effect : Option Nat → Effect) (type : Signature → Signature) :
    Option TypeDefinition → Step
  | some d =>
    { machine := s.bind (s.clobber m) s.convention.result (some (.local fresh))
      effects := [effect (some fresh)]
      result := some (s.newLocal s.convention.result (type (.definition d)))
      imports := [.definition d] }
  | none => { machine := s.clobber m, effects := [effect none] }

/-- The class that an input points to. -/
def classOf? (input : Input) : Option TypeDefinition :=
  match input.value with
  | some (.classPointer d) => some d
  | _ => none

/-- A call of a runtime helper. -/
def stepHelper (helper : Helper) : Step :=
  match helper with
  | .initializeMethod | .runtimeClassInit =>
    { machine := s.clobber m, effects := [.helper helper (s.argument m 0).value] }
  | .objectNew =>
    let type := s.argument m 0
    s.allocated fresh m (.allocate type) id (classOf? type)
  | .arrayNew =>
    let element := s.argument m 0
    let length := s.argument m 1
    s.allocated fresh m (.allocateArray element length) .vector (classOf? element)
  | .raiseException => { machine := s.clobber m, effects := [.throw (s.argument m 0)] }
  | .raiseIndexOutOfRange => s.throwNew m "System.IndexOutOfRangeException"
  | .raiseNullReference => s.throwNew m "System.NullReferenceException"

def stepCall : Step :=
  match i.target? with
  | none => { machine := s.clobber m, effects := [i.unmodeled "call without target"] }
  | some target =>
    match s.helpers.helperAt? target with
    | some helper => s.stepHelper fresh m helper
    | none => s.stepManagedCall fresh m target

/-- An instruction of unknown meaning; what its first operand names is no longer known. -/
def stepUnknown : Step where
  machine :=
    let m := match i.operands with
      | .register register :: _ => s.bind m register none
      | _ => m
    { m with comparison := none }
  effects := [i.unmodeled ("unmodeled instruction " ++ i.mnemonic)]

/-! ## The step -/

/-- What an instruction does in a state. -/
def step : Step :=
  match s.isa.kind i with
  | .nop | .trap => { machine := m }
  | .move => s.stepMove fresh m i
  | .load => s.stepLoad ls fresh m i
  | .store => s.stepStore ls m i
  | .loadAddress => s.stepLoadAddress m i
  | .arithmetic op => s.stepArithmetic fresh m i op
  | .compare => { machine := { m with comparison := s.comparisonOf m i.operands } }
  | .test => { machine := { m with comparison := s.testOf m i.operands } }
  | .conditionalJump c => { machine := m, effects := [s.branchEffect i c m.comparison] }
  | .compareZeroAndBranch c =>
    { machine := m, effects := [s.branchEffect i c (s.zeroComparisonOf m i.operands)] }
  | .jump => s.stepJump fresh m i
  | .call => s.stepCall fresh m i
  | .indirectCall => { machine := s.clobber m, effects := [i.unmodeled "indirect call"] }
  | .indirectJump => { machine := m, effects := [i.unmodeled "indirect jump"] }
  | .ret => { machine := m, effects := [s.returnEffect m] }
  | .push => s.stepPush m i
  | .pop => s.stepPop m i
  | .invalid => { machine := m, effects := [i.unmodeled "undecodable bytes"] }
  | .unknown => s.stepUnknown m i

end Setting

end MethodLift
