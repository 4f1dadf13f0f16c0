import MethodLift.Proofs.HeldValues

/-!
# The widths of integers in arithmetic

The result of arithmetic and its immediates have the width of the destination register. What is read
from a register has the width it was made with, which may be another: a register of 32 bits is
written and the full register is read. So the two inputs and the result of an arithmetic action have
one width exactly if the registers that its instruction reads hold integers of the width of its
destination (`ReadsOwnWidth`).

In a body that nowhere makes, loads or is given integers of two widths, all arithmetic has one width
(`oneWidth_before`).
-/

namespace MethodLift

/-! ## Widths -/

/-- The width of the integer type for a register of so many bits. -/
def integerWidth (bits : Nat) : Nat := if bits ≤ 32 then 32 else 64

/-- The width of an integer type that arithmetic is written for. -/
def Signature.integerWidth? : Signature → Option Nat
  | .definition d =>
    if d.fullName = "System.Int32" then some 32
    else if d.fullName = "System.Int64" then some 64
    else none
  | _ => none

def Value.integerWidth? (ls : Locals) : Value → Option Nat
  | .local id => ls[id]?.bind fun l => l.type.integerWidth?
  | .constant (.int32 _) => some 32
  | .constant (.int64 _) => some 64
  | _ => none

def Input.integerWidth? (ls : Locals) (i : Input) : Option Nat :=
  i.value.bind (Value.integerWidth? ls)

/-- If both inputs of arithmetic other than a shift are integers, they have one width, and the
result has it too. -/
def Effect.WidthsMatch (ls : Locals) : Effect → Prop
  | arithmetic op left right result =>
    op.isShift = false → ∀ v w, left.integerWidth? ls = some v → right.integerWidth? ls = some w →
      v = w ∧ (Value.local result).integerWidth? ls = some w
  | _ => True

theorem TypeTable.fullName_primitive (t : TypeTable) (kind : Primitive) :
    (t.primitive kind).fullName = "System" ++ "." ++ kind.name := by
  unfold primitive
  cases h : t.types.find? (standsFor kind) with
  | none => rfl
  | some d =>
    have hd := List.find?_some h
    cases d with
    | topLevel info =>
      simp only [standsFor, Bool.and_eq_true, beq_iff_eq] at hd
      rw [Option.getD_some, TypeDefinition.fullName, hd.1, hd.2]
      rfl
    | nested outer info => cases hd

@[simp] theorem Value.integerWidth?_integer (ls : Locals) (a : Int64) (bits : Nat) :
    (Value.integer a bits).integerWidth? ls = some (integerWidth bits) := by
  unfold Value.integer Constant.ofWidth integerWidth
  split <;> rfl

namespace Setting

variable {s : Setting} {ls : Locals} {fresh : Nat} {m : Machine} {i : Instruction}

theorem integerWidth?_integerType (s : Setting) (bits : Nat) :
    (s.integerType bits).integerWidth? = some (integerWidth bits) := by
  unfold integerType integerWidth
  split
  · simp [Signature.integerWidth?, TypeTable.fullName_primitive, Primitive.name]
  · simp [Signature.integerWidth?, TypeTable.fullName_primitive, Primitive.name]

/-! ## Arithmetic instructions -/

/-- The instruction gives register `r` the value of an operation on `a` and `b`. -/
structure Computes (s : Setting) (i : Instruction) (op : ArithmeticOp) (r : String)
    (a b : Operand) : Prop where
  kind : s.isa.kind i = .arithmetic op
  operands : i.operands = [.register r, b] ∧ a = .register r ∨ i.operands = [.register r, a, b]
  frame : s.isFrame r = false
  zeroing : s.isZeroing op r i.operands = false

variable {op : ArithmeticOp} {r : String} {a b : Operand}

theorem step_of_computes (h : s.Computes i op r a b) (ls : Locals) (fresh : Nat) (m : Machine) :
    (s.step ls fresh m i).effects =
        [.arithmetic op (s.input m (s.isa.width r) a) (s.input m (s.isa.width r) b) fresh] ∧
      (s.step ls fresh m i).result = some (s.newLocal r (s.integerType (s.isa.width r))) := by
  have hzero := h.zeroing
  simp only [step, h.kind, stepArithmetic]
  rcases h.operands with ⟨ho, rfl⟩ | ho
  · rw [ho] at hzero
    simp only [ho, h.frame, hzero, Bool.false_eq_true, if_false, arithmeticInputs?]
    exact ⟨rfl, trivial⟩
  · rw [ho] at hzero
    simp only [ho, h.frame, hzero, Bool.false_eq_true, if_false, arithmeticInputs?]
    exact ⟨rfl, trivial⟩

section

variable {left right : Input} {result : Nat}

theorem not_mem_stepMove : .arithmetic op left right result ∉ (s.stepMove fresh m i).effects := by
  unfold stepMove
  repeat' split
  all_goals simp [stepConvert, loadConstant, Instruction.unmodeled, Instruction.unmodeledForm]

theorem not_mem_stepLoad :
    .arithmetic op left right result ∉ (s.stepLoad ls fresh m i).effects := by
  unfold stepLoad loadFrom loadGlobal loadField
  repeat' split
  all_goals simp [Instruction.unmodeled, Instruction.unmodeledForm]

theorem not_mem_stepStore : .arithmetic op left right result ∉ (s.stepStore ls m i).effects := by
  unfold stepStore
  repeat' split
  all_goals simp [Instruction.unmodeled, Instruction.unmodeledForm]

theorem not_mem_stepLoadAddress :
    .arithmetic op left right result ∉ (s.stepLoadAddress m i).effects := by
  unfold stepLoadAddress
  repeat' split
  all_goals simp [loadConstant, Instruction.unmodeled, Instruction.unmodeledForm]

theorem not_mem_stepPop : .arithmetic op left right result ∉ (s.stepPop m i).effects := by
  unfold stepPop
  simp only
  repeat' split
  all_goals simp

theorem ne_branchEffect (condition : Condition) (comparison : Option Comparison) :
    .arithmetic op left right result ≠ s.branchEffect i condition comparison := by
  unfold branchEffect
  split <;> simp [Instruction.unmodeled]

theorem not_mem_stepManagedCall (target : UInt64) :
    .arithmetic op left right result ∉ (s.stepManagedCall fresh m target).effects := by
  unfold stepManagedCall
  simp only
  repeat' split
  all_goals simp

theorem ne_returnEffect : .arithmetic op left right result ≠ s.returnEffect m := by
  obtain ⟨value, hret, -⟩ := exists_returnEffect s m
  simp [hret]

theorem not_mem_stepJump : .arithmetic op left right result ∉ (s.stepJump fresh m i).effects := by
  unfold stepJump
  repeat' split
  · simp [Instruction.unmodeled]
  · simp [not_mem_stepManagedCall, ne_returnEffect]
  · simp

theorem not_mem_stepCall : .arithmetic op left right result ∉ (s.stepCall fresh m i).effects := by
  unfold stepCall
  repeat' split
  · simp [Instruction.unmodeled]
  · rename_i helper _
    cases helper <;> simp [stepHelper, effects_allocated, throwNew]
  · exact not_mem_stepManagedCall _

/-- Arithmetic other than a shift is what an instruction computes from two operands. -/
theorem computes_of_stepArithmetic {op' : ArithmeticOp} (hk : s.isa.kind i = .arithmetic op')
    (h : .arithmetic op left right result ∈ (s.stepArithmetic fresh m i op').effects)
    (hop : op.isShift = false) : ∃ r a b, s.Computes i op r a b := by
  unfold stepArithmetic at h
  split at h
  · rename_i r rest ho
    simp only at h
    split at h
    · simp at h
    · rename_i hframe
      split at h
      · simp [loadConstant] at h
      · rename_i hzero
        split at h
        · rename_i left' right' hinputs
          cases List.mem_singleton.mp h
          rw [ho] at hinputs
          match rest, ho, hinputs with
          | [], _, hinputs => simp [arithmeticInputs?, hop] at hinputs
          | [b], ho, _ => exact ⟨r, .register r, b, hk, .inl ⟨ho, rfl⟩, by simpa using hframe,
              by simpa using hzero⟩
          | [a, b], ho, _ => exact ⟨r, a, b, hk, .inr ho, by simpa using hframe,
              by simpa using hzero⟩
          | _ :: _ :: _ :: _, _, hinputs => simp [arithmeticInputs?] at hinputs
        · simp [Instruction.unmodeledForm, Instruction.unmodeled] at h
  · simp [Instruction.unmodeled] at h

/-- Only an arithmetic instruction adds an arithmetic effect. -/
theorem computes_of_mem (h : .arithmetic op left right result ∈ (s.step ls fresh m i).effects)
    (hop : op.isShift = false) : ∃ r a b, s.Computes i op r a b := by
  unfold step at h
  cases hk : s.isa.kind i with
  | arithmetic op' =>
    simp only [hk] at h
    exact computes_of_stepArithmetic hk h hop
  | move => simp [hk, not_mem_stepMove] at h
  | load => simp [hk, not_mem_stepLoad] at h
  | store => simp [hk, not_mem_stepStore] at h
  | loadAddress => simp [hk, not_mem_stepLoadAddress] at h
  | conditionalJump c => simp [hk, ne_branchEffect] at h
  | compareZeroAndBranch c => simp [hk, ne_branchEffect] at h
  | jump => simp [hk, not_mem_stepJump] at h
  | call => simp [hk, not_mem_stepCall] at h
  | ret => simp [hk, ne_returnEffect] at h
  | pop => simp [hk, not_mem_stepPop] at h
  | push => simp [hk, stepPush] at h
  | unknown => simp [hk, stepUnknown, Instruction.unmodeled] at h
  | nop | trap | compare | test => simp [hk] at h
  | indirectCall | indirectJump | invalid => simp [hk, Instruction.unmodeled] at h

end

/-! ## The types of new locals -/

/-- The types that a new local of an instruction may have. -/
inductive Gives (s : Setting) (m : Machine) (i : Instruction) : Signature → Prop
  | integer {bits : Nat} : bits ∈ s.madeWidths i → Gives s m i (s.integerType bits)
  | field {d : TypeDefinition} {f : Field} : f ∈ s.table.fieldsOf d → Gives s m i f.type
  | returned {address : UInt64} {callee : Method} :
      s.symbols.methodAt? address = some callee → Gives s m i callee.returnType
  | object {register : String} {d : TypeDefinition} :
      m.registers.get? register = some (.classPointer d) → Gives s m i (.definition d)
  | array {register : String} {d : TypeDefinition} :
      m.registers.get? register = some (.classPointer d) → Gives s m i (.vector (.definition d))

section

variable {new : NewLocal}

theorem gives_stepMove (hk : s.isa.kind i = .move)
    (h : (s.stepMove fresh m i).result = some new) : s.Gives m i new.type := by
  unfold stepMove at h
  split at h
  · rename_i register source ho
    split at h
    · cases h
    · split at h
      · rename_i signed he
        cases h
        exact .integer (by simp [madeWidths, hk, ho, he])
      · split at h
        · cases h
        · split at h <;> cases h
        · cases h
  · cases h

theorem gives_loadField {register : String} {ref : Memory} {base : Value} {offset : Int64}
    (h : (s.loadField ls fresh m register ref base offset).result = some new) :
    s.Gives m i new.type := by
  unfold loadField at h
  split at h
  · rename_i f hf
    cases h
    exact .field (fieldAt?_cases hf).1
  · cases h

theorem gives_stepLoad (h : (s.stepLoad ls fresh m i).result = some new) :
    s.Gives m i new.type := by
  unfold stepLoad at h
  split at h
  · split at h
    · split at h
      · cases h
      · unfold loadFrom at h
        split at h
        · cases h
        · cases h
        · split at h
          · cases h
          · exact gives_loadField h
        · exact gives_loadField h
        · cases h
    · cases h
  · cases h

theorem gives_stepArithmetic {op' : ArithmeticOp} (hk : s.isa.kind i = .arithmetic op')
    (h : (s.stepArithmetic fresh m i op').result = some new) : s.Gives m i new.type := by
  unfold stepArithmetic at h
  split at h
  · rename_i r rest ho
    simp only at h
    split at h
    · cases h
    · split at h
      · cases h
      · split at h
        · cases h
          exact .integer (by simp [madeWidths, hk, ho])
        · cases h
  · cases h

theorem gives_stepManagedCall {target : UInt64}
    (h : (s.stepManagedCall fresh m target).result = some new) : s.Gives m i new.type := by
  unfold stepManagedCall at h
  simp only at h
  split at h
  · cases h
  · rename_i callee hcallee
    split at h
    · cases h
    · cases h
      exact .returned hcallee

theorem register_of_classOf? {position : Nat} {d : TypeDefinition}
    (h : classOf? (s.argument m position) = some d) :
    ∃ register, m.registers.get? register = some (.classPointer d) := by
  unfold classOf? at h
  split at h
  · rename_i g hg
    cases h
    unfold argument at hg
    split at hg
    · unfold readRegister at hg
      split at hg
      · cases Option.some.inj hg
      · exact ⟨_, hg⟩
    · cases hg
  · cases h

theorem gives_allocated {effect : Option Nat → Effect} {type : Signature → Signature}
    {position : Nat} (htype : ∀ register d, m.registers.get? register = some (.classPointer d) →
      s.Gives m i (type (.definition d)))
    (h : (s.allocated fresh m effect type (classOf? (s.argument m position))).result = some new) :
    s.Gives m i new.type := by
  cases hc : classOf? (s.argument m position) with
  | none =>
    rw [hc] at h
    cases h
  | some d =>
    obtain ⟨register, hr⟩ := register_of_classOf? hc
    rw [hc] at h
    cases h
    exact htype register d hr

theorem gives_stepHelper {helper : Helper} (h : (s.stepHelper fresh m helper).result = some new) :
    s.Gives m i new.type := by
  cases helper with
  | objectNew => exact gives_allocated (fun _ _ hr => .object hr) h
  | arrayNew => exact gives_allocated (fun _ _ hr => .array hr) h
  | initializeMethod | runtimeClassInit | raiseException | raiseIndexOutOfRange
  | raiseNullReference => cases h

/-- There are no other types that a step gives a new local. -/
theorem gives_step (h : (s.step ls fresh m i).result = some new) : s.Gives m i new.type := by
  unfold step at h
  cases hk : s.isa.kind i with
  | move => simp only [hk] at h; exact gives_stepMove hk h
  | load => simp only [hk] at h; exact gives_stepLoad h
  | arithmetic op' => simp only [hk] at h; exact gives_stepArithmetic hk h
  | jump =>
    simp only [hk, stepJump] at h
    split at h
    · cases h
    · split at h
      · exact gives_stepManagedCall h
      · cases h
  | call =>
    simp only [hk, stepCall] at h
    split at h
    · cases h
    · split at h
      · exact gives_stepHelper h
      · exact gives_stepManagedCall h
  | store =>
    simp only [hk, stepStore] at h
    repeat' split at h
    all_goals cases h
  | loadAddress =>
    simp only [hk, stepLoadAddress] at h
    repeat' split at h
    all_goals cases h
  | pop =>
    simp only [hk, stepPop] at h
    repeat' split at h
    all_goals cases h
  | nop | trap | compare | test | conditionalJump _ | compareZeroAndBranch _ | indirectCall
  | indirectJump | ret | push | invalid | unknown =>
    simp only [hk] at h
    cases h

end

end Setting

/-! ## What arithmetic reads -/

namespace Walk

variable {s : Setting} {k : Nat} {i : Instruction} {op : ArithmeticOp} {r : String} {a b : Operand}

/-- The width of the integer that is read from an operand at position `k`, if it is one. -/
def widthAt? (s : Setting) (k bits : Nat) (operand : Operand) : Option Nat :=
  (s.input (before s k).machine bits operand).integerWidth? (run s).locals

/-- If arithmetic at position `k` reads two integers, those that it reads from registers have the
width of its destination. -/
def ReadsOwnWidth (s : Setting) (k : Nat) : Prop :=
  ∀ i op r a b, s.body[k]? = some i → s.Computes i op r a b → op.isShift = false →
    (widthAt? s k (s.isa.width r) a).isSome = true →
    (widthAt? s k (s.isa.width r) b).isSome = true →
      ∀ q, a = .register q ∨ b = .register q →
        widthAt? s k (s.isa.width r) (.register q) = some (integerWidth (s.isa.width r))

/-- An integer that is not read from a register is an immediate and has the width asked for. -/
theorem widthAt?_cases {bits : Nat} {operand : Operand}
    (h : (widthAt? s k bits operand).isSome = true) :
    (∃ q, operand = .register q) ∨ widthAt? s k bits operand = some (integerWidth bits) := by
  cases operand with
  | register q => exact .inl ⟨q, rfl⟩
  | immediate v => exact .inr (Value.integerWidth?_integer _ v bits)
  | memory ref => cases h
  | other text => cases h

theorem recorded_of_computes (hi : s.body[k]? = some i) (hc : s.Computes i op r a b) :
    (recorded s k).effects =
        [.arithmetic op (s.input (before s k).machine (s.isa.width r) a)
          (s.input (before s k).machine (s.isa.width r) b) (upTo s k).locals.length] ∧
      (Value.local (upTo s k).locals.length).integerWidth? (run s).locals =
        some (integerWidth (s.isa.width r)) := by
  obtain ⟨heffects, hresult⟩ := Setting.step_of_computes hc (before s k).locals
    (before s k).locals.length (before s k).machine
  rw [← recorded_eq hi] at heffects hresult
  rw [locals_before] at heffects
  refine ⟨heffects, ?_⟩
  simp only [Value.integerWidth?, getElem?_made hi hresult, Option.bind_some, temporary,
    Setting.newLocal, Setting.integerWidth?_integerType]

/-- The widths of an arithmetic action match exactly if its instruction reads its own width. -/
theorem widthsMatch_iff (hi : s.body[k]? = some i) (hc : s.Computes i op r a b)
    (hop : op.isShift = false) :
    (Effect.arithmetic op (s.input (before s k).machine (s.isa.width r) a)
        (s.input (before s k).machine (s.isa.width r) b)
        (upTo s k).locals.length).WidthsMatch (run s).locals ↔
      ((widthAt? s k (s.isa.width r) a).isSome = true →
        (widthAt? s k (s.isa.width r) b).isSome = true →
          ∀ q, a = .register q ∨ b = .register q →
            widthAt? s k (s.isa.width r) (.register q) = some (integerWidth (s.isa.width r))) := by
  have hresult := (recorded_of_computes hi hc).2
  constructor
  · intro h hleft hright q hq
    obtain ⟨v, hv⟩ := Option.isSome_iff_exists.mp hleft
    obtain ⟨w, hw⟩ := Option.isSome_iff_exists.mp hright
    obtain ⟨rfl, hsame⟩ := h hop v w hv hw
    obtain rfl := Option.some.inj (hresult.symm.trans hsame)
    rcases hq with rfl | rfl
    · exact hv
    · exact hw
  · intro h _ v w hv hw
    have hreads := h (Option.isSome_of_eq_some hv) (Option.isSome_of_eq_some hw)
    have hown : ∀ operand u, operand = a ∨ operand = b →
        widthAt? s k (s.isa.width r) operand = some u → u = integerWidth (s.isa.width r) := by
      intro operand u hoperand hu
      rcases widthAt?_cases (Option.isSome_of_eq_some hu) with ⟨q, rfl⟩ | himmediate
      · exact Option.some.inj (hu.symm.trans (hreads q (hoperand.imp Eq.symm Eq.symm)))
      · exact Option.some.inj (hu.symm.trans himmediate)
    rw [hown a v (.inl rfl) hv, hown b w (.inr rfl) hw]
    exact ⟨rfl, hresult⟩

/-- In an emittable body all arithmetic matches exactly if each instruction reads its own width. -/
theorem forall_widthsMatch_iff (hemit : Emittable s) :
    (∀ x ∈ (run s).actions, x.effect.WidthsMatch (run s).locals) ↔ ∀ k, ReadsOwnWidth s k := by
  constructor
  · intro h k i op r a b hi hc hop
    have hmem := recorded_mem hi ((recorded_of_computes hi hc).1 ▸ List.mem_singleton_self _)
    exact (widthsMatch_iff hi hc hop).mp (h _ hmem)
  · intro h x hx
    obtain ⟨k, i, hi, hx⟩ := (mem_actions_run hemit).mp hx
    rw [written_eq hi] at hx
    rcases List.mem_append.mp hx with hx | hx
    · rw [(mem_lead.mp hx).1]
      trivial
    · obtain ⟨e, he, rfl⟩ := List.mem_map.mp hx
      cases e with
      | arithmetic op left right result =>
        intro hop
        obtain ⟨r, a, b, hc⟩ := Setting.computes_of_mem (recorded_eq hi ▸ he) hop
        rw [(recorded_of_computes hi hc).1] at he
        cases List.mem_singleton.mp he
        exact (widthsMatch_iff hi hc hop).mpr (h k i op r a b hi hc hop) hop
      | _ => trivial

end Walk

/-! ## Bodies with one width -/

/-- If the type is an integer, it has the width `z`. -/
def Signature.HasWidth (z : Nat) (t : Signature) : Prop := ∀ w, t.integerWidth? = some w → w = z

/-- If the value is an integer, it has the width `z`, and so have objects of a class. -/
def Value.HasWidth (ls : Locals) (z : Nat) (v : Value) : Prop :=
  (∀ w, v.integerWidth? ls = some w → w = z) ∧
    ∀ d, v = .classPointer d → (Signature.definition d).HasWidth z

/-- All integers that the body is given, loads, receives from calls, allocates or makes have the
width `z`. -/
structure Setting.OneWidth (s : Setting) (z : Nat) : Prop where
  arguments : ∀ l ∈ s.entryLocals, l.type.HasWidth z
  fields : ∀ d, ∀ f ∈ s.table.fieldsOf d, f.type.HasWidth z
  results : ∀ address callee, s.symbols.methodAt? address = some callee →
    callee.returnType.HasWidth z
  classes : ∀ address d, s.symbols.classAt? address = some d → (Signature.definition d).HasWidth z
  made : ∀ i ∈ s.body, ∀ bits ∈ s.madeWidths i, integerWidth bits = z

namespace Walk

variable {s : Setting} {z k : Nat} {i : Instruction}

theorem hasWidth_integer (ls : Locals) {bits : Nat} (h : integerWidth bits = z) (v : Int64) :
    (Value.integer v bits).HasWidth ls z := by
  refine ⟨fun w hw => ?_, fun _ hd => (nomatch hd)⟩
  rw [Value.integerWidth?_integer] at hw
  exact (Option.some.inj hw).symm.trans h

theorem hasWidth_local {ls : Locals} {id : Nat} {l : Local} (hl : ls[id]? = some l)
    (h : l.type.HasWidth z) : (Value.local id).HasWidth ls z := by
  refine ⟨fun w hw => h w ?_, fun _ hd => (nomatch hd)⟩
  simpa [Value.integerWidth?, hl] using hw

theorem allows_hasWidth (h : s.OneWidth z) (ls : Locals) :
    s.Allows (Value.HasWidth ls z) fun _ => True where
  text t := ⟨fun _ hw => (nomatch hw), fun _ hd => (nomatch hd)⟩
  classPointer address d hd := by
    refine ⟨fun _ hw => (nomatch hw), fun g hg => ?_⟩
    cases hg
    exact h.classes address d hd
  staticFields d _ := ⟨fun _ hw => (nomatch hw), fun _ hg => (nomatch hg)⟩
  compared _ _ := trivial
  comparedInteger _ _ := trivial

/-- The type of a new local has the width too. -/
theorem hasWidth_of_gives (h : s.OneWidth z) {ls : Locals} {m : Machine} (hi : i ∈ s.body)
    (hm : m.Holds (Value.HasWidth ls z) fun _ => True) {t : Signature} (ht : s.Gives m i t) :
    t.HasWidth z := by
  cases ht with
  | integer hbits =>
    intro w hw
    rw [Setting.integerWidth?_integerType] at hw
    exact (Option.some.inj hw).symm.trans (h.made i hi _ hbits)
  | field hf => exact h.fields _ _ hf
  | returned hcallee => exact h.results _ _ hcallee
  | object hr => exact (hm.registers _ _ hr).2 _ rfl
  | array _ =>
    intro w hw
    cases hw

/-- Every value that the walk meets has the one width, if it is an integer. -/
theorem oneWidth_before (h : s.OneWidth z) (k : Nat) :
    (before s k).machine.Holds (Value.HasWidth (run s).locals z) fun _ => True := by
  have hentry : ∀ l ∈ s.entryLocals, (Value.local l.id).HasWidth (run s).locals z := by
    intro l hl
    obtain ⟨n, hn⟩ := List.mem_iff_getElem?.mp hl
    obtain ⟨later, hlater⟩ := (extends_run (s := s) 0).locals
    refine hasWidth_local (l := l) ?_ (h.arguments l hl)
    rw [(s.getElem?_entryLocals hn).1, ← hlater]
    exact List.getElem?_append_left (List.getElem?_eq_some_iff.mp hn).1 ▸ hn
  refine before_holds (Setting.entryMachine_holds hentry) (fun k i hi hm => ?_) k
  have hbody := List.mem_of_getElem? hi
  rw [recorded_eq hi]
  refine Setting.holds_step (allows_hasWidth h _) hm
    (fun bits hbits v => hasWidth_integer _ (h.made i hbody bits hbits) v) fun hsome => ?_
  obtain ⟨new, hnew⟩ := Option.isSome_iff_exists.mp hsome
  have hgives := Setting.gives_step hnew
  rw [← recorded_eq hi] at hnew
  rw [locals_before]
  exact hasWidth_local (getElem?_made hi hnew) (hasWidth_of_gives h hbody hm hgives)

theorem readsOwnWidth_of_oneWidth (h : s.OneWidth z) (k : Nat) : ReadsOwnWidth s k := by
  intro i op r a b hi hc _ ha hb q hq
  have hbody := List.mem_of_getElem? hi
  have hown : integerWidth (s.isa.width r) = z := by
    refine h.made i hbody _ ?_
    rcases hc.operands with ⟨ho, -⟩ | ho <;> simp [Setting.madeWidths, hc.kind, ho]
  have hmade : ∀ bits ∈ s.readWidths (s.isa.width r) (.register q), bits ∈ s.madeWidths i := by
    intro bits hbits
    rcases hc.operands with ⟨ho, rfl⟩ | ho <;> rcases hq with hq | rfl <;>
      simp_all [Setting.madeWidths, hc.kind]
  have hsome : (widthAt? s k (s.isa.width r) (.register q)).isSome = true := by
    rcases hq with rfl | rfl
    · exact ha
    · exact hb
  obtain ⟨w, hw⟩ := Option.isSome_iff_exists.mp hsome
  obtain ⟨v, hv, hwidth⟩ := Option.bind_eq_some_iff.mp hw
  have hvalue := Setting.holds_input (oneWidth_before h k) (fun bits hbits v =>
    hasWidth_integer _ (h.made i hbody bits (hmade bits hbits)) v) v hv
  rw [hw, hown, hvalue.1 w hwidth]

end Walk

/-- For every emittable analysis: the widths match in all arithmetic exactly if every arithmetic
instruction that reads two integers reads those from registers in the width of its destination. This
is so where all integers that the body is given, loads, receives, allocates or makes have one
width. -/
theorem arithmetic_widths_match_iff (e : Environment) (session : Session) (job : Job)
    (h : (Analysis.run e session job).1.state = .emittable) :
    let s := Analysis.walked e session job
    let a := (Analysis.run e session job).1
    ((∀ x ∈ a.actions, x.effect.WidthsMatch a.locals) ↔ ∀ k, Walk.ReadsOwnWidth s k) ∧
      ∀ z, s.OneWidth z → ∀ x ∈ a.actions, x.effect.WidthsMatch a.locals := by
  intro s a
  obtain ⟨hlocals, hactions, -⟩ := Analysis.code_of_emittable h
  have hiff := Walk.forall_widthsMatch_iff (Analysis.emittable_walk h)
  rw [← hlocals, ← hactions] at hiff
  exact ⟨hiff, fun z hone => hiff.mpr (Walk.readsOwnWidth_of_oneWidth hone)⟩

/-- `long AddFive(long a)`, which writes the constant as 32 bits and reads it as 64, and
`int AddSix(int a)`, which stays with 32 bits. -/
def addingRows : List ListingRow :=
  [⟨0x1000, 5, "mov", "eax, 5"⟩, ⟨0x1005, 3, "add", "rax, rcx"⟩, ⟨0x1008, 1, "ret", ""⟩,
   ⟨0x1009, 5, "mov", "eax, 6"⟩, ⟨0x100e, 2, "add", "eax, ecx"⟩, ⟨0x1010, 1, "ret", ""⟩]

def addingEnvironment : Environment where
  backend := .x64 (.ofListing .x64 addingRows)
  image := .raw .x64 0x1000 (Array.replicate 17 0x90)
  table := ⟨[playerType], ∅⟩

/-- The addition in the first of them. -/
def wideAddition : Instruction :=
  ⟨0x1005, [0x90, 0x90, 0x90], "add", "rax, rcx", [.register "rax", .register "rcx"]⟩

def addFiveJob : Job where
  address := 0x1000
  length := some 9
  method :=
    { token := 0, name := "AddFive", owner := playerType, isStatic := true
      returnType := .definition (TypeTable.supplied .int64)
      parameters := [⟨"a", .definition (TypeTable.supplied .int64)⟩] }

def addSixJob : Job where
  address := 0x1009
  length := some 8
  method :=
    { token := 1, name := "AddSix", owner := playerType, isStatic := true
      returnType := .definition (TypeTable.supplied .int32)
      parameters := [⟨"a", .definition (TypeTable.supplied .int32)⟩] }

/-- Both are emitted. The first adds an integer of 64 bits to one of 32; the second has one
width. -/
theorem arithmetic_widths_match_iff_adding :
    (Analysis.run addingEnvironment {} addFiveJob).1.state = .emittable ∧
      ⟨0x1005, .arithmetic .add ⟨"rax", some (.constant (.int32 5))⟩ ⟨"rcx", some (.local 0)⟩ 1⟩ ∈
        (Analysis.run addingEnvironment {} addFiveJob).1.actions ∧
      (¬∀ x ∈ (Analysis.run addingEnvironment {} addFiveJob).1.actions,
        x.effect.WidthsMatch (Analysis.run addingEnvironment {} addFiveJob).1.locals) ∧
      (Analysis.run addingEnvironment {} addSixJob).1.state = .emittable ∧
      (Analysis.walked addingEnvironment {} addSixJob).OneWidth 32 ∧
      ∀ x ∈ (Analysis.run addingEnvironment {} addSixJob).1.actions,
        x.effect.WidthsMatch (Analysis.run addingEnvironment {} addSixJob).1.locals := by
  have hfive : (Analysis.run addingEnvironment {} addFiveJob).1.state = .emittable := by
    decide +kernel
  have hadd : ⟨0x1005, .arithmetic .add ⟨"rax", some (.constant (.int32 5))⟩
      ⟨"rcx", some (.local 0)⟩ 1⟩ ∈ (Analysis.run addingEnvironment {} addFiveJob).1.actions := by
    decide +kernel
  have hsix : (Analysis.run addingEnvironment {} addSixJob).1.state = .emittable := by
    decide +kernel
  have hmixed : ¬Walk.ReadsOwnWidth (Analysis.walked addingEnvironment {} addFiveJob) 1 := by
    have hbody : (Analysis.walked addingEnvironment {} addFiveJob).body[1]? =
        some wideAddition := by
      decide +kernel
    have hcomputes : (Analysis.walked addingEnvironment {} addFiveJob).Computes wideAddition .add
        "rax" (.register "rax") (.register "rcx") :=
      ⟨by decide +kernel, .inl ⟨rfl, rfl⟩, by decide +kernel, by decide +kernel⟩
    have hread : Walk.widthAt? (Analysis.walked addingEnvironment {} addFiveJob) 1 64
        (.register "rax") = some 32 := by
      decide +kernel
    intro h
    have hown := h _ _ _ _ _ hbody hcomputes rfl (by decide +kernel) (by decide +kernel) "rax"
      (.inl rfl)
    exact absurd (hread.symm.trans hown) (by decide +kernel)
  have hone : (Analysis.walked addingEnvironment {} addSixJob).OneWidth 32 := by
    refine ⟨fun l hl w hw => ?_, fun d f hf => ?_, fun _ _ h => (nomatch h),
      fun _ _ h => (nomatch h), ?_⟩
    · have hint : ∀ l ∈ (Analysis.walked addingEnvironment {} addSixJob).entryLocals,
          l.type.integerWidth? = some 32 := by
        decide +kernel
      rw [hint l hl] at hw
      exact (Option.some.inj hw).symm
    · cases hf
    · decide +kernel
  refine ⟨hfive, hadd, fun h => hmixed ?_, hsix, hone, ?_⟩
  · exact (arithmetic_widths_match_iff addingEnvironment {} addFiveJob hfive).1.mp h 1
  · exact (arithmetic_widths_match_iff addingEnvironment {} addSixJob hsix).2 32 hone

end MethodLift
