import MethodLift.Action.Same
import MethodLift.Proofs.Layout

/-!
# The values that a state holds

A value comes into the machine state in few ways. An instruction makes an integer of some width
(`madeWidths`), binds the local it has just made, or reads a class or a text from the image; all
else is moved from one place to another. So whatever holds of those values holds of every value that
a walk ever meets, over copies, spills, pushes, calls and joins alike.

* `holds_step`: a step keeps a property of values that what it makes has.
* `before_holds`: so the walk has it at every position.
* `join_eq_joinSame`: no value that a walk holds is a field or a floating point number, so states
  may be compared by equality.
-/

namespace MethodLift

/-- The values in registers and stack slots and the pushed ones satisfy `P`, and the two sides of
the comparison behind the flags satisfy `Q`. -/
structure Machine.Holds (P Q : Value → Prop) (m : Machine) : Prop where
  registers : ∀ r v, m.registers.get? r = some v → P v
  stack : ∀ slot v, m.stack.get? slot = some v → P v
  pushed : ∀ v, some v ∈ m.pushed → P v
  comparison : ∀ c, m.comparison = some c →
    ∀ v, c.left.value = some v ∨ c.right.value = some v → Q v

variable {P Q : Value → Prop}

namespace Machine.Holds

variable {m : Machine}

theorem setRegister (h : m.Holds P Q) (r : String) {v : Option Value} (hv : ∀ u, v = some u → P u) :
    (m.setRegister r v).Holds P Q := by
  refine ⟨fun q u hu => ?_, ?_, ?_, ?_⟩
  · rw [get?_setRegister] at hu
    split at hu
    · exact hv u hu
    · exact h.registers q u hu
  · simpa using h.stack
  · simpa using h.pushed
  · simpa using h.comparison

theorem setSlot (h : m.Holds P Q) (slot : Slot) {v : Option Value} (hv : ∀ u, v = some u → P u) :
    (m.setSlot slot v).Holds P Q := by
  refine ⟨?_, fun a u hu => ?_, ?_, ?_⟩
  · simpa using h.registers
  · rw [get?_setSlot] at hu
    split at hu
    · exact hv u hu
    · exact h.stack a u hu
  · simpa using h.pushed
  · simpa using h.comparison

theorem push (h : m.Holds P Q) {v : Option Value} (hv : ∀ u, v = some u → P u) :
    (m.push v).Holds P Q := by
  refine ⟨h.registers, h.stack, fun u hu => ?_, h.comparison⟩
  rcases List.mem_cons.mp hu with hu | hu
  · exact hv u hu.symm
  · exact h.pushed u hu

theorem pop (h : m.Holds P Q) : (∀ u, m.pop.1 = some u → P u) ∧ m.pop.2.Holds P Q := by
  unfold Machine.pop
  split
  · rename_i v rest hp
    refine ⟨fun u hu => h.pushed u (by simp [hp, ← hu]), h.registers, h.stack, fun u hu => ?_,
      h.comparison⟩
    exact h.pushed u (hp ▸ List.mem_cons_of_mem v hu)
  · exact ⟨nofun, h⟩

theorem setComparison (h : m.Holds P Q) {c : Option Comparison}
    (hc : ∀ d, c = some d → ∀ v, d.left.value = some v ∨ d.right.value = some v → Q v) :
    ({ m with comparison := c } : Machine).Holds P Q :=
  ⟨h.registers, h.stack, h.pushed, hc⟩

theorem forgetComparison (h : m.Holds P Q) : ({ m with comparison := none } : Machine).Holds P Q :=
  h.setComparison fun _ hc => nomatch hc

theorem clobber (h : m.Holds P Q) (volatile : List String) : (m.clobber volatile).Holds P Q := by
  refine ⟨fun r v hv => ?_, h.stack, h.pushed, fun _ hc => nomatch hc⟩
  rw [Machine.clobber, FinMap.get?_foldl_erase] at hv
  split at hv
  · cases hv
  · exact h.registers r v hv

theorem join (h : m.Holds P Q) (n : Machine) : (m.join n).Holds P Q := by
  refine ⟨fun r v hv => ?_, fun slot v hv => ?_, fun v hv => ?_, fun c hc => ?_⟩
  · exact h.registers r v ((FinMap.get?_agree _ _ _ _).mp hv).1
  · exact h.stack slot v ((FinMap.get?_agree _ _ _ _).mp hv).1
  · simp only [Machine.join] at hv
    split at hv
    · exact h.pushed v hv
    · simp at hv
  · simp only [Machine.join] at hc
    split at hc
    · exact h.comparison c hc
    · cases hc

end Machine.Holds

/-! ## What an instruction makes -/

namespace Setting

/-- The widths of the integers that come from reading an operand: an immediate has the width asked
for, the zero register its own. -/
def readWidths (s : Setting) (width : Nat) : Operand → List Nat
  | .register r => if s.isa.family r = zeroRegister then [s.isa.width r] else []
  | .immediate _ => [width]
  | .memory _ | .other _ => []

/-- The width of what is stored through a memory reference. -/
def storeWidth (s : Setting) (ref : Memory) (source : Operand) : Nat :=
  (ref.size.map fun n => n.toNat * 8).getD (s.operandWidth source)

/-- The widths of the integers that an instruction makes, as constants or as new locals. -/
def madeWidths (s : Setting) (i : Instruction) : List Nat :=
  match s.isa.kind i with
  | .move =>
    match i.operands with
    | [.register r, source] =>
      if (signedExtension? i.mnemonic).isSome then [s.isa.width r]
      else s.readWidths (s.isa.width r) source
    | _ => []
  | .arithmetic _ =>
    match i.operands with
    | .register r :: _ => s.isa.width r :: i.operands.flatMap (s.readWidths (s.isa.width r))
    | _ => []
  | .loadAddress => [64]
  | .store =>
    match storeOperands? i.operands with
    | some (ref, source) => s.readWidths (s.storeWidth ref source) source
    | none => []
  | .push => (i.operands.head?.map (s.readWidths 64)).getD []
  | _ => []

/-- `P` and `Q` hold of what comes into a state without a width of its own. -/
structure Allows (s : Setting) (P Q : Value → Prop) : Prop where
  text : ∀ t, P (.constant (.string t))
  classPointer : ∀ address d, s.symbols.classAt? address = some d → P (.classPointer d)
  staticFields : ∀ d, P (.classPointer d) → P (.staticFields d)
  compared : ∀ v, P v → Q v
  comparedInteger : ∀ a width, Q (.integer a width)

variable {s : Setting} {ls : Locals} {fresh : Nat} {m : Machine} {i : Instruction}

theorem holds_readRegister (hm : m.Holds P Q) {r : String}
    (hzero : s.isa.family r = zeroRegister → P (.integer 0 (s.isa.width r))) :
    ∀ v, (s.readRegister m r).value = some v → P v := by
  intro v hv
  unfold readRegister at hv
  split at hv
  · rename_i hz
    cases hv
    exact hzero hz
  · exact hm.registers _ v hv

theorem holds_input (hm : m.Holds P Q) {width : Nat} {operand : Operand}
    (hmade : ∀ w ∈ s.readWidths width operand, ∀ a, P (.integer a w)) :
    ∀ v, (s.input m width operand).value = some v → P v := by
  cases operand with
  | register r => exact holds_readRegister hm fun hz => hmade _ (by simp [readWidths, hz]) 0
  | immediate a =>
    intro v hv
    cases hv
    exact hmade _ (by simp [readWidths]) a
  | memory ref => exact nofun
  | other text => exact nofun

/-- The two sides of a comparison need no width. -/
theorem compared_input (hP : s.Allows P Q) (hm : m.Holds P Q) (width : Nat) (operand : Operand) :
    ∀ v, (s.input m width operand).value = some v → Q v := by
  have hm' : m.Holds Q Q :=
    ⟨fun r v h => hP.compared v (hm.registers r v h), fun a v h => hP.compared v (hm.stack a v h),
      fun v h => hP.compared v (hm.pushed v h), hm.comparison⟩
  exact holds_input hm' fun w _ a => hP.comparedInteger a w

theorem holds_bind (hm : m.Holds P Q) (r : String) {v : Option Value}
    (hv : ∀ u, v = some u → P u) : (s.bind m r v).Holds P Q :=
  hm.setRegister _ hv

theorem holds_bind_value (hm : m.Holds P Q) (r : String) {v : Value} (hv : P v) :
    (s.bind m r (some v)).Holds P Q :=
  holds_bind hm r fun _ hu => by cases hu; exact hv

theorem holds_bind_none (hm : m.Holds P Q) (r : String) : (s.bind m r none).Holds P Q :=
  holds_bind hm r nofun

theorem holds_clobber (hm : m.Holds P Q) : (s.clobber m).Holds P Q := hm.clobber _

/-! ## Moves, loads and stores -/

theorem holds_stepMove (hk : s.isa.kind i = .move) (hm : m.Holds P Q)
    (hmade : ∀ w ∈ s.madeWidths i, ∀ a, P (.integer a w))
    (hnew : (s.stepMove fresh m i).result.isSome = true → P (.local fresh)) :
    (s.stepMove fresh m i).machine.Holds P Q := by
  unfold stepMove at *
  split at hnew
  · rename_i register source ho
    simp only [madeWidths, hk, ho] at hmade
    cases hf : s.isFrame register with
    | true => exact hm
    | false =>
      simp only [hf, Bool.false_eq_true, if_false] at hnew ⊢
      cases he : signedExtension? i.mnemonic with
      | some signed =>
        simp only [he] at hnew ⊢
        exact holds_bind_value hm register (hnew rfl)
      | none =>
        simp only [he, Option.isSome_none, Bool.false_eq_true, if_false] at hmade ⊢
        cases source with
        | immediate a => exact holds_bind_value hm register (hmade _ (by simp [readWidths]) a)
        | register r =>
          cases hr : s.isFrame r with
          | true =>
            simp only [hr, if_true]
            exact holds_bind_none hm register
          | false =>
            simp only [hr, Bool.false_eq_true, if_false]
            have hread : ∀ v, (s.input m (s.isa.width register) (.register r)).value = some v →
                P v := holds_input hm hmade
            exact holds_bind hm register hread
        | memory ref => exact hm
        | other text => exact hm
  · exact hm

/-- The base of a reference is in a register. -/
theorem get?_of_place {ref : Memory} {base : Value} {offset : Int64}
    (h : s.place m i ref = .relative base offset) : ∃ r, m.registers.get? r = some base := by
  unfold place at h
  split at h
  · cases h
  · split at h
    · cases h
    · split at h
      · cases h
      · split at h
        · cases h
        · split at h
          · split at h <;> cases h
          · rename_i v _ hv
            cases h
            exact ⟨_, hv⟩
          · cases h

/-- A field is reached through a local, whose type is rooted at the owner, or through the static
block of the owner; it is one of the owner's fields. -/
theorem fieldAt?_cases {base : Value} {offset : Int64} {f : FieldRef}
    (h : s.fieldAt? ls base offset = some f) : f.field ∈ s.table.fieldsOf f.owner ∧
      ((∃ id l, base = .local id ∧ ls[id]? = some l ∧ l.type.root? = some f.owner) ∨
        base = .staticFields f.owner) := by
  unfold fieldAt? at h
  split at h
  · cases base with
    | «local» id =>
      simp only [Option.bind_eq_bind, Option.bind_eq_some_iff] at h
      obtain ⟨l, hl, owner, howner, field, hfield, hf⟩ := h
      cases hf
      exact ⟨List.mem_of_find?_eq_some hfield, .inl ⟨id, l, rfl, hl, howner⟩⟩
    | staticFields owner =>
      obtain ⟨field, hfield, rfl⟩ := Option.map_eq_some_iff.mp h
      exact ⟨List.mem_of_find?_eq_some hfield, .inr rfl⟩
    | constant _ | field _ _ | classPointer _ => cases h
  · cases h

theorem holds_loadFrom (hP : s.Allows P Q) (hm : m.Holds P Q) (register : String) (ref : Memory)
    {p : Place} (hp : ∀ base offset, p = .relative base offset → P base)
    (hnew : (s.loadFrom ls fresh m register ref p).result.isSome = true → P (.local fresh)) :
    (s.loadFrom ls fresh m register ref p).machine.Holds P Q := by
  have hfield : ∀ base offset,
      ((s.loadField ls fresh m register ref base offset).result.isSome = true → P (.local fresh)) →
      (s.loadField ls fresh m register ref base offset).machine.Holds P Q := by
    intro base offset hnew
    unfold loadField at hnew ⊢
    cases hf : s.fieldAt? ls base offset with
    | some f =>
      simp only [hf] at hnew ⊢
      exact holds_bind_value hm register (hnew rfl)
    | none => exact holds_bind_none hm register
  cases p with
  | stack slot => exact holds_bind hm register (hm.stack slot)
  | global address =>
    refine holds_bind hm register fun v hv => ?_
    cases hc : s.symbols.classAt? address with
    | some d =>
      simp only [hc] at hv
      cases hv
      exact hP.classPointer address d hc
    | none =>
      simp only [hc] at hv
      obtain ⟨t, -, rfl⟩ := Option.map_eq_some_iff.mp hv
      exact hP.text t
  | relative base offset =>
    cases base with
    | classPointer d =>
      simp only [loadFrom] at hnew ⊢
      by_cases ho : offset = staticFieldsOffset
      · simp only [ho, if_true]
        exact holds_bind_value hm register (hP.staticFields d (hp _ _ rfl))
      · simp only [ho, if_false] at hnew ⊢
        exact hfield _ _ hnew
    | «local» id => exact hfield _ _ hnew
    | constant c => exact hfield _ _ hnew
    | field o f => exact hfield _ _ hnew
    | staticFields d => exact hfield _ _ hnew
  | unknown => exact holds_bind_none hm register

theorem holds_stepLoad (hP : s.Allows P Q) (hm : m.Holds P Q)
    (hnew : (s.stepLoad ls fresh m i).result.isSome = true → P (.local fresh)) :
    (s.stepLoad ls fresh m i).machine.Holds P Q := by
  unfold stepLoad at *
  split at hnew
  · split at hnew
    · rename_i register _ _ _ ref _
      cases hf : s.isFrame register with
      | true => exact hm
      | false =>
        simp only [hf, Bool.false_eq_true, if_false] at hnew ⊢
        have hbase : ∀ base offset, s.place m i ref = .relative base offset → P base := by
          intro base offset h
          obtain ⟨r, hr⟩ := get?_of_place h
          exact hm.registers r base hr
        exact holds_loadFrom hP hm register ref hbase hnew
    · exact hm
  · exact hm

theorem holds_stepStore (hk : s.isa.kind i = .store) (hm : m.Holds P Q)
    (hmade : ∀ w ∈ s.madeWidths i, ∀ a, P (.integer a w)) :
    (s.stepStore ls m i).machine.Holds P Q := by
  unfold stepStore
  cases ho : storeOperands? i.operands with
  | none => exact hm
  | some pair =>
    obtain ⟨ref, source⟩ := pair
    simp only [madeWidths, hk, ho] at hmade
    simp only
    cases s.place m i ref with
    | stack slot => exact hm.setSlot slot (holds_input hm hmade)
    | relative base offset => exact hm
    | global address => exact hm
    | unknown => exact hm

theorem holds_stepLoadAddress (hk : s.isa.kind i = .loadAddress) (hm : m.Holds P Q)
    (hmade : ∀ w ∈ s.madeWidths i, ∀ a, P (.integer a w)) :
    (s.stepLoadAddress m i).machine.Holds P Q := by
  unfold stepLoadAddress
  split
  · split
    · exact hm
    · split
      · rename_i a _
        exact holds_bind_value hm _ (hmade 64 (by simp [madeWidths, hk]) a.toInt64)
      · exact holds_bind_none hm _
  · exact hm

theorem holds_stepPush (hk : s.isa.kind i = .push) (hm : m.Holds P Q)
    (hmade : ∀ w ∈ s.madeWidths i, ∀ a, P (.integer a w)) :
    (s.stepPush m i).machine.Holds P Q := by
  refine hm.push fun v hv => ?_
  obtain ⟨operand, ho, hv⟩ := Option.bind_eq_some_iff.mp hv
  simp only [madeWidths, hk, ho, Option.map_some, Option.getD_some] at hmade
  exact holds_input hm hmade v hv

theorem holds_stepPop (hm : m.Holds P Q) : (s.stepPop m i).machine.Holds P Q := by
  obtain ⟨hvalue, hrest⟩ := hm.pop
  unfold stepPop
  simp only
  split
  · split
    · exact hrest
    · exact holds_bind hrest _ hvalue
  · exact hrest

/-! ## Arithmetic and comparisons -/

theorem holds_stepArithmetic {op : ArithmeticOp} (hk : s.isa.kind i = .arithmetic op)
    (hm : m.Holds P Q) (hmade : ∀ w ∈ s.madeWidths i, ∀ a, P (.integer a w))
    (hnew : (s.stepArithmetic fresh m i op).result.isSome = true → P (.local fresh)) :
    (s.stepArithmetic fresh m i op).machine.Holds P Q := by
  unfold stepArithmetic at *
  split at hnew
  · rename_i register rest ho
    have hwidth : s.isa.width register ∈ s.madeWidths i := by simp [madeWidths, hk, ho]
    have hm' := hm.forgetComparison
    simp only at hnew ⊢
    cases hf : s.isFrame register with
    | true =>
      simp only [if_true]
      exact hm'
    | false =>
      simp only [hf, Bool.false_eq_true, if_false] at hnew ⊢
      cases hz : s.isZeroing op register i.operands with
      | true =>
        simp only [if_true]
        exact holds_bind_value hm' register (hmade _ hwidth 0)
      | false =>
        simp only [hz, Bool.false_eq_true, if_false] at hnew ⊢
        cases hi : s.arithmeticInputs? { m with comparison := none } op (s.isa.width register)
            i.operands with
        | some inputs =>
          simp only [hi] at hnew ⊢
          exact holds_bind_value hm' register (hnew rfl)
        | none => exact hm'
  · exact hm

theorem holds_compare (hP : s.Allows P Q) (hm : m.Holds P Q) :
    ({ m with comparison := s.comparisonOf m i.operands } : Machine).Holds P Q := by
  refine hm.setComparison fun c hc v hv => ?_
  unfold comparisonOf at hc
  split at hc
  · cases hc
    rcases hv with hv | hv
    · exact compared_input hP hm _ _ v hv
    · exact compared_input hP hm _ _ v hv
  · cases hc

theorem holds_test (hP : s.Allows P Q) (hm : m.Holds P Q) :
    ({ m with comparison := s.testOf m i.operands } : Machine).Holds P Q := by
  refine hm.setComparison fun c hc v hv => ?_
  unfold testOf at hc
  split at hc
  · cases hc
    rcases hv with hv | hv
    · exact compared_input hP hm _ _ v hv
    · cases hv
      exact hP.comparedInteger 0 _
  · cases hc

/-! ## Calls -/

theorem holds_stepManagedCall (hm : m.Holds P Q) {target : UInt64}
    (hnew : (s.stepManagedCall fresh m target).result.isSome = true → P (.local fresh)) :
    (s.stepManagedCall fresh m target).machine.Holds P Q := by
  unfold stepManagedCall at *
  cases hx : s.symbols.methodAt? target with
  | none => exact holds_clobber hm
  | some callee =>
    simp only [hx] at hnew ⊢
    by_cases hv : callee.returnsVoid = true
    · simp only [hv, if_true]
      exact holds_clobber hm
    · simp only [hv, Bool.false_eq_true, if_false] at hnew ⊢
      exact holds_bind_value (holds_clobber hm) _ (hnew rfl)

theorem holds_stepJump (hm : m.Holds P Q)
    (hnew : (s.stepJump fresh m i).result.isSome = true → P (.local fresh)) :
    (s.stepJump fresh m i).machine.Holds P Q := by
  unfold stepJump at *
  cases ht : i.target? with
  | none => exact hm
  | some target =>
    simp only [ht] at hnew ⊢
    split at hnew
    · rename_i htail
      simp only [htail, if_true]
      exact holds_stepManagedCall hm hnew
    · rename_i htail
      simp only [htail]
      exact hm

theorem holds_allocated (hm : m.Holds P Q) {effect : Option Nat → Effect}
    {type : Signature → Signature} {d : Option TypeDefinition}
    (hnew : (s.allocated fresh m effect type d).result.isSome = true → P (.local fresh)) :
    (s.allocated fresh m effect type d).machine.Holds P Q := by
  cases d with
  | some d => exact holds_bind_value (holds_clobber hm) _ (hnew rfl)
  | none => exact holds_clobber hm

theorem holds_stepCall (hm : m.Holds P Q)
    (hnew : (s.stepCall fresh m i).result.isSome = true → P (.local fresh)) :
    (s.stepCall fresh m i).machine.Holds P Q := by
  unfold stepCall at *
  cases ht : i.target? with
  | none => exact holds_clobber hm
  | some target =>
    simp only [ht] at hnew ⊢
    cases hh : s.helpers.helperAt? target with
    | none =>
      simp only [hh] at hnew ⊢
      exact holds_stepManagedCall hm hnew
    | some helper =>
      simp only [hh] at hnew ⊢
      cases helper with
      | objectNew => exact holds_allocated hm hnew
      | arrayNew => exact holds_allocated hm hnew
      | initializeMethod | runtimeClassInit | raiseException | raiseIndexOutOfRange
      | raiseNullReference => exact holds_clobber hm

/-! ## The step -/

/-- A step keeps what holds of all values, if it holds of the integers that the instruction makes
and of the local that it makes, if any. -/
theorem holds_step (hP : s.Allows P Q) (hm : m.Holds P Q)
    (hmade : ∀ w ∈ s.madeWidths i, ∀ a, P (.integer a w))
    (hnew : (s.step ls fresh m i).result.isSome = true → P (.local fresh)) :
    (s.step ls fresh m i).machine.Holds P Q := by
  unfold step at *
  cases hk : s.isa.kind i with
  | move => simp only [hk] at hnew ⊢; exact holds_stepMove hk hm hmade hnew
  | load => simp only [hk] at hnew ⊢; exact holds_stepLoad hP hm hnew
  | store => exact holds_stepStore hk hm hmade
  | loadAddress => exact holds_stepLoadAddress hk hm hmade
  | arithmetic op => simp only [hk] at hnew ⊢; exact holds_stepArithmetic hk hm hmade hnew
  | compare => exact holds_compare hP hm
  | test => exact holds_test hP hm
  | jump => simp only [hk] at hnew ⊢; exact holds_stepJump hm hnew
  | call => simp only [hk] at hnew ⊢; exact holds_stepCall hm hnew
  | indirectCall => exact holds_clobber hm
  | push => exact holds_stepPush hk hm hmade
  | pop => exact holds_stepPop hm
  | unknown =>
    refine Machine.Holds.forgetComparison ?_
    split
    · exact holds_bind_none hm _
    · exact hm
  | nop | trap | conditionalJump _ | compareZeroAndBranch _ | indirectJump | ret | invalid =>
    exact hm

end Setting

/-! ## The walk -/

theorem Setting.entryMachine_holds {s : Setting} (h : ∀ l ∈ s.entryLocals, P (.local l.id)) :
    s.entryMachine.Holds P Q := by
  have hm := s.entryMachine_holdsArguments
  refine ⟨fun r v hv => ?_, fun slot v hv => ?_, fun v hv => ?_, fun c hc => ?_⟩
  · obtain ⟨l, hl, -, rfl⟩ := hm.registers r v hv
    exact h l hl
  · rw [hm.stack] at hv
    cases hv
  · rw [hm.pushed] at hv
    cases hv
  · rw [hm.comparison] at hc
    cases hc

namespace Walk

variable {s : Setting} {w : Walk} {k : Nat} {i : Instruction}

/-- The current state and the states on their way to a target hold such values only. -/
structure Holds (P Q : Value → Prop) (w : Walk) : Prop where
  machine : w.machine.Holds P Q
  incoming : ∀ t m, w.incoming.get? t = some m → m.Holds P Q

theorem Holds.arrive (h : w.Holds P Q) (i : Instruction) : (w.arrive s i).Holds P Q := by
  unfold Walk.arrive
  split
  · refine ⟨?_, fun t m ht => ?_⟩
    · simp only [enter]
      split
      · rename_i m hm
        split
        · exact h.machine.join m
        · exact h.incoming _ m hm
      · exact h.machine
    · simp only [enter, FinMap.get?_erase] at ht
      split at ht
      · cases ht
      · exact h.incoming t m ht
  · exact h

theorem Holds.branch (h : w.Holds P Q) (i : Instruction) : (w.branch s i).Holds P Q := by
  refine ⟨by rw [machine_branch]; exact h.machine, ?_⟩
  unfold Walk.branch
  split
  · split
    · unfold branchBack
      split
      · exact h.incoming
      · split <;> exact h.incoming
    · intro t m ht
      simp only [branchAhead, FinMap.get?_insert] at ht
      split at ht
      · cases ht
        split
        · rename_i n hn
          exact (h.incoming _ n hn).join _
        · exact h.machine
      · exact h.incoming t m ht
  · exact h.incoming

/-- What each step keeps, the walk has at every position. -/
theorem upTo_holds (hstart : s.entryMachine.Holds P Q)
    (hstep : ∀ k i, s.body[k]? = some i → (before s k).machine.Holds P Q →
      (recorded s k).machine.Holds P Q) (k : Nat) : (upTo s k).Holds P Q := by
  induction k with
  | zero => exact ⟨hstart, fun _ _ ht => nomatch ht⟩
  | succ k ih =>
    cases hi : s.body[k]? with
    | none => simpa [upTo, List.take_add_one, hi] using ih
    | some i =>
      have harrive := ih.arrive (s := s) i
      have hmachine := hstep k i hi (before_eq hi ▸ harrive.machine)
      rw [recorded_eq hi, before_eq hi] at hmachine
      have hadvance : (((upTo s k).arrive s i).advance s i).Holds P Q :=
        ⟨hmachine, harrive.incoming⟩
      rw [upTo_succ hi]
      exact ⟨(hadvance.branch i).machine, (hadvance.branch i).incoming⟩

theorem before_holds (hstart : s.entryMachine.Holds P Q)
    (hstep : ∀ k i, s.body[k]? = some i → (before s k).machine.Holds P Q →
      (recorded s k).machine.Holds P Q) (k : Nat) : (before s k).machine.Holds P Q := by
  have h := upTo_holds hstart hstep k
  unfold before
  split
  · exact (h.arrive _).machine
  · exact h.machine

/-- The local made at a position stands among the locals where it was put. -/
theorem getElem?_made (hi : s.body[k]? = some i) {new : NewLocal}
    (h : (recorded s k).result = some new) :
    (run s).locals[(upTo s k).locals.length]? =
      some (temporary (upTo s k).locals.length (upTo s k).nextSlot new) := by
  obtain ⟨later, hlater⟩ := (extends_run (s := s) (k + 1)).locals
  obtain ⟨more, hmore⟩ := (extends_step (s := s) (w := upTo s k) (i := i)).locals
  rw [recorded_eq hi, before_eq hi] at h
  rw [← hlater, upTo_succ hi, ← hmore]
  rw [locals_arrive] at h
  simp [advance, locals_arrive, nextSlot_arrive, h]

end Walk

/-! ## States are compared as they are -/

/-- The value is the same as another exactly if the two are equal, which need not hold of fields and
floating point numbers. -/
def Value.IsExact (v : Value) : Prop := ∀ u : Value, v.same u = (v == u) ∧ u.same v = (u == v)

namespace Value

theorem isExact_local (id : Nat) : (Value.local id).IsExact := by
  intro u
  cases u <;> exact ⟨rfl, rfl⟩

theorem isExact_classPointer (d : TypeDefinition) : (Value.classPointer d).IsExact := by
  intro u
  cases u <;> exact ⟨rfl, rfl⟩

theorem isExact_staticFields (d : TypeDefinition) : (Value.staticFields d).IsExact := by
  intro u
  cases u <;> exact ⟨rfl, rfl⟩

theorem isExact_constant {c : Constant} (h : ∀ d, c.same d = (c == d) ∧ d.same c = (d == c)) :
    (Value.constant c).IsExact := by
  intro u
  cases u with
  | constant d =>
    have hinj (a b : Constant) : (Value.constant a == Value.constant b) = (a == b) := by
      rw [Bool.eq_iff_iff, beq_iff_eq, beq_iff_eq, Value.constant.injEq]
    rw [hinj, hinj]
    exact h d
  | _ => exact ⟨rfl, rfl⟩

theorem isExact_text (text : String) : (Value.constant (.string text)).IsExact :=
  isExact_constant fun d => by cases d <;> exact ⟨rfl, rfl⟩

theorem isExact_integer (a : Int64) (width : Nat) : (Value.integer a width).IsExact := by
  refine isExact_constant fun d => ?_
  unfold Constant.ofWidth
  split <;> cases d <;> exact ⟨rfl, rfl⟩

end Value

/-- The pairs of a map that another one has, too, up to `same`. -/
def FinMap.agreeBy {κ ν : Type} [DecidableEq κ] [DecidableEq ν] (same : ν → ν → Bool)
    (m n : FinMap κ ν) : FinMap κ ν :=
  ⟨m.entries.filter fun e => m.get? e.1 == some e.2 && (n.get? e.1).any (same · e.2)⟩

theorem FinMap.agreeBy_eq {κ ν : Type} [DecidableEq κ] [DecidableEq ν] {same : ν → ν → Bool}
    {m n : FinMap κ ν} (h : ∀ k v, m.get? k = some v → ∀ u, same u v = (u == v)) :
    m.agreeBy same n = m.agree n := by
  refine congrArg FinMap.mk (List.filter_congr fun e _ => ?_)
  cases hm : m.get? e.1 == some e.2 with
  | false => rfl
  | true =>
    cases n.get? e.1 with
    | none => rfl
    | some u => simp [h e.1 e.2 (beq_iff_eq.mp hm) u]

/-- Keep what both states agree on, where values, inputs and comparisons agree if they are the
same. -/
def Machine.joinSame (m n : Machine) : Machine where
  registers := m.registers.agreeBy Value.same n.registers
  stack := m.stack.agreeBy Value.same n.stack
  pushed := if sameList (sameOption Value.same) m.pushed n.pushed then m.pushed else []
  comparison := if sameOption Comparison.same m.comparison n.comparison then m.comparison else none

namespace Machine.Holds

variable {m : Machine}

theorem sameOption_eq {v w : Option Value} (h : ∀ u, v = some u → u.IsExact) :
    sameOption Value.same v w = (v == w) := by
  cases v with
  | none => cases w <;> rfl
  | some v =>
    cases w with
    | none => rfl
    | some w => exact (h v rfl w).1

theorem sameList_eq {vs : List (Option Value)} (h : ∀ u, some u ∈ vs → u.IsExact)
    (ws : List (Option Value)) :
    sameList (sameOption Value.same) vs ws = (vs == ws) := by
  induction vs generalizing ws with
  | nil => cases ws <;> rfl
  | cons v vs ih =>
    cases ws with
    | nil => rfl
    | cons w ws =>
      rw [sameList, List.cons_beq_cons, ih fun u hu => h u (List.mem_cons_of_mem v hu),
        sameOption_eq fun u hu => h u (hu ▸ List.mem_cons_self ..)]

theorem comparison_same_eq {c d : Comparison}
    (h : ∀ v, c.left.value = some v ∨ c.right.value = some v → v.IsExact) :
    c.same d = (c == d) := by
  obtain ⟨⟨lo, lv⟩, ⟨ro, rv⟩, cm⟩ := c
  obtain ⟨⟨lo', lv'⟩, ⟨ro', rv'⟩, dm⟩ := d
  have hleft : sameOption Value.same lv lv' = (lv == lv') := sameOption_eq fun u hu => h u (.inl hu)
  have hright : sameOption Value.same rv rv' = (rv == rv') :=
    sameOption_eq fun u hu => h u (.inr hu)
  simp only [Comparison.same, Input.same, hleft, hright]
  rw [Bool.eq_iff_iff]
  simp [and_assoc]

/-- To join with a state of exact values, it does not matter how they are compared. -/
theorem join_eq (h : m.Holds Value.IsExact Value.IsExact) (n : Machine) :
    m.join n = m.joinSame n := by
  have hregisters := FinMap.agreeBy_eq (n := n.registers) fun r v hv u => (h.registers r v hv u).2
  have hstack := FinMap.agreeBy_eq (n := n.stack) fun slot v hv u => (h.stack slot v hv u).2
  have hpushed := sameList_eq h.pushed n.pushed
  have hcomparison : sameOption Comparison.same m.comparison n.comparison =
      (m.comparison == n.comparison) := by
    cases hc : m.comparison with
    | none => cases n.comparison <;> rfl
    | some c =>
      cases n.comparison with
      | none => rfl
      | some d => exact comparison_same_eq (h.comparison c hc)
  simp [Machine.join, joinSame, hregisters, hstack, hpushed, hcomparison]

end Machine.Holds

namespace Walk

variable {s : Setting}

theorem upTo_exact (k : Nat) : (upTo s k).Holds Value.IsExact Value.IsExact := by
  have hallows : s.Allows Value.IsExact Value.IsExact :=
    ⟨Value.isExact_text, fun _ d _ => Value.isExact_classPointer d,
      fun d _ => Value.isExact_staticFields d, fun _ h => h, Value.isExact_integer⟩
  refine upTo_holds (Setting.entryMachine_holds fun l _ => Value.isExact_local l.id) ?_ k
  intro k i hi hm
  rw [recorded_eq hi]
  exact Setting.holds_step hallows hm (fun _ _ a => Value.isExact_integer a _)
    fun _ => Value.isExact_local _

/-- Wherever a walk joins its state, or one on its way to a target, with another, and wherever it
looks for a value that a loop started with, comparing by equality is comparing by sameness. -/
theorem join_eq_joinSame (s : Setting) (k : Nat) :
    (∀ n, (upTo s k).machine.join n = (upTo s k).machine.joinSame n) ∧
      (∀ target m n, (upTo s k).incoming.get? target = some m → m.join n = m.joinSame n) ∧
      (∀ r v, ((upTo s k).machine.registers.get? r == some v) =
        ((upTo s k).machine.registers.get? r).any (·.same v)) ∧
      ∀ slot v, ((upTo s k).machine.stack.get? slot == some v) =
        ((upTo s k).machine.stack.get? slot).any (·.same v) := by
  have h := upTo_exact (s := s) k
  refine ⟨h.machine.join_eq, fun target m n hm => (h.incoming target m hm).join_eq n,
    fun r v => ?_, fun slot v => ?_⟩
  · cases hu : (upTo s k).machine.registers.get? r with
    | none => rfl
    | some u => exact (h.machine.registers r u hu v).1.symm
  · cases hu : (upTo s k).machine.stack.get? slot with
    | none => rfl
    | some u => exact (h.machine.stack slot u hu v).1.symm

end Walk

end MethodLift
