import MethodLift.Proofs.Coverage
import MethodLift.Proofs.StackPointer

/-!
# What a call leaves of a state

A call may overwrite the volatile registers of the convention and the flags, and it comes back with
its result in one of those registers. The walk meets calls in many forms: of a known method, of each
runtime helper, of code that nothing is known about, through a register, without a target, and as a
jump out of the body to a known method. Each of them reads its arguments, forgets what it must and
makes a local for its result, if it has one. `Setting.CallStep` says what all of them have in
common.

* `CallingConvention.Clobbers`: what is known after a call, in terms of what was known before it.
* `Setting.calleeSlots`: where the callee of an instruction finds its arguments.
* `Effect.handed`: the arguments that were written down.
-/

namespace MethodLift

/-- What a state has in the place of an argument. Arguments in vector registers and on the stack are
not followed. -/
def Machine.held (m : Machine) : ArgumentSlot → Option Value
  | .register r => m.registers.get? r
  | .floatingPoint | .stack => none

/-- The values that an effect has as the arguments of a call. -/
def Effect.handed : Effect → List (Option Value)
  | .call _ _ arguments _ _ => arguments.map Input.value
  | .helper _ argument => [argument]
  | .allocate type _ => [type.value]
  | .allocateArray element length _ => [element.value, length.value]
  | .throw exception => [exception.value]
  | _ => []

/-- The number of arguments that are read where a helper is called. -/
def Helper.arity : Helper → Nat
  | initializeMethod | runtimeClassInit | objectNew | raiseException => 1
  | arrayNew => 2
  | raiseIndexOutOfRange | raiseNullReference => 0

/-- A call turns `m` into `n`: volatile registers and flags are forgotten, but for the register of
the result, which has the local `made` if there is one. Everything else is as it was. -/
structure CallingConvention.Clobbers (c : CallingConvention) (m : Machine) (made : Option Nat)
    (n : Machine) : Prop where
  volatile : ∀ r ∈ c.volatile,
    n.registers.get? r = if r = c.result then made.map Value.local else none
  kept : ∀ r ∉ c.volatile, n.registers.get? r = m.registers.get? r
  stack : n.stack = m.stack
  pushed : n.pushed = m.pushed
  comparison : n.comparison = none

/-- The slots of integers only. -/
theorem CallingConvention.slotsFrom_integers (c : CallingConvention) (k n : Nat) :
    c.slotsFrom k k (List.replicate n false) =
      (List.range' k n).map fun p => c.arguments[p]?.elim .stack .register := by
  induction n generalizing k with
  | zero => rfl
  | succ n ih =>
    simp only [List.replicate_succ, slotsFrom, ite_self, List.range'_succ, List.map_cons, ih]
    cases c.arguments[k]? <;> rfl

namespace Setting

/-- The instruction set is a built-in one, under one of its conventions. -/
def IsBuiltin (s : Setting) : Prop :=
  (s.isa = X64.isa ∨ s.isa = A64.isa) ∧ ∃ abi, s.convention = s.isa.convention abi

/-- The registers of arguments and results are full registers, and none of them is the one that
reads as zero. The register of the result is volatile. -/
structure HasFullRoles (s : Setting) : Prop where
  result_mem : s.convention.result ∈ s.convention.volatile
  family_result : s.isa.family s.convention.result = s.convention.result
  arguments : ∀ r ∈ s.convention.arguments, s.isa.family r = r ∧ r ≠ zeroRegister

theorem IsBuiltin.hasFullRoles {s : Setting} (h : s.IsBuiltin) : s.HasFullRoles := by
  obtain ⟨hisa, abi, hconvention⟩ := h
  rcases hisa with hisa | hisa
  all_goals
    rw [hisa] at hconvention
    constructor <;> simp only [hconvention, hisa]
    all_goals cases abi <;> decide +kernel

/-- The instruction is a jump that leaves the body for a known method. -/
def isTailCall (s : Setting) (i : Instruction) : Bool :=
  s.isa.kind i == .jump &&
    i.target?.any fun t => !s.isInside t && (s.symbols.methodAt? t).isSome

/-- The instruction calls something. -/
def callsOut (s : Setting) (i : Instruction) : Bool := s.isCall i || s.isTailCall i

/-- Where a method or helper that an instruction calls finds its arguments. Of other callees nothing
is known. A jump is never taken for the call of a helper. -/
def calleeSlots (s : Setting) (i : Instruction) : List ArgumentSlot :=
  if s.isa.kind i = .indirectCall then []
  else
    match i.target? with
    | none => []
    | some t =>
      match if s.isTailCall i then none else s.helpers.helperAt? t with
      | some helper => s.convention.slotsFrom 0 0 (List.replicate helper.arity false)
      | none => ((s.symbols.methodAt? t).map s.convention.argumentSlots).getD []

/-- A step that calls something with its arguments in `slots`, and does `rest` behind the call. -/
structure CallStep (s : Setting) (fresh : Nat) (m : Machine) (slots : List ArgumentSlot)
    (rest : List Effect) (step : Step) : Prop where
  frame : s.convention.Clobbers m (step.result.map fun _ => fresh) step.machine
  register : ∀ new ∈ step.result, new.register = s.convention.result
  effects : ∃ e, step.effects = e :: rest ∧ e.handed = slots.map m.held ∧
    e.produced = step.result.map fun _ => fresh

variable {s : Setting} {ls : Locals} {fresh : Nat} {m : Machine} {i : Instruction}

/-! ## The state -/

theorem clobbers_clobber (m : Machine) : s.convention.Clobbers m none (s.clobber m) where
  volatile r hr := by simp [clobber, Machine.clobber, FinMap.get?_foldl_erase, hr]
  kept r hr := by simp [clobber, Machine.clobber, FinMap.get?_foldl_erase, hr]
  stack := rfl
  pushed := rfl
  comparison := rfl

/-- The result of a call comes in its register after all else is forgotten. -/
theorem clobbers_bind (hs : s.HasFullRoles) (m : Machine) (fresh : Nat) :
    s.convention.Clobbers m (some fresh)
      (s.bind (s.clobber m) s.convention.result (some (.local fresh))) := by
  have hforgotten := clobbers_clobber (s := s) m
  have hget := (s.clobber m).get?_setRegister s.convention.result (some (.local fresh))
  rw [bind, hs.family_result]
  refine ⟨fun r hr => ?_, fun r hr => ?_, ?_, ?_, ?_⟩
  · rw [hget, hforgotten.volatile r hr]
    by_cases hresult : r = s.convention.result <;> simp [hresult]
  · have hne : r ≠ s.convention.result := by
      rintro rfl
      exact hr hs.result_mem
    rw [hget, if_neg hne, hforgotten.kept r hr]
  all_goals simp [hforgotten.stack, hforgotten.pushed, hforgotten.comparison]

/-! ## The arguments -/

/-- A full register is read as it is held. -/
theorem value_readRegister (hs : s.HasFullRoles) {r : String} (hr : r ∈ s.convention.arguments) :
    (s.readRegister m r).value = m.held (.register r) := by
  obtain ⟨hfull, hzero⟩ := hs.arguments r hr
  simp [readRegister, hfull, hzero, Machine.held]

theorem values_passedAll (hs : s.HasFullRoles) {slots : List ArgumentSlot}
    (hslots : ∀ r, .register r ∈ slots → r ∈ s.convention.arguments) :
    (s.passedAll m slots).map Input.value = slots.map m.held := by
  have hpassed : ∀ slot ∈ slots, ∀ n, (s.passed m slot n).value = m.held slot := by
    intro slot hslot n
    cases slot with
    | register r => exact value_readRegister hs (hslots r hslot)
    | floatingPoint => rfl
    | stack => rfl
  calc (s.passedAll m slots).map Input.value
      = slots.zipIdx.map (m.held ∘ Prod.fst) := by
        rw [passedAll, List.map_map]
        refine List.map_congr_left ?_
        intro p hp
        exact hpassed p.1 (List.fst_mem_of_mem_zipIdx hp) p.2
    _ = slots.map m.held := by rw [← List.map_map, List.zipIdx_map_fst]

/-- The arguments of a helper, by their positions. -/
theorem held_integers (hs : s.HasFullRoles) (n : Nat) :
    (s.convention.slotsFrom 0 0 (List.replicate n false)).map m.held =
      (List.range' 0 n).map fun p => (s.argument m p).value := by
  rw [CallingConvention.slotsFrom_integers, List.map_map]
  refine List.map_congr_left ?_
  intro p _
  simp only [Function.comp, argument]
  cases hp : s.convention.arguments[p]? with
  | none => rfl
  | some r => exact (value_readRegister hs (List.mem_of_getElem? hp)).symm

/-! ## The forms of a call -/

/-- A call without a result. -/
theorem CallStep.silent {slots : List ArgumentSlot} {e : Effect} {imports : List Signature}
    (hhanded : e.handed = slots.map m.held) (hproduced : e.produced = none) :
    s.CallStep fresh m slots [] { machine := s.clobber m, effects := [e], imports } where
  frame := clobbers_clobber m
  register := by simp
  effects := ⟨e, rfl, hhanded, hproduced⟩

/-- A call with a result. -/
theorem CallStep.returning (hs : s.HasFullRoles) {slots : List ArgumentSlot} {e : Effect}
    (hhanded : e.handed = slots.map m.held) (hproduced : e.produced = some fresh)
    (type : Signature) (imports : List Signature) :
    s.CallStep fresh m slots []
      { machine := s.bind (s.clobber m) s.convention.result (some (.local fresh))
        effects := [e], result := some (s.newLocal s.convention.result type), imports } where
  frame := clobbers_bind hs m fresh
  register := by simp [newLocal, hs.family_result]
  effects := ⟨e, rfl, hhanded, hproduced⟩

theorem callStep_managed (hs : s.HasFullRoles) (target : UInt64) :
    s.CallStep fresh m (((s.symbols.methodAt? target).map s.convention.argumentSlots).getD []) []
      (s.stepManagedCall fresh m target) := by
  unfold stepManagedCall
  cases s.symbols.methodAt? target with
  | none => exact .silent rfl rfl
  | some callee =>
    have hhanded : (s.passedAll m (s.convention.argumentSlots callee)).map Input.value =
        (s.convention.argumentSlots callee).map m.held :=
      values_passedAll hs fun r hr => Native.mem_arguments_of_slotsFrom hr
    simp only [Option.map_some, Option.getD_some]
    by_cases hvoid : callee.returnsVoid = true
    · simp only [hvoid, if_true]
      exact .silent hhanded rfl
    · simp only [hvoid, Bool.false_eq_true, if_false]
      refine .returning hs ?_ rfl _ _
      exact hhanded

/-- A helper that makes an object, if it was given a class. -/
theorem callStep_allocated (hs : s.HasFullRoles) {slots : List ArgumentSlot}
    {effect : Option Nat → Effect} (hhanded : ∀ result, (effect result).handed = slots.map m.held)
    (hproduced : ∀ result, (effect result).produced = result) (type : Signature → Signature)
    (d : Option TypeDefinition) :
    s.CallStep fresh m slots [] (s.allocated fresh m effect type d) := by
  cases d with
  | none => exact .silent (hhanded none) (hproduced none)
  | some d => exact .returning hs (hhanded _) (hproduced _) _ _

theorem callStep_helper (hs : s.HasFullRoles) (helper : Helper) :
    s.CallStep fresh m (s.convention.slotsFrom 0 0 (List.replicate helper.arity false)) []
      (s.stepHelper fresh m helper) := by
  have hheld := held_integers (m := m) hs helper.arity
  cases helper with
  | initializeMethod => exact .silent hheld.symm rfl
  | runtimeClassInit => exact .silent hheld.symm rfl
  | raiseException => exact .silent hheld.symm rfl
  | raiseIndexOutOfRange => exact .silent rfl rfl
  | raiseNullReference => exact .silent rfl rfl
  | objectNew =>
    refine callStep_allocated hs (fun _ => ?_) (fun _ => rfl) _ _
    exact hheld.symm
  | arrayNew =>
    refine callStep_allocated hs (fun _ => ?_) (fun _ => rfl) _ _
    exact hheld.symm

/-- Something done behind a call that leaves the state alone. -/
theorem CallStep.andThen {slots : List ArgumentSlot} {step : Step}
    (h : s.CallStep fresh m slots [] step) (rest : List Effect) :
    s.CallStep fresh m slots rest { step with effects := step.effects ++ rest } := by
  obtain ⟨e, he, hhanded, hproduced⟩ := h.effects
  exact ⟨h.frame, h.register, e, by simp [he], hhanded, hproduced⟩

theorem isCall_iff : s.isCall i = true ↔ s.isa.kind i = .call ∨ s.isa.kind i = .indirectCall := by
  unfold isCall
  cases s.isa.kind i <;> simp

theorem isTailCall_iff : s.isTailCall i = true ↔ s.isa.kind i = .jump ∧
    ∃ t, i.target? = some t ∧ (!s.isInside t && (s.symbols.methodAt? t).isSome) = true := by
  simp only [isTailCall, Bool.and_eq_true, beq_iff_eq, Option.any_eq_true]

theorem isTailCall_of_isCall (h : s.isCall i = true) : s.isTailCall i = false := by
  rw [isCall_iff] at h
  simp only [isTailCall, Bool.and_eq_false_iff, beq_eq_false_iff_ne]
  rcases h with h | h <;> simp [h]

theorem callStep_call (hs : s.HasFullRoles) (hk : s.isa.kind i = .call) :
    s.CallStep fresh m (s.calleeSlots i) [] (s.stepCall fresh m i) := by
  have htail : s.isTailCall i = false := isTailCall_of_isCall (isCall_iff.mpr (.inl hk))
  unfold stepCall calleeSlots
  simp only [hk, htail, reduceCtorEq, if_false, Bool.false_eq_true]
  cases i.target? with
  | none => exact .silent rfl rfl
  | some t =>
    simp only
    cases s.helpers.helperAt? t with
    | none => exact callStep_managed hs t
    | some helper => exact callStep_helper hs helper

theorem callStep_jump (hs : s.HasFullRoles) (h : s.isTailCall i = true) :
    s.CallStep fresh m (s.calleeSlots i) [s.returnEffect (s.stepJump fresh m i).machine]
      (s.stepJump fresh m i) := by
  obtain ⟨hk, t, ht, hleaves⟩ := isTailCall_iff.mp h
  have hslots : s.calleeSlots i =
      ((s.symbols.methodAt? t).map s.convention.argumentSlots).getD [] := by
    simp [calleeSlots, hk, ht, h]
  rw [hslots, stepJump, ht]
  simp only [hleaves, if_true]
  exact (callStep_managed hs t).andThen _

/-- Every call is a step of this kind; what follows a jump to a method is a return from the state
that the call left. -/
theorem callStep_step (hs : s.HasFullRoles) (h : s.callsOut i = true) :
    s.CallStep fresh m (s.calleeSlots i)
      (if s.isTailCall i then [s.returnEffect (s.step ls fresh m i).machine] else [])
      (s.step ls fresh m i) := by
  rcases Bool.or_eq_true_iff.mp h with hcall | htail
  · rw [isTailCall_of_isCall hcall]
    rcases isCall_iff.mp hcall with hk | hk
    · simp only [step, hk, Bool.false_eq_true, if_false]
      exact callStep_call hs hk
    · simp only [step, hk, Bool.false_eq_true, if_false, calleeSlots, if_true]
      exact .silent rfl rfl
  · have hk := (isTailCall_iff.mp htail).1
    simp only [step, hk, htail, if_true]
    exact callStep_jump hs htail

end Setting

/-! ## The walk -/

/-- A call brings no state to a branch target. -/
theorem Walk.branchTarget?_of_callsOut {s : Setting} {i : Instruction}
    (h : s.callsOut i = true) : branchTarget? s i = none := by
  unfold branchTarget?
  rcases Bool.or_eq_true_iff.mp h with hcall | htail
  · rcases Setting.isCall_iff.mp hcall with hk | hk <;>
      simp [hk, InstructionKind.isDirectBranch, InstructionKind.isConditional]
  · obtain ⟨hk, t, ht, hleaves⟩ := Setting.isTailCall_iff.mp htail
    have hout : s.isInside t = false := by simpa using (Bool.and_eq_true_iff.mp hleaves).1
    simp [hk, ht, hout, InstructionKind.isDirectBranch, Option.filter]

/-- Whatever the walk has come to, after an instruction that calls something it has at most one new
local, for the register of the result. The volatile registers are forgotten, but for that local in
its register, and so are the flags; the other registers, the stack slots and the pushed values are
as they were. The arguments that are written down are those that the argument registers had before
the call. -/
theorem Walk.call_clobbers (s : Setting) (hs : s.IsBuiltin) (w : Walk) (i : Instruction)
    (hcall : s.callsOut i = true) :
    let after := (w.advance s i).branch s i
    ∃ made : Option Local,
      after.locals = w.locals ++ made.toList ∧
      (∀ l ∈ made, l.id = w.locals.length ∧ l.register = some s.convention.result) ∧
      s.convention.Clobbers w.machine (made.map Local.id) after.machine ∧
      ∃ e, after.actions = w.actions ++ (e :: if s.isTailCall i then
          [s.returnEffect after.machine] else []).map (Action.mk i.address) ∧
        e.handed = (s.calleeSlots i).map w.machine.held ∧
        e.produced = made.map Local.id := by
  intro after
  have hafter : after = w.advance s i := by
    simp only [after, branch, branchTarget?_of_callsOut hcall]
  let step := s.step w.locals w.locals.length w.machine i
  have hstep : s.CallStep w.locals.length w.machine (s.calleeSlots i)
      (if s.isTailCall i then [s.returnEffect step.machine] else []) step :=
    Setting.callStep_step hs.hasFullRoles hcall
  obtain ⟨e, heffects, hhanded, hproduced⟩ := hstep.effects
  rw [hafter]
  have hid : (step.result.map (temporary w.locals.length w.nextSlot)).map Local.id =
      step.result.map fun _ => w.locals.length := by
    rw [Option.map_map]
    rfl
  refine ⟨step.result.map (temporary w.locals.length w.nextSlot), rfl, ?_, ?_, e, ?_, hhanded, ?_⟩
  · intro l hl
    obtain ⟨new, hnew, rfl⟩ := Option.map_eq_some_iff.mp hl
    exact ⟨rfl, congrArg some (hstep.register new hnew)⟩
  · rw [hid]
    exact hstep.frame
  · exact congrArg (fun effects => w.actions ++ effects.map (Action.mk i.address)) heffects
  · rw [hid, hproduced]

/-- The jump of `forwarding` to the other method, with values in volatile registers, in a kept one,
in a stack slot, on the stack and behind the flags. -/
theorem Walk.call_clobbers_forwarding :
    let s := forwarding
    let i := Instruction.ofText 0x1008 (List.replicate 5 0x90) "jmp" "0x2000"
    let w : Walk :=
      { machine :=
          { registers := .ofList [("rcx", .local 0), ("rdx", .integer 3 64), ("rbx", .local 0)]
            stack := .ofList [(("rsp", 8), .local 0)]
            pushed := [some (.local 0)]
            comparison := some ⟨.missing "rcx", .missing "rdx", true⟩ }
        locals := s.entryLocals }
    let after := (w.advance s i).branch s i
    i ∈ s.body ∧ s.IsBuiltin ∧ s.callsOut i = true ∧ after.locals.length = 2 ∧
      after.machine.registers.get? "rax" = some (.local 1) ∧
      after.machine.registers.get? "rcx" = none ∧ after.machine.registers.get? "rdx" = none ∧
      after.machine.registers.get? "rbx" = some (.local 0) ∧
      after.machine.stack = w.machine.stack ∧ after.machine.pushed = w.machine.pushed ∧
      after.machine.comparison = none ∧
      ∃ e, after.actions = [⟨0x1008, e⟩, ⟨0x1008, s.returnEffect after.machine⟩] ∧
        e.handed = [some (.local 0)] ∧ e.produced = some 1 := by
  intro s i w after
  have hs : s.IsBuiltin := ⟨.inl rfl, .microsoft, rfl⟩
  have hcall : s.callsOut i = true := by decide +kernel
  have htail : s.isTailCall i = true := by decide +kernel
  have hslots : (s.calleeSlots i).map w.machine.held = [some (.local 0)] := by decide +kernel
  have hlength : after.locals.length = 2 := by decide +kernel
  obtain ⟨made, hlocals, hmade, hframe, e, hactions, hhanded, hproduced⟩ :=
    call_clobbers s hs w i hcall
  -- There is one local more than at entry, so the call made one.
  cases made with
  | none =>
    rw [show after.locals = w.locals ++ [] from hlocals] at hlength
    exact absurd hlength (by decide +kernel)
  | some l =>
    have hid : l.id = 1 := (hmade l rfl).1
    have hvolatile := hframe.volatile
    simp only [Option.map_some, hid] at hvolatile hproduced
    rw [htail] at hactions
    exact ⟨by decide +kernel, hs, hcall, hlength, hvolatile "rax" (by decide +kernel),
      hvolatile "rcx" (by decide +kernel), hvolatile "rdx" (by decide +kernel),
      hframe.kept "rbx" (by decide +kernel), hframe.stack, hframe.pushed, hframe.comparison, e,
      hactions, hhanded.trans hslots, hproduced⟩

end MethodLift
