import MethodLift.Proofs.DefinedBeforeUse

/-!
# What a step adds to the body, form by form

`Setting.step` takes one of many turns, but it adds effects in few ways only. `Setting.Adds` lists
them, each with what it tells about the instruction: an instruction that control passes through adds
at most one effect that goes straight on, and only a branch, a jump, a return or a call that never
comes back adds an effect that does not. `adds_step` says that there are no other ways, in whatever
state the step is taken.
-/

namespace MethodLift

/-- The number of arguments of a method, `this` included. -/
def Method.arity (m : Method) : Nat := (if m.isStatic then 0 else 1) + m.parameters.length

namespace Effect

/-- Behind the effect control goes on to the next one. -/
def isStraight : Effect → Bool
  | branch .. | jump .. | label .. | throw .. | throwNew .. | ret .. | unmodeled .. => false
  | _ => true

/-- The effect fits the signatures it depends on: a call takes the arguments of the callee and has a
result unless the callee is void, a return has a value unless `method` is void. A conversion does
nothing but convert. -/
def Fits (method : Method) : Effect → Prop
  | convert _ conversions _ => ∀ b ∈ conversions, ∃ size signed, b = .conv size signed
  | call _ (some callee) arguments _ result =>
    arguments.length = callee.arity ∧ (result = none ↔ callee.returnsVoid = true)
  | ret value => value = none ↔ method.returnsVoid = true
  | _ => True

end Effect

theorem Graph.kind_of_isFinalCall {helpers : HelperTable} {kind : InstructionKind} {i : Instruction}
    (h : isFinalCall helpers kind i = true) : kind = .call := by
  simp only [isFinalCall, Bool.and_eq_true, beq_iff_eq] at h
  exact h.1

namespace Setting

/-- What an instruction adds that is no branch, jump or return. -/
inductive Plain (method : Method) : List Effect → Prop
  | silent : Plain method []
  | single {e : Effect} : e.isStraight = true → e.Fits method → Plain method [e]
  | unmodeled {instruction : String} {taint : Taint} :
      Plain method [.unmodeled instruction taint]

/-- What an instruction may add to the body. -/
inductive Adds (s : Setting) (i : Instruction) : List Effect → Prop
  | silent : s.isa.kind i = .trap ∨ Walk.passes s i = true →
      (s.isa.kind i).isDirectBranch = false → Adds s i []
  | single {e : Effect} : Walk.passes s i = true → (s.isa.kind i).isDirectBranch = false →
      e.isStraight = true → e.Fits s.method → Adds s i [e]
  | unmodeled {instruction : String} {taint : Taint} : Adds s i [.unmodeled instruction taint]
  | branch {condition : Condition} {comparison : Option Comparison} {target : UInt64} :
      (s.isa.kind i).isConditional = true → i.target? = some target →
      Adds s i [.branch condition comparison target (s.isInside target)]
  | jump {target : UInt64} : s.isa.kind i = .jump → i.target? = some target →
      Adds s i [.jump target (s.isInside target)]
  /-- A jump out of the body to a known method. -/
  | tailCall {target : UInt64} {call : Effect} {value : Option Input} : s.isa.kind i = .jump →
      i.target? = some target → s.isInside target = false → call.isStraight = true →
      call.Fits s.method → (Effect.ret value).Fits s.method → Adds s i [call, .ret value]
  | throw {exception : Input} : Graph.isFinalCall s.helpers (s.isa.kind i) i = true →
      Adds s i [.throw exception]
  | throwNew {typeName : String} {type : Option TypeDefinition} :
      Graph.isFinalCall s.helpers (s.isa.kind i) i = true → Adds s i [.throwNew typeName type]
  | ret {value : Option Input} : s.isa.kind i = .ret → (Effect.ret value).Fits s.method →
      Adds s i [.ret value]

variable {s : Setting} {ls : Locals} {fresh : Nat} {m : Machine} {i : Instruction}

theorem Plain.adds_of_passes {effects : List Effect} (h : Plain s.method effects)
    (hp : Walk.passes s i = true) (hd : (s.isa.kind i).isDirectBranch = false) :
    s.Adds i effects := by
  cases h with
  | silent => exact .silent (.inr hp) hd
  | single hs hf => exact .single hp hd hs hf
  | unmodeled => exact .unmodeled

/-- Control passes through an instruction that ends no block and is no call. -/
theorem Plain.adds {effects : List Effect} (h : Plain s.method effects) {kind : InstructionKind}
    (hk : s.isa.kind i = kind) (hb : kind.endsBlock = false) (hc : kind ≠ .call) :
    s.Adds i effects := by
  subst hk
  simp only [InstructionKind.endsBlock, Bool.or_eq_false_iff] at hb
  have hjump : s.isa.kind i ≠ .jump := by
    intro hj
    rw [hj] at hb
    exact absurd hb.1 (by decide)
  refine h.adds_of_passes ?_ ?_
  · simp [Walk.passes, hb.1, Graph.isFinalCall, hc]
  · simp [InstructionKind.isDirectBranch, hb.2, hjump]

theorem Adds.fits {effects : List Effect} (h : s.Adds i effects) {e : Effect} (he : e ∈ effects) :
    e.Fits s.method := by
  cases h with
  | silent => simp at he
  | single _ _ _ hf => exact List.mem_singleton.mp he ▸ hf
  | ret _ hf => exact List.mem_singleton.mp he ▸ hf
  | tailCall _ _ _ _ hf hr =>
    rcases List.mem_cons.mp he with rfl | he
    · exact hf
    · exact List.mem_singleton.mp he ▸ hr
  | unmodeled | branch | jump | throw | throwNew =>
    rw [List.mem_singleton.mp he]
    trivial

/-- Labels are no matter of a step. -/
theorem Adds.ne_label {effects : List Effect} (h : s.Adds i effects) {e : Effect} (he : e ∈ effects)
    (target : UInt64) : e ≠ .label target := by
  rintro rfl
  cases h with
  | silent => simp at he
  | single _ _ hs _ => cases List.mem_singleton.mp he ▸ hs
  | tailCall _ _ _ hs _ _ =>
    rcases List.mem_cons.mp he with rfl | he
    · cases hs
    · cases List.mem_singleton.mp he
  | unmodeled | branch | jump | throw | throwNew | ret => cases List.mem_singleton.mp he

/-! ## Moves, loads and stores -/

theorem plain_stepConvert (register : String) (source : Operand) (signed : Bool) :
    Plain s.method (s.stepConvert fresh m register source signed).effects := by
  refine .single rfl fun b hb => ?_
  rcases List.mem_cons.mp hb with rfl | hb
  · exact ⟨_, _, rfl⟩
  · split at hb
    · exact ⟨_, _, List.mem_singleton.mp hb⟩
    · simp at hb

theorem plain_stepMove : Plain s.method (s.stepMove fresh m i).effects := by
  unfold stepMove
  split
  · split
    · exact .silent
    · split
      · exact plain_stepConvert _ _ _
      · split
        · exact .single rfl trivial
        · split
          · exact .silent
          · exact .single rfl trivial
        · exact .unmodeled
  · exact .unmodeled

theorem plain_loadField (register : String) (ref : Memory) (base : Value) (offset : Int64) :
    Plain s.method (s.loadField ls fresh m register ref base offset).effects := by
  unfold loadField
  split
  · exact .single rfl trivial
  · exact .single rfl trivial

theorem plain_stepLoad : Plain s.method (s.stepLoad ls fresh m i).effects := by
  unfold stepLoad
  split
  · split
    · split
      · exact .silent
      · unfold loadFrom
        split
        · exact .single rfl trivial
        · exact .single rfl trivial
        · split
          · exact .single rfl trivial
          · exact plain_loadField _ _ _ _
        · exact plain_loadField _ _ _ _
        · exact .single rfl trivial
    · exact .unmodeled
  · exact .unmodeled

theorem plain_stepStore : Plain s.method (s.stepStore ls m i).effects := by
  unfold stepStore
  split
  · exact .unmodeled
  · simp only
    split <;> exact .single rfl trivial

theorem plain_stepLoadAddress : Plain s.method (s.stepLoadAddress m i).effects := by
  unfold stepLoadAddress
  split
  · split
    · exact .silent
    · split
      · exact .single rfl trivial
      · exact .silent
  · exact .unmodeled

theorem plain_stepPop : Plain s.method (s.stepPop m i).effects := by
  unfold stepPop
  simp only
  split
  · split <;> exact .silent
  · exact .silent

theorem plain_stepArithmetic (op : ArithmeticOp) :
    Plain s.method (s.stepArithmetic fresh m i op).effects := by
  unfold stepArithmetic
  split
  · simp only
    split
    · exact .silent
    · split
      · exact .single rfl trivial
      · split
        · exact .single rfl trivial
        · exact .unmodeled
  · exact .unmodeled

/-! ## Branches, calls and returns -/

theorem adds_branchEffect (h : (s.isa.kind i).isConditional = true) (condition : Condition)
    (comparison : Option Comparison) : s.Adds i [s.branchEffect i condition comparison] := by
  unfold branchEffect
  split
  · rename_i ht
    exact .branch h ht
  · exact .unmodeled

theorem exists_returnEffect (s : Setting) (m : Machine) :
    ∃ value, s.returnEffect m = .ret value ∧ (Effect.ret value).Fits s.method := by
  unfold returnEffect
  cases hv : s.method.returnsVoid with
  | true => exact ⟨none, rfl, by simp [Effect.Fits, hv]⟩
  | false =>
    simp only [Bool.false_eq_true, if_false]
    split
    · exact ⟨_, rfl, by simp [Effect.Fits, hv]⟩
    · exact ⟨_, rfl, by simp [Effect.Fits, hv]⟩

/-- A call of managed code adds the call, with the arguments of the callee if that is known. -/
theorem exists_managedCall (s : Setting) (fresh : Nat) (m : Machine) (target : UInt64) :
    ∃ call, (s.stepManagedCall fresh m target).effects = [call] ∧ call.isStraight = true ∧
      call.Fits s.method := by
  unfold stepManagedCall
  simp only
  split
  · exact ⟨_, rfl, rfl, trivial⟩
  · rename_i callee _
    have harity : (s.convention.argumentSlots callee).length = callee.arity := by
      rw [CallingConvention.length_argumentSlots, length_argumentsOf, Method.arity]
    split
    · rename_i hvoid
      exact ⟨_, rfl, rfl, by simp [Effect.Fits, harity, hvoid]⟩
    · rename_i hvoid
      exact ⟨_, rfl, rfl, by simp [Effect.Fits, harity, hvoid]⟩

theorem adds_stepJump (h : s.isa.kind i = .jump) : s.Adds i (s.stepJump fresh m i).effects := by
  unfold stepJump
  split
  · exact .unmodeled
  · rename_i target ht
    split
    · rename_i hout
      simp only [Bool.and_eq_true, Bool.not_eq_true'] at hout
      obtain ⟨call, hcall, hstraight, hfits⟩ := exists_managedCall s fresh m target
      obtain ⟨value, hret, hvalue⟩ :=
        exists_returnEffect s (s.stepManagedCall fresh m target).machine
      simp only [hcall, hret]
      exact .tailCall h ht hout.1 hstraight hfits hvalue
    · exact .jump h ht

theorem plain_allocated (effect : Option Nat → Effect) (h : ∀ r, (effect r).isStraight = true)
    (hf : ∀ r, (effect r).Fits s.method) (type : Signature → Signature)
    (d : Option TypeDefinition) : Plain s.method (s.allocated fresh m effect type d).effects := by
  cases d with
  | some d => exact .single (h _) (hf _)
  | none => exact .single (h _) (hf _)

theorem plain_stepHelper {helper : Helper} (h : helper.neverReturns = false) :
    Plain s.method (s.stepHelper fresh m helper).effects := by
  cases helper with
  | initializeMethod | runtimeClassInit => exact .single rfl trivial
  | objectNew => exact plain_allocated (.allocate _) (fun _ => rfl) (fun _ => trivial) _ _
  | arrayNew => exact plain_allocated (.allocateArray _ _) (fun _ => rfl) (fun _ => trivial) _ _
  | raiseException | raiseIndexOutOfRange | raiseNullReference => cases h

/-- Control comes back from a call exactly if the helper it calls returns. -/
theorem passes_of_call (h : s.isa.kind i = .call) {target : UInt64} (ht : i.target? = some target) :
    Walk.passes s i = !(s.helpers.helperAt? target).any Helper.neverReturns := by
  simp [Walk.passes, h, ht, InstructionKind.endsFlow, Graph.isFinalCall, HelperTable.neverReturns]

theorem isFinalCall_of_call (h : s.isa.kind i = .call) {target : UInt64}
    (ht : i.target? = some target) : Graph.isFinalCall s.helpers (s.isa.kind i) i =
      (s.helpers.helperAt? target).any Helper.neverReturns := by
  simp [h, ht, Graph.isFinalCall, HelperTable.neverReturns]

theorem adds_stepCall (h : s.isa.kind i = .call) : s.Adds i (s.stepCall fresh m i).effects := by
  unfold stepCall
  have hd : (s.isa.kind i).isDirectBranch = false := by rw [h]; rfl
  split
  · exact .unmodeled
  · rename_i target ht
    have hpass := passes_of_call h ht
    have hfinal := isFinalCall_of_call h ht
    split
    · rename_i helper hhelper
      rw [hhelper] at hpass hfinal
      cases helper with
      | raiseException => exact .throw hfinal
      | raiseIndexOutOfRange | raiseNullReference => exact .throwNew hfinal
      | initializeMethod | runtimeClassInit | objectNew | arrayNew =>
        exact (plain_stepHelper rfl).adds_of_passes hpass hd
    · rename_i hhelper
      rw [hhelper] at hpass
      obtain ⟨call, hcall, hstraight, hfits⟩ := exists_managedCall s fresh m target
      rw [hcall]
      exact .single hpass hd hstraight hfits

/-! ## The step -/

/-- There are no other ways in which a step adds effects. -/
theorem adds_step : s.Adds i (s.step ls fresh m i).effects := by
  unfold step
  cases h : s.isa.kind i with
  | nop | compare | test | push => exact Plain.silent.adds h rfl (by simp)
  | move => exact plain_stepMove.adds h rfl (by simp)
  | load => exact plain_stepLoad.adds h rfl (by simp)
  | store => exact plain_stepStore.adds h rfl (by simp)
  | loadAddress => exact plain_stepLoadAddress.adds h rfl (by simp)
  | arithmetic op => exact (plain_stepArithmetic op).adds h rfl (by simp)
  | pop => exact plain_stepPop.adds h rfl (by simp)
  | trap => exact .silent (.inl h) (by rw [h]; rfl)
  | conditionalJump c => exact adds_branchEffect (by rw [h]; rfl) c _
  | compareZeroAndBranch c => exact adds_branchEffect (by rw [h]; rfl) c _
  | jump => exact adds_stepJump h
  | call => exact adds_stepCall h
  | ret =>
    obtain ⟨value, hret, hvalue⟩ := exists_returnEffect s m
    simp only [hret]
    exact .ret h hvalue
  | indirectJump | indirectCall | invalid | unknown => exact .unmodeled

end Setting

end MethodLift
