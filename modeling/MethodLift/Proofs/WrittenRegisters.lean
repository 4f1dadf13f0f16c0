import MethodLift.Proofs.Replay

/-!
# The registers that a memory access writes

On AArch64 a load writes the registers it loads, and a load or a store whose address is indexed
before or after the access writes its base register as well. `Written` says so from the text of the
instruction.

The walk knows of one such register: the destination of a load of a single register. Every other
register keeps what was known of it (`registers_step`). So after an access that the walk does not
give up on, a register that it wrote is known for what it was before, unless nothing was known or it
is that destination (`renewed_iff`): the base of an indexed access and the registers of a pair that
is loaded from the stack are left behind.
-/

namespace MethodLift

/-- The effect of an instruction that is given up on. -/
def Effect.isUnmodeled : Effect → Bool
  | .unmodeled _ _ => true
  | _ => false

namespace A64

open MethodLift.Text

variable {i : Instruction}

/-- The mnemonic is that of a load. -/
def isLoad (i : Instruction) : Bool := (after? ['l', 'd'] i.mnemonic.toList).isSome

/-- The mnemonic is that of a store. -/
def isStore (i : Instruction) : Bool := (after? ['s', 't'] i.mnemonic.toList).isSome

/-- The registers that are loaded stand before the address. -/
def loadedRegisters (i : Instruction) : List String :=
  if isLoad i then (i.operands.takeWhile fun op => op.memory?.isNone).filterMap Operand.register?
  else []

/-- The base register of an access that is indexed before it, as in `[x0, #8]!`, or after it, as in
`[x0], #8`. -/
def writeBack? (i : Instruction) : Option String :=
  match i.operands.dropWhile fun op => op.memory?.isNone with
  | .memory ref :: rest =>
    if (trimEnd i.operandText.toList).getLast? = some '!' ∨
        (rest.head?.bind Operand.immediate?).isSome then
      ref.base
    else none
  | _ => none

theorem operands_of_loadsMemory (h : loadsMemory i = true) :
    ∃ first ref rest, i.operands = first :: .memory ref :: rest := by
  unfold loadsMemory at h
  match hi : i.operands with
  | [] | [_] | _ :: .register _ :: _ | _ :: .immediate _ :: _ | _ :: .other _ :: _ =>
    simp [hi, Operand.memory?] at h
  | first :: .memory ref :: rest => exact ⟨first, ref, rest, rfl⟩

/-- A memory access is a load or a store of one register, a pair off the stack, or unknown. -/
theorem kind_access (h : (isLoad i || isStore i) = true) :
    kind i = .load ∧ loadsMemory i = true ∨ kind i = .store ∨ kind i = .nop ∨
      kind i = .unknown := by
  have hother : ∀ mnemonic, i.mnemonic = mnemonic →
      ((after? ['l', 'd'] mnemonic.toList).isSome || (after? ['s', 't'] mnemonic.toList).isSome) =
        true := by
    rintro mnemonic rfl
    exact h
  unfold kind
  split
  next hinvalid => exact absurd (hother _ (eq_of_beq hinvalid)) (by decide)
  next =>
    split
    next suffix hsuffix =>
      rw [isLoad, isStore, after?_eq_some_iff.mp hsuffix] at h
      simp [after?] at h
    next =>
      split
      all_goals first
        | exact absurd (hother _ ‹_›) (by decide)
        | split <;> simp [*]
        | simp

end A64

namespace Setting

variable (s : Setting) (ls : Locals) (fresh : Nat) (m : Machine) (i : Instruction)

/-- The instruction writes the register: it loads it, or moves it along as the base of an indexed
access. Stack and frame pointers do move, but are not followed. -/
def Written (r : String) : Prop :=
  r ∈ A64.loadedRegisters i ∨ A64.writeBack? i = some r ∧ s.isFrame r = false

/-- The full register that a load of a single register gives a new value. -/
def destination? : Option String :=
  match s.isa.kind i, i.operands with
  | .load, .register r :: _ => if s.isFrame r then none else some (s.isa.family r)
  | _, _ => none

/-- The value that is known to stand where the instruction reads. -/
def brought : Option Value :=
  (i.operands.findSome? Operand.memory?).bind fun ref =>
    readAt (fun slot => m.stack.get? slot) (s.loaded ls fresh) (s.place m i ref)

/-- What is known of a register after the instruction. -/
def known (r : String) : Option Value :=
  (s.step ls fresh m i).machine.registers.get? (s.isa.family r)

/-- After the instruction nothing is known of the register, or what this very instruction brought to
it. -/
def Renewed (r : String) : Prop :=
  s.known ls fresh m i r = none ∨
    s.destination? i = some (s.isa.family r) ∧ s.known ls fresh m i r = s.brought ls fresh m i

variable {s ls fresh m i}

theorem registers_stepStore : (s.stepStore ls m i).machine.registers = m.registers := by
  unfold stepStore
  split
  next => rfl
  next =>
    split
    next => exact Machine.registers_setSlot m _ _
    all_goals rfl

theorem registers_stepLoad (hkind : s.isa.kind i = .load)
    (hmodeled : ∀ e ∈ (s.stepLoad ls fresh m i).effects, e.isUnmodeled = false)
    (q : String) : (s.stepLoad ls fresh m i).machine.registers.get? q =
      if s.destination? i = some q then s.brought ls fresh m i else m.registers.get? q := by
  unfold stepLoad at hmodeled ⊢
  split at hmodeled
  next d sources hi =>
    have hbrought : s.brought ls fresh m i = (sources.findSome? Operand.memory?).bind fun ref =>
        readAt (fun slot => m.stack.get? slot) (s.loaded ls fresh) (s.place m i ref) := by
      rw [brought, hi]
      rfl
    simp only [destination?, hkind, hi, hbrought]
    split at hmodeled
    next ref href =>
      cases hframe : s.isFrame d with
      | true => simp
      | false =>
        simp [href, machine_loadFrom, bind, Machine.get?_setRegister, eq_comm]
    next => cases hmodeled _ (List.mem_singleton_self _)
  next => cases hmodeled _ (List.mem_singleton_self _)

/-- An access to memory that is not given up on changes the destination of a load and no other
register. -/
theorem registers_step (hisa : s.isa = A64.isa) (haccess : (A64.isLoad i || A64.isStore i) = true)
    (hmodeled : ∀ e ∈ (s.step ls fresh m i).effects, e.isUnmodeled = false)
    (q : String) : (s.step ls fresh m i).machine.registers.get? q =
      if s.destination? i = some q then s.brought ls fresh m i else m.registers.get? q := by
  have hkinds := A64.kind_access haccess
  have hkind : s.isa.kind i = A64.kind i := by rw [hisa]; rfl
  rw [← hkind] at hkinds
  unfold step at hmodeled ⊢
  rcases hkinds with ⟨hk, -⟩ | hk | hk | hk
  · simp only [hk] at hmodeled ⊢
    exact registers_stepLoad hk hmodeled q
  · have hnone : s.destination? i = none := by simp [destination?, hk]
    simp only [hk, hnone, registers_stepStore]
    rfl
  · have hnone : s.destination? i = none := by simp [destination?, hk]
    simp only [hk, hnone]
    rfl
  · simp only [hk] at hmodeled
    cases hmodeled _ (List.mem_singleton_self _)

/-- The register that stands before the address of a single load is its destination. -/
theorem destination?_of_mem_loadedRegisters (hisa : s.isa = A64.isa)
    (haccess : (A64.isLoad i || A64.isStore i) = true) (hkind : s.isa.kind i = .load) {r : String}
    (hr : r ∈ A64.loadedRegisters i) (hframe : s.isFrame r = false) :
    s.destination? i = some (s.isa.family r) := by
  have hload : A64.kind i = .load := by
    rw [← hkind, hisa]
    rfl
  have hmemory : A64.loadsMemory i = true := by
    rcases A64.kind_access haccess with ⟨-, h⟩ | h | h | h
    · exact h
    all_goals cases hload.symm.trans h
  obtain ⟨first, ref, rest, hi⟩ := A64.operands_of_loadsMemory hmemory
  unfold A64.loadedRegisters at hr
  split at hr
  next =>
    rw [hi] at hr
    cases first with
    | register d =>
      obtain rfl : r = d := by simpa [Operand.memory?, Operand.register?] using hr
      simp [destination?, hkind, hi, hframe]
    | immediate _ | memory _ | other _ => simp [Operand.memory?, Operand.register?] at hr
  next => cases hr

/-- After a memory access that is not given up on, the destination of a single load is known for
what the load brought, and every other register for what it was. So a register that the access wrote
is renewed if and only if nothing was known of it or it is that destination. A single load that does
not index its base and loads no frame register renews what it writes. -/
theorem renewed_iff (s : Setting) (hisa : s.isa = A64.isa) (ls : Locals) (fresh : Nat) (m : Machine)
    (i : Instruction) (haccess : (A64.isLoad i || A64.isStore i) = true)
    (hmodeled : ∀ e ∈ (s.step ls fresh m i).effects, e.isUnmodeled = false) :
    (∀ r, s.known ls fresh m i r = if s.destination? i = some (s.isa.family r) then
      s.brought ls fresh m i else m.registers.get? (s.isa.family r)) ∧
    (∀ r, s.Written i r → (s.Renewed ls fresh m i r ↔
      m.registers.get? (s.isa.family r) = none ∨ s.destination? i = some (s.isa.family r))) ∧
    (s.isa.kind i = .load → A64.writeBack? i = none →
      (∀ r ∈ A64.loadedRegisters i, s.isFrame r = false) →
      ∀ r, s.Written i r → s.Renewed ls fresh m i r) := by
  have hknown : ∀ r, s.known ls fresh m i r = if s.destination? i = some (s.isa.family r) then
      s.brought ls fresh m i else m.registers.get? (s.isa.family r) := fun r =>
    registers_step hisa haccess hmodeled (s.isa.family r)
  have hrenewed : ∀ r, s.Renewed ls fresh m i r ↔
      m.registers.get? (s.isa.family r) = none ∨ s.destination? i = some (s.isa.family r) := by
    intro r
    by_cases hdestination : s.destination? i = some (s.isa.family r)
    · simp [Renewed, hknown, hdestination]
    · simp [Renewed, hknown, hdestination]
  refine ⟨hknown, fun r _ => hrenewed r, fun hload hback hframe r hr => ?_⟩
  rcases hr with hr | ⟨hr, -⟩
  · exact (hrenewed r).mpr
      (.inr (destination?_of_mem_loadedRegisters hisa haccess hload hr (hframe r hr)))
  · cases hback.symm.trans hr

end Setting

/-- `int Next(int s)` of a type with the fields `score` at offset 16 and `health` at offset 32: the
score is set, `this` is moved to it, and what stands 16 bytes further is returned. -/
def advancingRows : List ListingRow :=
  [⟨0x1000, 4, "str", "w1, [x0, #0x10]!"⟩, ⟨0x1004, 4, "ldr", "w0, [x0, #0x10]"⟩,
   ⟨0x1008, 4, "ret", ""⟩]

def advancingEnvironment : Environment where
  backend := .a64 (.ofListing .a64 advancingRows)
  image := .raw .a64 0x1000 (Array.replicate 12 0x90)
  table :=
    ⟨[playerType],
      (∅ : FinMap TypeId (List Field)).insert playerType.id
        [⟨"score", .definition (TypeTable.supplied .int32), 16, false⟩,
         ⟨"health", .definition (TypeTable.supplied .int32), 32, false⟩]⟩
  options := { boundary := .recursive }

def advancingJob : Job where
  address := 0x1000
  method :=
    { token := 0, name := "Next", owner := playerType
      returnType := .definition (TypeTable.supplied .int32)
      parameters := [⟨"s", .definition (TypeTable.supplied .int32)⟩] }

/-- The store moves `x0`, and a pair that is taken off the stack replaces it; both times `x0` still
counts as `this`. The body with the store is emitted. -/
theorem renewed_iff_advancing :
    let s := Analysis.walked advancingEnvironment {} advancingJob
    let store := Instruction.ofText 0x1000 [0x90, 0x90, 0x90, 0x90] "str" "w1, [x0, #0x10]!"
    let pair := Instruction.ofText 0x1000 [0x90, 0x90, 0x90, 0x90] "ldp" "x0, x1, [sp], #0x10"
    let m := s.entryMachine
    s.body[0]? = some store ∧
    (Analysis.run advancingEnvironment {} advancingJob).1.state = .emittable ∧
    m.registers.get? "x0" = some (.local 0) ∧
    (s.Written store "x0" ∧ s.known s.entryLocals 2 m store "x0" = some (.local 0) ∧
      ¬ s.Renewed s.entryLocals 2 m store "x0") ∧
    (s.Written pair "x0" ∧ s.known s.entryLocals 2 m pair "x0" = some (.local 0) ∧
      ¬ s.Renewed s.entryLocals 2 m pair "x0") := by
  intro s store pair m
  have hm : m.registers.get? "x0" = some (.local 0) := by decide +kernel
  have hstore := s.renewed_iff rfl s.entryLocals 2 m store (by decide +kernel) (by decide +kernel)
  have hpair := s.renewed_iff rfl s.entryLocals 2 m pair (by decide +kernel) (by decide +kernel)
  have hwritten : s.Written store "x0" := .inr (by decide +kernel)
  have hloaded : s.Written pair "x0" := .inl (by decide +kernel)
  refine ⟨by decide +kernel, by decide +kernel, hm, ⟨hwritten, ?_, ?_⟩, hloaded, ?_, ?_⟩
  · exact (hstore.1 "x0").trans (by decide +kernel)
  · exact mt (hstore.2.1 "x0" hwritten).mp (by decide +kernel)
  · exact (hpair.1 "x0").trans (by decide +kernel)
  · exact mt (hpair.2.1 "x0" hloaded).mp (by decide +kernel)

end MethodLift
