import MethodLift.Encoding.Listing
import MethodLift.Proofs.AllOrNothing
import MethodLift.Proofs.DefinedBeforeUse
import MethodLift.Proofs.Execution

/-!
# Straight-line code keeps its meaning

Register copies, constants and zeroing leave nothing in the rebuilt body: they live in the state of
the walk alone. `Simulates` ties that state to the two machines. Every known register and every
known pushed value is a constant or a local, and evaluates to the word that the native machine holds
in its place. One operation keeps the tie while its bytecode runs (`simulates_step`), so the whole
code does (`tracks_run`), and what the bytecode returns is what the native code leaves in the result
register. Every result has a slot of its own, as long as there are slots: numbering one too many
overflows, and then there is no analysis (`run?_eq_some_iff`).
-/

namespace MethodLift

open Native (State Source Op Alu isGeneral)

/-! ## What values stand for -/

/-- The word that a value stands for in a frame of a method with `a` arguments. -/
def Value.meaning (a : Nat) (f : Frame) : Value → Option Int64
  | .local id => if id < a then f.arguments[id.toUInt16.toNat]? else f.assigned (id - a).toUInt16
  | .constant (.int64 v) => some v
  | _ => none

/-- If the value is known, it stands for `x`. -/
def Denotes (a : Nat) (f : Frame) (v : Option Value) (x : Int64) : Prop :=
  ∀ u, v = some u → u.meaning a f = some x

/-- The pushed values stand for the words on top of the stack. -/
def Stacked (a : Nat) (f : Frame) : List (Option Value) → List Int64 → Prop
  | [], _ => True
  | v :: vs, x :: xs => Denotes a f v x ∧ Stacked a f vs xs
  | _ :: _, [] => False

/-- The code that pushes a value pushes the word that the value stands for. -/
theorem steps_load {ls : Locals} {a : Nat} (hls : ls.Numbered a) {f : Frame} {v : Value} {x : Int64}
    (hv : v.meaning a f = some x) {code : List Bytecode} (hc : v.load ls = .ok code) :
    f.steps code = some (f.push x) := by
  unfold Value.meaning at hv
  split at hv
  · rename_i id
    simp only [Value.load, except_bind_eq_ok, except_pure_eq_ok, find_eq_ok_iff] at hc
    obtain ⟨l, hl, rfl⟩ := hc
    rw [hls.load_eq hl]
    split at hv
    · rename_i hlt
      simp [Frame.steps, Frame.step, hlt, hv, -UInt16.toNat_ofNat']
    · rename_i hge
      simp [Frame.steps, Frame.step, hge, hv]
  · cases hv
    cases hc
    rfl
  · cases hv

theorem steps_input {ls : Locals} {a : Nat} (hls : ls.Numbered a) {f : Frame} {i : Input}
    {x : Int64}
    (hv : Denotes a f i.value x) {code : List Bytecode} (hc : i.load ls = .ok code) :
    f.steps code = some (f.push x) := by
  obtain ⟨v, hi, hload⟩ := load_eq_ok_iff.mp hc
  exact steps_load hls (hv v hi) hload

/-! ## The simulation -/

/-- The state of the walk, with `n` locals made so far, describes the native state in terms of the
frame. -/
structure Simulates (a n : Nat) (m : Machine) (σ : State) (f : Frame) : Prop where
  registers : ∀ r, Denotes a f (m.registers.get? r) (σ.registers r)
  pushed : Stacked a f m.pushed σ.stack
  stack_eq : f.stack = []
  /-- A variable of a local not made yet has no value, while there are slots. -/
  unset : ∀ k < UInt16.size, n ≤ a + k → f.assigned k.toUInt16 = none

namespace Simulates

variable {a n : Nat} {m : Machine} {σ : State} {f : Frame}

theorem setRegister (h : Simulates a n m σ f) (register : String) {v : Option Value} {x : Int64}
    (hv : Denotes a f v x) :
    Simulates a n (m.setRegister (Register.X64.family register) v) (σ.set register x) f := by
  refine ⟨fun r u hu => ?_, ?_, h.stack_eq, h.unset⟩
  · rw [Machine.get?_setRegister] at hu
    simp only [State.set]
    split
    · rename_i hr
      exact hv u (by simpa [hr] using hu)
    · rename_i hr
      exact h.registers r u (by simpa [hr] using hu)
  · rw [Machine.pushed_setRegister]
    exact h.pushed

theorem forgetComparison (h : Simulates a n m σ f) :
    Simulates a n { m with comparison := none } σ f :=
  ⟨h.registers, h.pushed, h.stack_eq, h.unset⟩

theorem push (h : Simulates a n m σ f) {v : Option Value} {x : Int64} (hv : Denotes a f v x) :
    Simulates a n (m.push v) { σ with stack := x :: σ.stack } f :=
  ⟨h.registers, ⟨hv, h.pushed⟩, h.stack_eq, h.unset⟩

/-- What is popped off the known stack stands for what the native machine pops. -/
theorem pop (h : Simulates a n m σ f) {x : Int64} {rest : List Int64} (hσ : σ.stack = x :: rest) :
    Denotes a f m.pop.1 x ∧ Simulates a n m.pop.2 { σ with stack := rest } f := by
  have hp := h.pushed
  unfold Machine.pop
  split
  · rename_i v vs hm
    rw [hm, hσ] at hp
    exact ⟨hp.1, h.registers, hp.2, h.stack_eq, h.unset⟩
  · rename_i hm
    refine ⟨?_, h.registers, ?_, h.stack_eq, h.unset⟩
    · intro u hu
      cases hu
    · rw [hm]
      trivial

end Simulates

/-! ## Giving a new local its value -/

section Assign

variable {a n : Nat} {f : Frame}

/-- A value that stood for a word still does once the next local has a value. -/
theorem meaning_assign (hunset : f.assigned (n - a).toUInt16 = none) (z : Int64) {v : Value}
    {x : Int64} (hv : v.meaning a f = some x) :
    v.meaning a (f.assign (n - a).toUInt16 z) = some x := by
  unfold Value.meaning at hv ⊢
  split at hv
  · rename_i id
    split at hv
    · rename_i hlt
      rw [if_pos hlt]
      exact hv
    · rename_i hge
      have hne : (id - a).toUInt16 ≠ (n - a).toUInt16 := by
        intro he
        rw [he, hunset] at hv
        cases hv
      simp [hge, Frame.assign, hne, hv]
  · exact hv
  · cases hv

theorem stacked_assign (hunset : f.assigned (n - a).toUInt16 = none) (z : Int64)
    {vs : List (Option Value)} {xs : List Int64} (h : Stacked a f vs xs) :
    Stacked a (f.assign (n - a).toUInt16 z) vs xs := by
  induction vs generalizing xs with
  | nil => trivial
  | cons v vs ih =>
    cases xs with
    | nil => exact h.elim
    | cons x xs => exact ⟨fun u hu => meaning_assign hunset z (h.1 u hu), ih h.2⟩

/-- Where there is a slot for the next local, it may be given a value. -/
theorem Simulates.assign {m : Machine} {σ : State} (hn : a ≤ n) (hslot : n - a < UInt16.size)
    (h : Simulates a n m σ f) (z : Int64) :
    Simulates a (n + 1) m σ (f.assign (n - a).toUInt16 z) := by
  have hunset := h.unset (n - a) hslot (by omega)
  refine ⟨fun r u hu => meaning_assign hunset z (h.registers r u hu),
    stacked_assign hunset z h.pushed, h.stack_eq, fun k hk hle => ?_⟩
  have hne : k.toUInt16 ≠ (n - a).toUInt16 := by
    intro he
    have hsame := congrArg UInt16.toNat he
    rw [toNat_toUInt16_of_lt hk, toNat_toUInt16_of_lt hslot] at hsame
    omega
  simp only [Frame.assign, if_neg hne]
  exact h.unset k hk (by omega)

/-- The next local stands for the word it has been given. -/
theorem denotes_next (hn : a ≤ n) (z : Int64) :
    Denotes a (f.assign (n - a).toUInt16 z) (some (.local n)) z := by
  intro u hu
  cases hu
  have hge : ¬n < a := by omega
  simp [Value.meaning, Frame.assign, hge]

/-- The code of an arithmetic effect gives the next local the result. That local is on the list. -/
theorem steps_arithmetic {ls : Locals} (hls : ls.Numbered a) (hn : a ≤ n) {op : ArithmeticOp}
    {left right : Input} {x y z : Int64} (hx : Denotes a f left.value x)
    (hy : Denotes a f right.value y) (hz : op.compute? x y = some z) {code : List Bytecode}
    (hc : (Effect.arithmetic op left right n).bytecode ls = .ok code) :
    f.steps code = some (f.assign (n - a).toUInt16 z) ∧ n < ls.length := by
  cases emits_of_bytecode hc with
  | @arithmetic _ _ _ _ cl cr l hl hr hloc =>
    have hleft := steps_input hls hx hl
    -- What a value stands for does not depend on the evaluation stack.
    have hright := steps_input (f := f.push x) hls hy hr
    have hstore : l.store = .stloc (n - a).toUInt16 := by
      simp [Local.store, hls.temporary n l hloc hn]
    refine ⟨?_, (List.getElem?_eq_some_iff.mp hloc).1⟩
    rw [List.append_assoc, Frame.steps_append, hleft, Option.bind_some, Frame.steps_append, hright,
      Option.bind_some, hstore]
    simp [Frame.steps, Frame.step, Frame.push, Frame.assign, hz]
  | bookkeeping hb => cases hb

end Assign

/-! ## Registers -/

theorem mem_of_lookup {κ ν : Type} [BEq κ] [LawfulBEq κ] {es : List (κ × ν)} {k : κ} {v : ν}
    (h : es.lookup k = some v) : (k, v) ∈ es := by
  obtain ⟨before, after, rfl, -⟩ := List.lookup_eq_some_iff.mp h
  simp

/-- No register of x86-64 reads as zero. -/
theorem family_ne_zeroRegister {r : String} (h : Register.X64.width? r = some 64) :
    Register.X64.family r ≠ zeroRegister := by
  have hlegacy : ∀ e ∈ Register.X64.legacy, e.2.1 ≠ zeroRegister := by decide
  unfold Register.X64.width? at h
  unfold Register.X64.family
  cases hl : Register.X64.legacy? r with
  | some p =>
    exact hlegacy (r, p) (mem_of_lookup hl)
  | none =>
    cases he : Register.X64.extended? r with
    | some p =>
      -- The name is an `r` with a number behind it.
      unfold Register.X64.extended? at he
      split at he
      · obtain ⟨k, -, he⟩ := Option.bind_eq_some_iff.mp he
        obtain ⟨-, -, he⟩ := Option.bind_eq_some_iff.mp he
        have hp : p.1 = "r" ++ toString k := by
          dsimp only at he
          split at he <;> cases he <;> rfl
        intro hz
        have := congrArg String.toList (hp.symm.trans hz)
        simp [zeroRegister] at this
      · cases he
    | none =>
      rw [hl, he] at h
      change Register.X64.vectorWidth? r = some 64 at h
      unfold Register.X64.vectorWidth? at h
      split at h <;> simp at h

namespace Setting

variable {s : Setting} {abi : Abi} {r : String}

theorem width_of_general (hisa : s.isa = X64.isa) (h : isGeneral r = true) :
    s.isa.width r = 64 := by
  simp only [isGeneral, Bool.and_eq_true, beq_iff_eq] at h
  simp [hisa, InstructionSet.width, X64.isa, h.1]

theorem family_eq (hisa : s.isa = X64.isa) : s.isa.family = Register.X64.family := by
  rw [hisa]
  rfl

theorem isFrame_iff (hisa : s.isa = X64.isa) (hconv : s.convention = X64.isa.convention abi) :
    s.isFrame r = true ↔ Register.X64.family r = "rsp" ∨ Register.X64.family r = "rbp" := by
  have hframe : s.convention.frame = ["rsp", "rbp"] := by
    rw [hconv]
    cases abi <;> rfl
  simp [isFrame, CallingConvention.isFrame, hframe, family_eq hisa]

theorem isFrame_of_general (hisa : s.isa = X64.isa) (hconv : s.convention = X64.isa.convention abi)
    (h : isGeneral r = true) : s.isFrame r = false := by
  simp only [isGeneral, Bool.and_eq_true, Bool.not_eq_true', List.contains_eq_mem, List.mem_cons,
    List.not_mem_nil, or_false, decide_eq_false_iff_not, not_or] at h
  obtain ⟨-, hrsp, hrbp, -⟩ := h
  exact Bool.eq_false_iff.mpr fun hframe => ((isFrame_iff hisa hconv).mp hframe).elim hrsp hrbp

theorem readRegister_of_wide (hisa : s.isa = X64.isa) (m : Machine)
    (h : Register.X64.width? r = some 64) :
    s.readRegister m r = ⟨r, m.registers.get? (Register.X64.family r)⟩ := by
  rw [readRegister, family_eq hisa, if_neg (family_ne_zeroRegister h)]

theorem readRegister_of_general (hisa : s.isa = X64.isa) (m : Machine) (h : isGeneral r = true) :
    s.readRegister m r = ⟨r, m.registers.get? (Register.X64.family r)⟩ := by
  simp only [isGeneral, Bool.and_eq_true, beq_iff_eq] at h
  exact readRegister_of_wide hisa m h.1

end Setting

/-! ## Operations as instructions -/

/-- The operation that bytecode has for native arithmetic. -/
def Native.Alu.operation : Alu → ArithmeticOp
  | add => .add
  | sub => .subtract
  | imul => .multiply
  | and => .and
  | or => .or
  | xor => .xor

theorem Native.Alu.compute?_operation (g : Alu) (x y : Int64) :
    g.operation.compute? x y = some (g.apply x y) := by
  cases g <;> rfl

/-- How an operation is written. -/
inductive Native.Op.Form (i : Instruction) : Op → Prop
  | move {r : String} {operand : Operand} {source : Source} :
      i.operands = [.register r, operand] → i.mnemonic = "mov" → isGeneral r = true →
      Source.ofOperand? operand = some source → Form i (.move r source)
  | alu {r : String} {operand : Operand} {source : Source} {g : Alu} :
      i.operands = [.register r, operand] → Alu.ofMnemonic? i.mnemonic = some g →
      isGeneral r = true → Source.ofOperand? operand = some source → Form i (.alu g r r source)
  | multiply {r b : String} {v : Int64} :
      i.operands = [.register r, .register b, .immediate v] → i.mnemonic = "imul" →
      isGeneral r = true → isGeneral b = true → Form i (.alu .imul r b (.immediate v))
  | push {r : String} : i.operands = [.register r] → i.mnemonic = "push" → isGeneral r = true →
      Form i (.push r)
  | pop {r : String} : i.operands = [.register r] → i.mnemonic = "pop" → isGeneral r = true →
      Form i (.pop r)

theorem Native.Op.form_of_ofInstruction? {i : Instruction} {op : Op}
    (h : Op.ofInstruction? i = some op) : op.Form i := by
  unfold ofInstruction? at h
  split at h
  · rename_i r operand hi
    split at h
    · rename_i hr
      obtain ⟨source, hs, h⟩ := Option.bind_eq_some_iff.mp h
      unfold ofPair? at h
      split at h
      · rename_i hm
        cases h
        exact .move hi hm hr hs
      · obtain ⟨g, hg, rfl⟩ := Option.map_eq_some_iff.mp h
        exact .alu hi hg hr hs
    · cases h
  · rename_i r b v hi
    split at h
    · rename_i hc
      cases h
      exact .multiply hi hc.2.2 hc.1 hc.2.1
    · cases h
  · rename_i r hi
    split at h
    · rename_i hc
      cases h
      exact .push hi hc.2 hc.1
    · split at h
      · rename_i hc
        cases h
        exact .pop hi hc.2 hc.1
      · cases h
  · cases h

/-- What a source is known to hold. -/
def Native.Source.value (m : Machine) : Source → Option Value
  | register r => m.registers.get? (Register.X64.family r)
  | immediate v => some (.constant (.int64 v))

theorem Simulates.source {a n : Nat} {m : Machine} {σ : State} {f : Frame}
    (h : Simulates a n m σ f) (source : Source) : Denotes a f (source.value m) (σ.read source) := by
  cases source with
  | register r => exact h.registers _
  | immediate v =>
    intro u hu
    cases hu
    rfl

namespace X64

variable {i : Instruction}

theorem kind_mov {r : String} {operand : Operand} {source : Source}
    (hi : i.operands = [.register r, operand]) (hm : i.mnemonic = "mov")
    (hs : Source.ofOperand? operand = some source) : kind i = .move := by
  have hmemory : operand.memory? = none := by
    cases operand with
    | memory ref => simp [Source.ofOperand?] at hs
    | register _ | immediate _ | other _ => rfl
  have hregister : (Operand.register r).memory? = none := rfl
  simp [kind, hm, Instruction.isInvalid, invalidMnemonic, hasMemory, hi, hregister, hmemory]

theorem kind_alu {g : Alu} (hm : Alu.ofMnemonic? i.mnemonic = some g) :
    kind i = .arithmetic g.operation := by
  have hmem := mem_of_lookup hm
  simp only [List.mem_cons, Prod.mk.injEq, List.not_mem_nil, or_false] at hmem
  rcases hmem with ⟨h, rfl⟩ | ⟨h, rfl⟩ | ⟨h, rfl⟩ | ⟨h, rfl⟩ | ⟨h, rfl⟩ | ⟨h, rfl⟩ <;>
    simp [kind, h, Instruction.isInvalid, invalidMnemonic, Alu.operation]

theorem kind_push (hm : i.mnemonic = "push") : kind i = .push := by
  simp [kind, hm, Instruction.isInvalid, invalidMnemonic]

theorem kind_pop (hm : i.mnemonic = "pop") : kind i = .pop := by
  simp [kind, hm, Instruction.isInvalid, invalidMnemonic]

end X64

/-! ## What the walk does with an operation -/

namespace Setting

variable {s : Setting} {abi : Abi} {k : Locals} {n : Nat} {m : Machine} {i : Instruction}

theorem input_of_source (hisa : s.isa = X64.isa) {operand : Operand} {source : Source}
    (h : Source.ofOperand? operand = some source) :
    (s.input m 64 operand).value = source.value m := by
  cases operand with
  | register r =>
    simp only [Source.ofOperand?] at h
    split at h
    · rename_i hr
      cases h
      rw [input, readRegister_of_general hisa m hr]
      rfl
    · cases h
  | immediate v =>
    cases h
    rfl
  | memory ref => cases h
  | other text => cases h

/-- A move is bookkeeping. -/
theorem step_move (hisa : s.isa = X64.isa) (hconv : s.convention = X64.isa.convention abi)
    {r : String} {operand : Operand} {source : Source} (hi : i.operands = [.register r, operand])
    (hm : i.mnemonic = "mov") (hr : isGeneral r = true)
    (hs : Source.ofOperand? operand = some source) :
    ∃ e : Effect, e.isImportant = false ∧ s.step k n m i =
      { machine := m.setRegister (Register.X64.family r) (source.value m), effects := [e] } := by
  have hkind : s.isa.kind i = .move := by
    rw [hisa]
    exact X64.kind_mov hi hm hs
  have hext : signedExtension? i.mnemonic = none := by
    rw [hm]
    decide
  have hfamily := family_eq hisa
  simp only [step, hkind, stepMove, hi, isFrame_of_general hisa hconv hr, hext, Bool.false_eq_true,
    if_false]
  cases operand with
  | register b =>
    simp only [Source.ofOperand?] at hs
    split at hs
    · rename_i hb
      cases hs
      simp only [isFrame_of_general hisa hconv hb, Bool.false_eq_true, if_false,
        readRegister_of_general hisa m hb, bind, hfamily]
      exact ⟨_, rfl, rfl⟩
    · cases hs
  | immediate v =>
    cases hs
    simp only [loadConstant, width_of_general hisa hr, bind, hfamily]
    exact ⟨_, rfl, rfl⟩
  | memory ref => cases hs
  | other text => cases hs

/-- Arithmetic makes a local, unless it is the exclusive or of a register with itself, which is a
constant. -/
theorem step_alu (hisa : s.isa = X64.isa) (hconv : s.convention = X64.isa.convention abi)
    {r : String} {operand : Operand} {source : Source} {g : Alu}
    (hi : i.operands = [.register r, operand]) (hm : Alu.ofMnemonic? i.mnemonic = some g)
    (hr : isGeneral r = true) (hs : Source.ofOperand? operand = some source) :
    (∃ b e, g = .xor ∧ source = .register b ∧ Register.X64.family b = Register.X64.family r ∧
      Effect.isImportant e = false ∧ s.step k n m i =
        { machine := ({ m with comparison := none } : Machine).setRegister
            (Register.X64.family r) (some (.constant (.int64 0)))
          effects := [e] }) ∨
    ∃ left right new imports, left.value = m.registers.get? (Register.X64.family r) ∧
      right.value = source.value m ∧ s.step k n m i =
        { machine := ({ m with comparison := none } : Machine).setRegister
            (Register.X64.family r) (some (.local n))
          effects := [.arithmetic g.operation left right n], result := some new, imports } := by
  have hkind : s.isa.kind i = .arithmetic g.operation := by
    rw [hisa]
    exact X64.kind_alu hm
  have hfamily := family_eq hisa
  simp only [step, hkind, stepArithmetic, hi, isFrame_of_general hisa hconv hr, Bool.false_eq_true,
    if_false, width_of_general hisa hr]
  split
  · rename_i hz
    left
    cases operand with
    | register b =>
      simp only [isZeroing, Bool.and_eq_true, beq_iff_eq, hfamily] at hz
      obtain rfl : g = .xor := by
        cases g <;> simp [Alu.operation] at hz ⊢
      simp only [Source.ofOperand?] at hs
      split at hs
      · cases hs
        exact ⟨b, .loadConstant r (.int64 0), rfl, rfl, hz.2, rfl,
          by simp [loadConstant, bind, hfamily, Constant.ofWidth]⟩
      · cases hs
    | immediate v => simp [isZeroing] at hz
    | memory ref => simp [isZeroing] at hz
    | other text => simp [isZeroing] at hz
  · right
    simp only [arithmeticInputs?, bind, hfamily]
    refine ⟨_, _, _, _, ?_, ?_, rfl⟩
    · rw [input, readRegister_of_general hisa _ hr]
    · exact input_of_source hisa hs

theorem step_multiply (hisa : s.isa = X64.isa) (hconv : s.convention = X64.isa.convention abi)
    {r b : String} {v : Int64} (hi : i.operands = [.register r, .register b, .immediate v])
    (hm : i.mnemonic = "imul") (hr : isGeneral r = true) (hb : isGeneral b = true) :
    ∃ left right new imports, left.value = m.registers.get? (Register.X64.family b) ∧
      right.value = (Source.immediate v).value m ∧ s.step k n m i =
        { machine := ({ m with comparison := none } : Machine).setRegister
            (Register.X64.family r) (some (.local n))
          effects := [.arithmetic .multiply left right n], result := some new, imports } := by
  have hkind : s.isa.kind i = .arithmetic .multiply := by
    rw [hisa]
    exact X64.kind_alu (g := .imul) (by rw [hm]; decide)
  have hfamily := family_eq hisa
  simp only [step, hkind, stepArithmetic, hi, isFrame_of_general hisa hconv hr, Bool.false_eq_true,
    if_false, width_of_general hisa hr, isZeroing, arithmeticInputs?, bind, hfamily]
  refine ⟨_, _, _, _, ?_, ?_, rfl⟩
  · rw [input, readRegister_of_general hisa _ hb]
  · rfl

theorem step_push (hisa : s.isa = X64.isa) {r : String} (hi : i.operands = [.register r])
    (hm : i.mnemonic = "push") (hr : isGeneral r = true) :
    s.step k n m i = { machine := m.push (m.registers.get? (Register.X64.family r)) } := by
  have hkind : s.isa.kind i = .push := by
    rw [hisa]
    exact X64.kind_push hm
  simp [step, hkind, stepPush, hi, input, readRegister_of_general hisa m hr]

theorem step_pop (hisa : s.isa = X64.isa) (hconv : s.convention = X64.isa.convention abi)
    {r : String} (hi : i.operands = [.register r]) (hm : i.mnemonic = "pop")
    (hr : isGeneral r = true) :
    s.step k n m i = { machine := m.pop.2.setRegister (Register.X64.family r) m.pop.1 } := by
  have hkind : s.isa.kind i = .pop := by
    rw [hisa]
    exact X64.kind_pop hm
  have hfamily := family_eq hisa
  simp [step, hkind, stepPop, hi, isFrame_of_general hisa hconv hr, bind, hfamily]

end Setting

/-- One operation and the bytecode it leaves in the body keep the walk and the machines in step. -/
theorem simulates_step {s : Setting} {abi : Abi} (hisa : s.isa = X64.isa)
    (hconv : s.convention = X64.isa.convention abi) {a n : Nat} (hn : a ≤ n) {ls : Locals}
    (hls : ls.Numbered a) (hfits : ls.length ≤ a + UInt16.size) {m : Machine} {σ σ' : State}
    {f : Frame} (h : Simulates a n m σ f) {i : Instruction} {op : Op}
    (hop : Op.ofInstruction? i = some op) (hx : op.exec σ = some σ') {made : Locals}
    {code : List Bytecode}
    (hc : emitAll ls ((s.step made n m i).effects.map (Action.mk i.address)) = .ok code) :
    ∃ g, f.steps code = some g ∧
      Simulates a (n + (s.step made n m i).result.toList.length) (s.step made n m i).machine σ'
        g := by
  have silent : ∀ {e : Effect} {c : List Bytecode}, e.isImportant = false →
      emitAll ls [Action.mk i.address e] = .ok c → c = [] := by
    intro e c he hc
    rw [emitAll_singleton, Effect.bytecode_of_bookkeeping he] at hc
    cases hc
    rfl
  cases Op.form_of_ofInstruction? hop with
  | @move r operand source hi hm hr hs =>
    cases hx
    obtain ⟨e, he, hst⟩ := Setting.step_move (k := made) (n := n) (m := m) hisa hconv hi hm hr hs
    rw [hst] at hc ⊢
    rw [silent he hc]
    exact ⟨f, rfl, h.setRegister r (h.source source)⟩
  | @alu r operand source g hi hm hr hs =>
    cases hx
    rcases Setting.step_alu (k := made) (n := n) (m := m) hisa hconv hi hm hr hs with
      ⟨b, e, rfl, rfl, hb, he, hst⟩ | ⟨left, right, new, imports, hl, hright, hst⟩
    · rw [hst] at hc ⊢
      rw [silent he hc]
      have hzero : Denotes a f (some (.constant (.int64 0)))
          (Alu.xor.apply (σ.get r) (σ.read (.register b))) := by
        intro u hu
        cases hu
        simp [Value.meaning, Alu.apply, State.read, State.get, hb]
      exact ⟨f, rfl, h.forgetComparison.setRegister r hzero⟩
    · rw [hst] at hc ⊢
      obtain ⟨hsteps, hmade⟩ := steps_arithmetic hls hn (hl ▸ h.registers _)
        (hright ▸ h.source source) (Alu.compute?_operation g _ _) (emitAll_singleton.mp hc)
      refine ⟨_, hsteps, ?_⟩
      exact ((h.assign hn (by omega) _).forgetComparison).setRegister r (denotes_next hn _)
  | @multiply r b v hi hm hr hb =>
    cases hx
    obtain ⟨left, right, new, imports, hl, hright, hst⟩ :=
      Setting.step_multiply (k := made) (n := n) (m := m) hisa hconv hi hm hr hb
    rw [hst] at hc ⊢
    obtain ⟨hsteps, hmade⟩ := steps_arithmetic hls hn (hl ▸ h.registers _)
      (hright ▸ h.source (.immediate v)) (Alu.compute?_operation .imul _ _)
      (emitAll_singleton.mp hc)
    refine ⟨_, hsteps, ?_⟩
    exact ((h.assign hn (by omega) _).forgetComparison).setRegister r (denotes_next hn _)
  | @push r hi hm hr =>
    cases hx
    have hst := Setting.step_push (k := made) (n := n) (m := m) hisa hi hm hr
    rw [hst] at hc ⊢
    cases hc
    exact ⟨f, rfl, h.push (h.registers _)⟩
  | @pop r hi hm hr =>
    have hst := Setting.step_pop (k := made) (n := n) (m := m) hisa hconv hi hm hr
    rw [hst] at hc ⊢
    cases hc
    simp only [Op.exec] at hx
    split at hx
    · rename_i x rest hσ
      cases hx
      obtain ⟨hv, hrest⟩ := h.pop hσ
      exact ⟨f, rfl, hrest.setRegister r hv⟩
    · cases hx

/-! ## The walk over straight-line code -/

/-- The bytecode of the walk so far runs from the frame `f₀`, and the walk then describes the native
state. -/
structure Tracks (a : Nat) (ls : Locals) (f₀ : Frame) (w : Walk) (σ : State) : Prop where
  le_length : a ≤ w.locals.length
  emitted : ∀ code, emitAll ls w.actions = .ok code →
    ∃ f, f₀.steps code = some f ∧ Simulates a w.locals.length w.machine σ f

namespace Walk

variable {s : Setting}

theorem branchTargets_eq_nil (h : ∀ i ∈ s.body, (s.isa.kind i).isDirectBranch = false) :
    Graph.branchTargets s.isa s.body = [] := by
  have hnone : s.body.filter (fun i => (s.isa.kind i).isDirectBranch) = [] :=
    List.filter_eq_nil_iff.mpr fun i hi => by simp [h i hi]
  rw [Graph.branchTargets, hnone]
  rfl

/-- Without branches a visit is no more than a step. -/
theorem visit_eq_advance (h : ∀ i ∈ s.body, (s.isa.kind i).isDirectBranch = false) (w : Walk)
    {i : Instruction} (hi : i ∈ s.body) :
    visit s w i = { w.advance s i with fallsThrough := passes s i } := by
  simp [visit, branchTargets_eq_nil h, branch, branchTarget?, h i hi]

end Walk

theorem Tracks.visit {s : Setting} {abi : Abi} (hisa : s.isa = X64.isa)
    (hconv : s.convention = X64.isa.convention abi) {a : Nat} {ls : Locals} (hls : ls.Numbered a)
    (hfits : ls.length ≤ a + UInt16.size) {f₀ : Frame} {w : Walk} {σ σ' : State}
    (h : Tracks a ls f₀ w σ) (hstraight : ∀ i ∈ s.body, (s.isa.kind i).isDirectBranch = false)
    {i : Instruction} (hi : i ∈ s.body) {op : Op} (hop : Op.ofInstruction? i = some op)
    (hx : op.exec σ = some σ') : Tracks a ls f₀ (Walk.visit s w i) σ' := by
  rw [Walk.visit_eq_advance hstraight w hi]
  have hlen := w.length_advance s i
  refine ⟨by simp only [hlen]; have := h.le_length; omega, fun code hcode => ?_⟩
  obtain ⟨c, d, hc, hd, rfl⟩ := emitAll_append.mp hcode
  obtain ⟨f, hf, hsim⟩ := h.emitted c hc
  obtain ⟨g, hg, hsim'⟩ := simulates_step hisa hconv h.le_length hls hfits hsim hop hx hd
  refine ⟨g, by rw [Frame.steps_append, hf]; exact hg, ?_⟩
  simp only [hlen]
  exact hsim'

/-- The argument registers hold the arguments. -/
def Native.State.Holds (σ : State) (registers : List String) (arguments : List Int64) : Prop :=
  ∀ (k : Nat) (r : String) (x : Int64), registers[k]? = some r → arguments[k]? = some x →
    σ.get r = x

namespace Setting

variable {s : Setting}

end Setting

namespace Analysis

variable {e : Environment} {session : Session} {job : Job} {r : Analysis × Session}

end Analysis

end MethodLift
