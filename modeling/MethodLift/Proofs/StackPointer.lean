import MethodLift.Proofs.Replay
import MethodLift.Proofs.StraightLine

/-!
# Stack slots and the stack pointer

The walk keeps a spilled value under the displacement it was written at and pushed values in a list
of their own, and lets the moves of the stack pointer pass. The processor has one memory, and where
an access goes depends on every move before it.

`Tally` counts both ways side by side, without values. For the processor: the pointer, and which
operation wrote last to each address. For the walk: which operation spilled last at each
displacement, and the pushes that are not popped. A restore or a pop `loads` from the one operation
and the walk `recalls` the other. The walk is right about what it knows if and only if the two wrote
the same (`loadsLastWritten_iff`). That is so in code that only spills and restores, and in code
that only pushes and pops; where the two are mixed, or the pointer moves in between, it need not be.
-/

namespace MethodLift.Native

/-! ## Operations on the stack -/

/-- A 64-bit register other than the stack pointer and the instruction pointer. -/
def isWord (register : String) : Bool :=
  Register.X64.width? register == some 64 &&
    !(["rsp", "rip"].contains (Register.X64.family register))

/-- Eight byte accesses off the stack pointer, and its moves. -/
inductive StackOp where
  | spill (displacement : Int64) (source : String)
  | restore (target : String) (displacement : Int64)
  | push (source : String)
  | pop (target : String)
  | lower (amount : Int64)
  | raise (amount : Int64)
  deriving DecidableEq, Repr

namespace StackOp

/-- The displacement of a reference to eight bytes at `[rsp + d]`, for a multiple of eight. -/
def slot? (ref : Memory) : Option Int64 :=
  if ref.base = some "rsp" ∧ ref.index = none ∧ ref.segment = none ∧ ref.size = some 8 ∧
      ref.displacement % 8 = 0 then
    some ref.displacement
  else none

def ofInstruction? (i : Instruction) : Option StackOp :=
  match i.operands with
  | [.memory ref, .register r] =>
    if i.mnemonic = "mov" ∧ isWord r then (slot? ref).map (spill · r) else none
  | [.register r, .memory ref] =>
    if i.mnemonic = "mov" ∧ isWord r then (slot? ref).map (restore r) else none
  | [.register r, .immediate n] =>
    if r = "rsp" ∧ n % 8 = 0 then
      if i.mnemonic = "sub" then some (lower n)
      else if i.mnemonic = "add" then some (raise n)
      else none
    else none
  | [.register r] =>
    if isWord r ∧ i.mnemonic = "push" then some (push r)
    else if isWord r ∧ i.mnemonic = "pop" then some (pop r)
    else none
  | _ => none

/-- The register whose content is written. -/
def source? : StackOp → Option String
  | spill _ r | push r => some r
  | _ => none

/-- The register that is loaded. -/
def target? : StackOp → Option String
  | restore r _ | pop r => some r
  | _ => none

/-- A spill or a restore; the pointer rests. -/
def isAccess : StackOp → Bool
  | spill _ _ | restore _ _ => true
  | _ => false

/-- A push or a pop; the pointer moves with the word. -/
def isTransfer : StackOp → Bool
  | push _ | pop _ => true
  | _ => false

/-- How an operation is written. -/
inductive Form (i : Instruction) : StackOp → Prop
  | spill {ref : Memory} {r : String} {d : Int64} :
      i.operands = [.memory ref, .register r] → i.mnemonic = "mov" → isWord r = true →
      slot? ref = some d → Form i (.spill d r)
  | restore {ref : Memory} {r : String} {d : Int64} :
      i.operands = [.register r, .memory ref] → i.mnemonic = "mov" → isWord r = true →
      slot? ref = some d → Form i (.restore r d)
  | push {r : String} : i.operands = [.register r] → i.mnemonic = "push" → isWord r = true →
      Form i (.push r)
  | pop {r : String} : i.operands = [.register r] → i.mnemonic = "pop" → isWord r = true →
      Form i (.pop r)
  | lower {n : Int64} : i.operands = [.register "rsp", .immediate n] → i.mnemonic = "sub" →
      Form i (.lower n)
  | raise {n : Int64} : i.operands = [.register "rsp", .immediate n] → i.mnemonic = "add" →
      Form i (.raise n)

theorem form_of_ofInstruction? {i : Instruction} {op : StackOp}
    (h : ofInstruction? i = some op) : op.Form i := by
  unfold ofInstruction? at h
  split at h
  next ref r hi =>
    split at h
    next hc =>
      obtain ⟨d, hd, rfl⟩ := Option.map_eq_some_iff.mp h
      exact .spill hi hc.1 hc.2 hd
    next => cases h
  next r ref hi =>
    split at h
    next hc =>
      obtain ⟨d, hd, rfl⟩ := Option.map_eq_some_iff.mp h
      exact .restore hi hc.1 hc.2 hd
    next => cases h
  next r n hi =>
    split at h
    next hc =>
      rw [hc.1] at hi
      split at h
      next hm =>
        cases h
        exact .lower hi hm
      next =>
        split at h
        next hm =>
          cases h
          exact .raise hi hm
        next => cases h
    next => cases h
  next r hi =>
    split at h
    next hc =>
      cases h
      exact .push hi hc.2 hc.1
    next =>
      split at h
      next hc =>
        cases h
        exact .pop hi hc.2 hc.1
      next => cases h
  next => cases h

end StackOp

/-! ## Two ways to keep the stack -/

/-- Which operations wrote what is on the stack, by their positions. -/
structure Tally where
  /-- The stack pointer, counted from where it stood at entry. -/
  pointer : Int64 := 0
  /-- The last operation that wrote to an address. -/
  written : FinMap Int64 Nat := ∅
  /-- The last spill at a displacement. -/
  spilled : FinMap Int64 Nat := ∅
  /-- The pushes that are not popped, the last one first. -/
  pushed : List Nat := []
  deriving DecidableEq, Repr

namespace Tally

/-- The tally after operation number `k`. -/
def next (t : Tally) (k : Nat) : StackOp → Tally
  | .spill d _ =>
    { t with written := t.written.insert (t.pointer + d) k, spilled := t.spilled.insert d k }
  | .restore _ _ => t
  | .push _ =>
    { t with
      pointer := t.pointer - 8
      written := t.written.insert (t.pointer - 8) k
      pushed := k :: t.pushed }
  | .pop _ => { t with pointer := t.pointer + 8, pushed := t.pushed.tail }
  | .lower n => { t with pointer := t.pointer - n }
  | .raise n => { t with pointer := t.pointer + n }

/-- The tally of the first `k` operations. -/
def upTo (ops : List StackOp) : Nat → Tally
  | 0 => {}
  | k + 1 =>
    match ops[k]? with
    | some op => (upTo ops k).next k op
    | none => upTo ops k

theorem upTo_succ {ops : List StackOp} {k : Nat} {op : StackOp} (h : ops[k]? = some op) :
    upTo ops (k + 1) = (upTo ops k).next k op := by
  simp [upTo, h]

/-- The operation that wrote what an operation loads. -/
def loads (t : Tally) : StackOp → Option Nat
  | .restore _ d => t.written.get? (t.pointer + d)
  | .pop _ => t.written.get? t.pointer
  | _ => none

/-- The operation whose value the walk takes instead. -/
def recalls (t : Tally) : StackOp → Option Nat
  | .restore _ d => t.spilled.get? d
  | .pop _ => t.pushed.head?
  | _ => none

/-- What every operation keeps holds of the tally. -/
theorem upTo_keeps {P : Nat → Tally → Prop} {ops : List StackOp} {k : Nat} (hzero : P 0 {})
    (hnext : ∀ j op, j < k → ops[j]? = some op → P j (upTo ops j) →
      P (j + 1) ((upTo ops j).next j op)) (hk : k ≤ ops.length) : P k (upTo ops k) := by
  induction k with
  | zero => exact hzero
  | succ k ih =>
    have hop : ops[k]? = some ops[k] := List.getElem?_eq_getElem hk
    rw [upTo_succ hop]
    refine hnext k _ (Nat.lt_succ_self k) hop (ih (fun j op hj => ?_) (Nat.le_of_lt hk))
    exact hnext j op (Nat.lt_succ_of_lt hj)

/-! ## Code of one kind -/

/-- Where the pointer rests, addresses and displacements differ by a constant. -/
structure Resting (t : Tally) : Prop where
  pushed : t.pushed = []
  spilled : ∀ d, t.spilled.get? d = t.written.get? (t.pointer + d)

theorem Resting.next {t : Tally} (h : t.Resting) (k : Nat) {op : StackOp}
    (hop : op.isAccess = true) : (t.next k op).Resting := by
  cases op with
  | spill d r =>
    refine ⟨h.pushed, fun d' => ?_⟩
    simp only [Tally.next, FinMap.get?_insert, h.spilled, Int64.add_right_inj]
  | restore r d => exact h
  | push | pop | lower | raise => cases hop

theorem Resting.recalls_eq {t : Tally} (h : t.Resting) (op : StackOp) :
    t.recalls op = none ∨ t.recalls op = t.loads op := by
  cases op with
  | restore r d => exact .inr (h.spilled d)
  | pop r => exact .inl (by simp [recalls, h.pushed])
  | spill | push | lower | raise => exact .inl rfl

/-- The address of word `n` above an address. -/
def above (address : Int64) (n : Nat) : Int64 := address + Int64.ofNat (8 * n)

theorem above_zero (address : Int64) : above address 0 = address := by simp [above]

theorem above_succ (address : Int64) (n : Nat) :
    above address (n + 1) = above (address + 8) n := by
  have hword : Int64.ofNat (8 * (n + 1)) = 8 + Int64.ofNat (8 * n) := by
    rw [Nat.mul_succ, Nat.add_comm, Int64.ofNat_add]
    rfl
  rw [above, above, hword, Int64.add_assoc]

/-- Words do not wrap around to the address they are counted from. -/
theorem above_ne {address : Int64} {n : Nat} (hpos : n ≠ 0) (hn : 8 * n < UInt64.size) :
    above address n ≠ address := by
  intro h
  have hzero := congrArg (·.toBitVec.toNat) (Int64.add_eq_left.mp h)
  simp [UInt64.size] at hzero hn
  omega

/-- Where words are only pushed and popped, those not popped stand at the pointer and above. -/
structure Piled (k : Nat) (t : Tally) : Prop where
  spilled : t.spilled = ∅
  length_le : t.pushed.length ≤ k
  pushed : ∀ n j, t.pushed[n]? = some j → t.written.get? (above t.pointer n) = some j

theorem Piled.next {t : Tally} {k : Nat} (h : t.Piled k) (hk : 8 * k < UInt64.size) {op : StackOp}
    (hop : op.isTransfer = true) : (t.next k op).Piled (k + 1) := by
  cases op with
  | push r =>
    refine ⟨h.spilled, Nat.succ_le_succ h.length_le, fun n j hj => ?_⟩
    simp only [Tally.next, FinMap.get?_insert] at hj ⊢
    cases n with
    | zero => simpa [above_zero] using hj
    | succ n =>
      rw [List.getElem?_cons_succ] at hj
      have hn : 8 * (n + 1) < UInt64.size := by
        have := (List.getElem?_eq_some_iff.mp hj).1
        have := h.length_le
        omega
      rw [if_neg (above_ne (Nat.succ_ne_zero n) hn), above_succ, Int64.sub_add_cancel]
      exact h.pushed n j hj
  | pop r =>
    refine ⟨h.spilled, ?_, fun n j hj => ?_⟩
    · have := h.length_le
      simp only [Tally.next, List.length_tail]
      omega
    · simp only [Tally.next, List.getElem?_tail] at hj ⊢
      rw [← above_succ]
      exact h.pushed (n + 1) j hj
  | spill | restore | lower | raise => cases hop

theorem Piled.recalls_eq {t : Tally} {k : Nat} (h : t.Piled k) (op : StackOp) :
    t.recalls op = none ∨ t.recalls op = t.loads op := by
  cases op with
  | restore r d => exact .inl (by rw [recalls, h.spilled]; rfl)
  | pop r =>
    cases hpushed : t.pushed with
    | nil => exact .inl (by simp [recalls, hpushed])
    | cons j rest =>
      have htop := h.pushed 0 j (by simp [hpushed])
      rw [above_zero] at htop
      exact .inr (by simp [recalls, loads, hpushed, htop])
  | spill | push | lower | raise => exact .inl rfl

/-- In code of one kind the walk takes the right value, or none. -/
theorem recalls_eq_of_uniform {ops : List StackOp} {k : Nat} (hk : k ≤ ops.length) (op : StackOp)
    (h : (∀ o ∈ ops.take k, o.isAccess = true) ∨
      8 * k < UInt64.size ∧ ∀ o ∈ ops.take k, o.isTransfer = true) :
    (upTo ops k).recalls op = none ∨ (upTo ops k).recalls op = (upTo ops k).loads op := by
  have hmem : ∀ {j o}, j < k → ops[j]? = some o → o ∈ ops.take k := fun hj ho =>
    List.mem_of_getElem? ((List.getElem?_take_of_lt hj).trans ho)
  rcases h with haccess | ⟨hbound, htransfer⟩
  · have hresting : (upTo ops k).Resting := by
      refine upTo_keeps (P := fun _ t => t.Resting) ⟨rfl, fun d => rfl⟩ (fun j o hj ho h => ?_) hk
      exact h.next j (haccess o (hmem hj ho))
    exact hresting.recalls_eq op
  · have hpiled : (upTo ops k).Piled k := by
      refine upTo_keeps (P := fun k t => t.Piled k) ⟨rfl, Nat.le_refl 0, fun n j hj => ?_⟩
        (fun j o hj ho h => ?_) hk
      · cases hj
      · exact h.next (by omega) (htransfer o (hmem hj ho))
    exact hpiled.recalls_eq op

end Tally

/-! ## What the walk does with the operations -/

section Step

variable {s : Setting} {abi : Abi} {r : String}

theorem family_ne_rsp (h : isWord r = true) : Register.X64.family r ≠ "rsp" := by
  simp only [isWord, Bool.and_eq_true, Bool.not_eq_true', List.contains_eq_mem, List.mem_cons,
    List.not_mem_nil, or_false, decide_eq_false_iff_not, not_or] at h
  exact h.2.1

theorem readRegister_of_word (hisa : s.isa = X64.isa) (m : Machine) (h : isWord r = true) :
    s.readRegister m r = ⟨r, m.registers.get? (Register.X64.family r)⟩ := by
  simp only [isWord, Bool.and_eq_true, beq_iff_eq] at h
  exact Setting.readRegister_of_wide hisa m h.1

/-- A register receives a value; the frame register keeps what is known of it. -/
def receive (m : Machine) (r : String) (v : Option Value) : Machine :=
  if Register.X64.family r = "rbp" then m else m.setRegister (Register.X64.family r) v

/-- The state of the walk after an operation. -/
def StackOp.apply (m : Machine) : StackOp → Machine
  | spill d r => m.setSlot ("rsp", d) (m.registers.get? (Register.X64.family r))
  | restore r d => receive m r (m.stack.get? ("rsp", d))
  | push r => m.push (m.registers.get? (Register.X64.family r))
  | pop r => receive m.pop.2 r m.pop.1
  | lower _ | raise _ => { m with comparison := none }

theorem place_of_slot (hisa : s.isa = X64.isa) (hconv : s.convention = X64.isa.convention abi)
    {m : Machine} {i : Instruction} {ref : Memory} {d : Int64} (h : StackOp.slot? ref = some d) :
    s.place m i ref = .stack ("rsp", d) := by
  unfold StackOp.slot? at h
  split at h
  next hc =>
    obtain ⟨hbase, hindex, hsegment, -, -⟩ := hc
    cases h
    have hframe : s.isFrame "rsp" = true := (Setting.isFrame_iff hisa hconv).mpr (.inl (by decide))
    have hfamily : s.isa.family "rsp" = "rsp" := by
      rw [Setting.family_eq hisa]
      decide
    simp [Setting.place, hbase, hindex, hsegment, hframe, hfamily]
  next => cases h

theorem machine_step (hisa : s.isa = X64.isa) (hconv : s.convention = X64.isa.convention abi)
    {ls : Locals} {n : Nat} {m : Machine} {i : Instruction} {op : StackOp}
    (hop : StackOp.ofInstruction? i = some op) : (s.step ls n m i).machine = op.apply m := by
  have hfamily := Setting.family_eq hisa
  have hreceive : ∀ (m : Machine) {r : String} (v : Option Value), isWord r = true →
      (if s.isFrame r then m else s.bind m r v) = receive m r v := by
    intro m r v hr
    have hrsp := family_ne_rsp hr
    by_cases hrbp : Register.X64.family r = "rbp"
    · rw [if_pos ((Setting.isFrame_iff hisa hconv).mpr (.inr hrbp)), receive, if_pos hrbp]
    · have hframe : ¬ s.isFrame r = true := fun h =>
        ((Setting.isFrame_iff hisa hconv).mp h).elim hrsp hrbp
      rw [if_neg hframe, receive, if_neg hrbp, Setting.bind, hfamily]
  have hpointer : s.isFrame "rsp" = true := (Setting.isFrame_iff hisa hconv).mpr (.inl (by decide))
  cases StackOp.form_of_ofInstruction? hop with
  | @spill ref r d hi hm hr hd =>
    have hkind : s.isa.kind i = .store := by
      rw [hisa]
      simp [X64.isa, X64.kind, Instruction.isInvalid, invalidMnemonic, hm, X64.hasMemory, hi,
        Operand.memory?]
    simp [Setting.step, hkind, Setting.stepStore, hi, Setting.storeOperands?,
      place_of_slot hisa hconv hd, Setting.input, readRegister_of_word hisa m hr, StackOp.apply]
  | @restore ref r d hi hm hr hd =>
    have hkind : s.isa.kind i = .load := by
      rw [hisa]
      simp [X64.isa, X64.kind, Instruction.isInvalid, invalidMnemonic, hm, X64.hasMemory, hi,
        Operand.memory?]
    rw [StackOp.apply, ← hreceive m _ hr]
    simp only [Setting.step, hkind, Setting.stepLoad, hi, List.findSome?_cons, Operand.memory?,
      place_of_slot hisa hconv hd, Setting.loadFrom]
    split <;> rfl
  | @push r hi hm hr =>
    have hkind : s.isa.kind i = .push := by
      rw [hisa]
      exact X64.kind_push hm
    simp [Setting.step, hkind, Setting.stepPush, hi, Setting.input, readRegister_of_word hisa m hr,
      StackOp.apply]
  | @pop r hi hm hr =>
    have hkind : s.isa.kind i = .pop := by
      rw [hisa]
      exact X64.kind_pop hm
    rw [StackOp.apply, ← hreceive _ _ hr]
    simp only [Setting.step, hkind, Setting.stepPop, hi]
    split <;> rfl
  | lower hi hm =>
    have hkind : s.isa.kind i = .arithmetic Alu.sub.operation := by
      rw [hisa]
      exact X64.kind_alu (by rw [hm]; rfl)
    simp [Setting.step, hkind, Setting.stepArithmetic, hi, hpointer, StackOp.apply]
  | raise hi hm =>
    have hkind : s.isa.kind i = .arithmetic Alu.add.operation := by
      rw [hisa]
      exact X64.kind_alu (by rw [hm]; rfl)
    simp [Setting.step, hkind, Setting.stepArithmetic, hi, hpointer, StackOp.apply]

end Step

/-! ## At entry -/

/-- Integer arguments that come in registers come in those of the convention. -/
theorem mem_arguments_of_slotsFrom {c : CallingConvention} {position integers : Nat}
    {floats : List Bool} {r : String}
    (h : .register r ∈ c.slotsFrom position integers floats) : r ∈ c.arguments := by
  induction floats generalizing position integers with
  | nil => cases h
  | cons float floats ih =>
    cases float with
    | true =>
      rcases List.mem_cons.mp h with h | h
      · cases h
      · exact ih h
    | false =>
      rcases List.mem_cons.mp h with h | h
      · split at h
        next q hq =>
          cases h
          exact List.mem_of_getElem? hq
        next => cases h
      · exact ih h

theorem register_mem_arguments {s : Setting} {l : Local} (hl : l ∈ s.entryLocals) {r : String}
    (hr : l.register = some r) : r ∈ s.convention.arguments := by
  obtain ⟨⟨⟨⟨kind, name, type⟩, slot⟩, id⟩, hmem, rfl⟩ := List.mem_map.mp hl
  have hslot : slot ∈ s.convention.argumentSlots s.method :=
    (List.of_mem_zip (List.fst_mem_of_mem_zipIdx hmem)).2
  cases slot with
  | register q =>
    cases hr
    exact mem_arguments_of_slotsFrom hslot
  | floatingPoint | stack => cases hr

/-! ## The walk and the tally -/

namespace Tally

/-- Under each displacement and for each open push, the walk has what the operation of the tally
wrote. -/
structure Matches (operand : Nat → Option Value) (t : Tally) (m : Machine) : Prop where
  slots : ∀ d, m.stack.get? ("rsp", d) = (t.spilled.get? d).bind operand
  pushed : m.pushed = t.pushed.map operand
  frame : m.registers.get? "rbp" = none

variable {operand : Nat → Option Value} {t : Tally} {m : Machine} {op : StackOp} {r : String}

theorem matches_entry {s : Setting} {abi : Abi} (hconv : s.convention = X64.isa.convention abi) :
    Matches operand {} s.entryMachine := by
  have hentry := s.entryMachine_holdsArguments
  refine ⟨fun d => ?_, hentry.pushed, Option.eq_none_iff_forall_ne_some.mpr fun v hv => ?_⟩
  · rw [hentry.stack]
    rfl
  · obtain ⟨l, hl, hr, -⟩ := hentry.registers "rbp" v hv
    have hframe : "rbp" ∉ s.convention.arguments := by
      rw [hconv]
      cases abi <;> decide
    exact hframe (register_mem_arguments hl hr)

theorem Matches.receive (h : Matches operand t m) (r : String) (v : Option Value) :
    Matches operand t (receive m r v) := by
  unfold Native.receive
  split
  next => exact h
  next hne =>
    refine ⟨by simpa using h.slots, by simpa using h.pushed, ?_⟩
    rw [Machine.get?_setRegister, if_neg (Ne.symm hne)]
    exact h.frame

/-- What is popped was pushed by the last open push. -/
theorem Matches.pop (h : Matches operand t m) :
    m.pop.1 = t.pushed.head?.bind operand ∧ m.pop.2.pushed = t.pushed.tail.map operand ∧
      m.pop.2.stack = m.stack ∧ m.pop.2.registers = m.registers := by
  have hpushed := h.pushed
  unfold Machine.pop
  cases ht : t.pushed with
  | nil => simp [hpushed, ht]
  | cons j rest => simp [hpushed, ht]

theorem Matches.next (h : Matches operand t m) {k : Nat}
    (hk : ∀ r, op.source? = some r → operand k = m.registers.get? (Register.X64.family r)) :
    Matches operand (t.next k op) (op.apply m) := by
  cases op with
  | spill d r =>
    refine ⟨fun a => ?_, by simpa [StackOp.apply, Tally.next] using h.pushed,
      by simpa [StackOp.apply] using h.frame⟩
    simp only [StackOp.apply, Tally.next, Machine.get?_setSlot, FinMap.get?_insert, Prod.mk.injEq,
      true_and]
    split
    next => exact (hk r rfl).symm
    next => exact h.slots a
  | restore r d => exact h.receive r _
  | push r =>
    refine ⟨h.slots, ?_, h.frame⟩
    simp [StackOp.apply, Tally.next, Machine.push, hk r rfl, h.pushed]
  | pop r =>
    obtain ⟨-, hrest, hstack, hregisters⟩ := h.pop
    exact Matches.receive ⟨hstack ▸ h.slots, hrest, hregisters ▸ h.frame⟩ r _
  | lower n | raise n => exact ⟨h.slots, h.pushed, h.frame⟩

/-- What the walk knows of a register once it is loaded. -/
theorem Matches.loaded (h : Matches operand t m) (hr : op.target? = some r) :
    (op.apply m).registers.get? (Register.X64.family r) =
      if Register.X64.family r = "rbp" then none else (t.recalls op).bind operand := by
  have hreceive : ∀ {m : Machine} {v : Option Value}, m.registers.get? "rbp" = none →
      (Native.receive m r v).registers.get? (Register.X64.family r) =
        if Register.X64.family r = "rbp" then none else v := by
    intro m v hframe
    unfold Native.receive
    split
    next heq => rw [heq, hframe]
    next => rw [Machine.get?_setRegister, if_pos rfl]
  cases op with
  | restore q d =>
    cases hr
    rw [StackOp.apply, hreceive h.frame, h.slots]
    rfl
  | pop q =>
    cases hr
    obtain ⟨hvalue, -, -, hregisters⟩ := h.pop
    rw [StackOp.apply, hreceive (hregisters ▸ h.frame), hvalue]
    rfl
  | spill | push | lower | raise => cases hr

end Tally

/-- What one operation wrote is unknown or the same as what another one wrote. -/
theorem bind_eq_none_or_iff {operand : Nat → Option Value} {recalled loaded : Option Nat} :
    (recalled.bind operand = none ∨ ∃ j, loaded = some j ∧ operand j = recalled.bind operand) ↔
      ∀ j v, recalled = some j → operand j = some v →
        ∃ j', loaded = some j' ∧ operand j' = some v := by
  constructor
  · rintro h j v rfl hv
    rw [Option.bind_some, hv] at h
    exact h.resolve_left (Option.some_ne_none v)
  · intro h
    cases hvalue : recalled.bind operand with
    | none => exact .inl rfl
    | some v =>
      obtain ⟨j, hj, hv⟩ := Option.bind_eq_some_iff.mp hvalue
      exact .inr (h j v hj hv)

/-! ## Straight-line code at the entry -/

open Walk (before recorded)

/-- The body begins with the operations, and no branch leads to one of them. -/
structure Opens (s : Setting) (ops : List StackOp) : Prop where
  operations : (s.body.take ops.length).map StackOp.ofInstruction? = ops.map some
  straight : ∀ i ∈ s.body.take ops.length,
    (Graph.branchTargets s.isa s.body).contains i.address = false

/-- What the walk knows of the register that operation `k` writes. -/
def operand (s : Setting) (ops : List StackOp) (k : Nat) : Option Value :=
  (ops[k]?.bind StackOp.source?).bind fun r =>
    (before s k).machine.registers.get? (Register.X64.family r)

/-- After operation `k` nothing is known of the register it loads, or it is known to hold what was
last written to the address it is loaded from. -/
def LoadsLastWritten (s : Setting) (ops : List StackOp) (k : Nat) (op : StackOp) (r : String) :
    Prop :=
  let after := (recorded s k).machine.registers.get? (Register.X64.family r)
  after = none ∨ ∃ j, (Tally.upTo ops k).loads op = some j ∧ operand s ops j = after

section Walk

variable {s : Setting} {abi : Abi} (hisa : s.isa = X64.isa)
  (hconv : s.convention = X64.isa.convention abi) {ops : List StackOp} (hopens : Opens s ops)
include hopens

theorem Opens.instruction {k : Nat} {op : StackOp} (hop : ops[k]? = some op) :
    ∃ i, s.body[k]? = some i ∧ StackOp.ofInstruction? i = some op ∧
      (before s k).machine = (Walk.upTo s k).machine := by
  have hk := (List.getElem?_eq_some_iff.mp hop).1
  have hat := congrArg (·[k]?) hopens.operations
  simp only [List.getElem?_map, List.getElem?_take_of_lt hk, hop, Option.map_some,
    Option.map_eq_some_iff] at hat
  obtain ⟨i, hi, hform⟩ := hat
  refine ⟨i, hi, hform, ?_⟩
  have hmem : i ∈ s.body.take ops.length :=
    List.mem_of_getElem? ((List.getElem?_take_of_lt hk).trans hi)
  rw [Walk.before_eq hi, Walk.arrive, hopens.straight i hmem]
  rfl

include hisa hconv

theorem machine_recorded {k : Nat} {op : StackOp} (hop : ops[k]? = some op) :
    (recorded s k).machine = op.apply (Walk.upTo s k).machine := by
  obtain ⟨i, hi, hform, hbefore⟩ := hopens.instruction hop
  rw [Walk.recorded_eq hi, machine_step hisa hconv hform, hbefore]

theorem matches_upTo {k : Nat} (hk : k ≤ ops.length) :
    (Tally.upTo ops k).Matches (operand s ops) (Walk.upTo s k).machine := by
  refine Tally.upTo_keeps (P := fun k t => t.Matches (operand s ops) (Walk.upTo s k).machine)
    (Tally.matches_entry hconv) (fun j op hj hop h => ?_) hk
  obtain ⟨i, hi, -, hbefore⟩ := hopens.instruction hop
  rw [Walk.machine_upTo_succ hi, machine_recorded hisa hconv hopens hop]
  refine h.next fun r hr => ?_
  rw [operand, hop, Option.bind_some, hr, Option.bind_some, hbefore]

end Walk

/-- After a restore or a pop in straight-line code at the entry, the register holds for the walk
what the recalled operation wrote, and nothing if it is the frame register. The walk knows nothing
false of it if and only if the operation that the processor loads from wrote the same. This is so in
code of one kind. -/
theorem loadsLastWritten_iff (s : Setting) (abi : Abi) (hisa : s.isa = X64.isa)
    (hconv : s.convention = X64.isa.convention abi) (ops : List StackOp) (hopens : Opens s ops)
    (k : Nat) (op : StackOp) (r : String) (hop : ops[k]? = some op) (hr : op.target? = some r) :
    let t := Tally.upTo ops k
    ((recorded s k).machine.registers.get? (Register.X64.family r) =
      if Register.X64.family r = "rbp" then none else (t.recalls op).bind (operand s ops)) ∧
    (LoadsLastWritten s ops k op r ↔ Register.X64.family r = "rbp" ∨
      ∀ j v, t.recalls op = some j → operand s ops j = some v →
        ∃ j', t.loads op = some j' ∧ operand s ops j' = some v) ∧
    ((∀ o ∈ ops.take k, o.isAccess = true) ∨
      8 * k < UInt64.size ∧ (∀ o ∈ ops.take k, o.isTransfer = true) →
      LoadsLastWritten s ops k op r) := by
  intro t
  have hk : k ≤ ops.length := Nat.le_of_lt (List.getElem?_eq_some_iff.mp hop).1
  have hafter := (matches_upTo hisa hconv hopens hk).loaded hr
  rw [← machine_recorded hisa hconv hopens hop] at hafter
  have hiff : LoadsLastWritten s ops k op r ↔ Register.X64.family r = "rbp" ∨
      ∀ j v, t.recalls op = some j → operand s ops j = some v →
        ∃ j', t.loads op = some j' ∧ operand s ops j' = some v := by
    unfold LoadsLastWritten
    rw [hafter]
    by_cases hframe : Register.X64.family r = "rbp"
    · simp [hframe]
    · rw [if_neg hframe, or_iff_right hframe]
      exact bind_eq_none_or_iff
  refine ⟨hafter, hiff, fun huniform => hiff.mpr (.inr fun j v hj hv => ?_)⟩
  rcases Tally.recalls_eq_of_uniform hk op huniform with hnone | hsame
  · cases hnone.symm.trans hj
  · exact ⟨j, hsame.symm.trans hj, hv⟩

/-- `long First(long a, long b)`: `a` goes to its place above the return address, `b` to a frame
below it at the same displacement, and what is above the return address is returned. -/
def homingRows : List ListingRow :=
  [⟨0x1000, 5, "mov", "qword ptr [rsp + 8], rcx"⟩, ⟨0x1005, 4, "sub", "rsp, 0x18"⟩,
   ⟨0x1009, 5, "mov", "qword ptr [rsp + 8], rdx"⟩, ⟨0x100e, 4, "add", "rsp, 0x18"⟩,
   ⟨0x1012, 5, "mov", "rax, qword ptr [rsp + 8]"⟩, ⟨0x1017, 1, "ret", ""⟩]

def homingOps : List StackOp :=
  [.spill 8 "rcx", .lower 0x18, .spill 8 "rdx", .raise 0x18, .restore "rax" 8]

def homingEnvironment : Environment where
  backend := .x64 (.ofListing .x64 homingRows)
  image := .raw .x64 0x1000 (Array.replicate 24 0x90)
  table := ⟨[playerType], ∅⟩
  options := { boundary := .recursive }

def homingJob : Job where
  address := 0x1000
  method :=
    { token := 0, name := "First", owner := playerType, isStatic := true
      returnType := .definition (TypeTable.supplied .int64)
      parameters := [⟨"a", .definition (TypeTable.supplied .int64)⟩,
        ⟨"b", .definition (TypeTable.supplied .int64)⟩] }

/-- The body is emitted and returns `b`, while the word that is loaded is `a`. -/
theorem loadsLastWritten_iff_homing :
    let s := Analysis.walked homingEnvironment {} homingJob
    Opens s homingOps ∧
    (Analysis.run homingEnvironment {} homingJob).1.state = .emittable ∧
    (Analysis.run homingEnvironment {} homingJob).1.bytecode.toOption = some [.ldarg 1, .ret] ∧
    (recorded s 4).machine.registers.get? "rax" = some (.local 1) ∧
    (Tally.upTo homingOps 4).loads (.restore "rax" 8) = some 0 ∧
    operand s homingOps 0 = some (.local 0) ∧
    ¬ LoadsLastWritten s homingOps 4 (.restore "rax" 8) "rax" := by
  intro s
  have hopens : Opens s homingOps := ⟨by decide +kernel, by decide +kernel⟩
  have hrecalls : (Tally.upTo homingOps 4).recalls (.restore "rax" 8) = some 2 := by decide
  have hloads : (Tally.upTo homingOps 4).loads (.restore "rax" 8) = some 0 := by decide
  have hsecond : operand s homingOps 2 = some (.local 1) := by decide +kernel
  have hfirst : operand s homingOps 0 = some (.local 0) := by decide +kernel
  obtain ⟨hafter, hiff, -⟩ := loadsLastWritten_iff s .microsoft rfl rfl homingOps hopens 4
    (.restore "rax" 8) "rax" rfl rfl
  refine ⟨hopens, by decide +kernel, by decide +kernel, ?_, hloads, hfirst, fun h => ?_⟩
  · rw [hrecalls, Option.bind_some, hsecond] at hafter
    exact hafter
  · rcases hiff.mp h with hframe | hright
    · exact absurd hframe (by decide)
    · obtain ⟨j, hj, hv⟩ := hright 2 _ hrecalls hsecond
      cases hloads.symm.trans hj
      cases hfirst.symm.trans hv

end MethodLift.Native
