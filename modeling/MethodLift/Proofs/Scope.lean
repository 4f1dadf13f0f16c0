import Mathlib.Logic.ExistsUnique
import MethodLift.Proofs.EmittedCode
import MethodLift.Walk.Step

/-!
# What a step may mention

The locals of a method are numbered as they are made. A value is in scope below `n` if the local it
reads has a smaller number; a machine state is in scope if everything it holds is. A step from a
state in scope below the number of locals reads only locals that exist, gives the next number to the
local it makes, and leaves a state in scope of the locals there are afterwards.

`Ordered n es k` says this of a list of effects: started with `n` locals, each effect reads locals
that exist by then, the ones that produce a local produce the next one, and `k` locals exist at the
end. `step_inScope` is the statement about one instruction.
-/

namespace MethodLift

/-! ## Values and states in scope -/

/-- The local that the value reads, if any, comes before local `n`. -/
def ValueInScope (n : Nat) (v : Option Value) : Prop :=
  ∀ id, v.bind Value.local? = some id → id < n

namespace ValueInScope

variable {n k : Nat} {v : Option Value}

@[simp] theorem none (n : Nat) : ValueInScope n none := by
  intro id h
  simp at h

@[simp] theorem constant (n : Nat) (c : Constant) : ValueInScope n (some (.constant c)) := by
  intro id h
  simp [Value.local?] at h

@[simp] theorem integer (n : Nat) (v : Int64) (width : Nat) :
    ValueInScope n (some (.integer v width)) := constant n _

@[simp] theorem classPointer (n : Nat) (d : TypeDefinition) :
    ValueInScope n (some (.classPointer d)) := by
  intro id h
  simp [Value.local?] at h

@[simp] theorem staticFields (n : Nat) (d : TypeDefinition) :
    ValueInScope n (some (.staticFields d)) := by
  intro id h
  simp [Value.local?] at h

@[simp] theorem local_iff (n id : Nat) : ValueInScope n (some (.local id)) ↔ id < n := by
  simp [ValueInScope, Value.local?]

theorem mono (h : ValueInScope n v) (hk : n ≤ k) : ValueInScope k v :=
  fun id hid => Nat.lt_of_lt_of_le (h id hid) hk

theorem of_input {i : Input} (h : ValueInScope n i.value) {id : Nat} (hid : i.local? = some id) :
    id < n := h id hid

/-- A field reads the local that its base reads. -/
theorem fieldValue {base : Value} (h : ValueInScope n (some base)) (f : FieldRef) :
    ValueInScope n (some (Setting.fieldValue base f)) := by
  intro id hid
  cases base with
  | «local» b =>
    simp only [Setting.fieldValue, Option.bind_some, Value.local?] at hid
    exact h id (by simpa [Value.local?] using hid)
  | constant c => simp [Setting.fieldValue, Value.local?] at hid
  | field o g => simp [Setting.fieldValue, Value.local?] at hid
  | classPointer d => simp [Setting.fieldValue, Value.local?] at hid
  | staticFields d => simp [Setting.fieldValue, Value.local?] at hid

end ValueInScope

/-- Everything the state holds reads only locals before local `n`. -/
structure Machine.InScope (n : Nat) (m : Machine) : Prop where
  registers : ∀ r, ValueInScope n (m.registers.get? r)
  stack : ∀ slot, ValueInScope n (m.stack.get? slot)
  pushed : ∀ v ∈ m.pushed, ValueInScope n v
  comparison : ∀ c, m.comparison = some c →
    ValueInScope n c.left.value ∧ ValueInScope n c.right.value

theorem FinMap.get?_foldl_erase {κ ν : Type} [DecidableEq κ] (ks : List κ) (m : FinMap κ ν)
    (a : κ) : (ks.foldl erase m).get? a = if a ∈ ks then none else m.get? a := by
  induction ks generalizing m with
  | nil => simp
  | cons k ks ih =>
    rw [List.foldl_cons, ih, get?_erase]
    by_cases h : a = k <;> by_cases hm : a ∈ ks <;> simp [h, hm]

namespace Machine.InScope

variable {n k : Nat} {m : Machine}

theorem mono (h : m.InScope n) (hk : n ≤ k) : m.InScope k where
  registers r := (h.registers r).mono hk
  stack slot := (h.stack slot).mono hk
  pushed v hv := (h.pushed v hv).mono hk
  comparison c hc := ⟨(h.comparison c hc).1.mono hk, (h.comparison c hc).2.mono hk⟩

theorem setRegister (h : m.InScope n) (r : String) {v : Option Value} (hv : ValueInScope n v) :
    (m.setRegister r v).InScope n := by
  refine ⟨fun a => ?_, by simpa using h.stack, by simpa using h.pushed, by simpa using h.comparison⟩
  rw [Machine.get?_setRegister]
  split
  · exact hv
  · exact h.registers a

theorem setSlot (h : m.InScope n) (slot : Slot) {v : Option Value} (hv : ValueInScope n v) :
    (m.setSlot slot v).InScope n := by
  refine ⟨by simpa using h.registers, fun a => ?_, by simpa using h.pushed,
    by simpa using h.comparison⟩
  rw [Machine.get?_setSlot]
  split
  · exact hv
  · exact h.stack a

theorem push (h : m.InScope n) {v : Option Value} (hv : ValueInScope n v) :
    (m.push v).InScope n := by
  refine ⟨h.registers, h.stack, fun a ha => ?_, h.comparison⟩
  rcases List.mem_cons.mp ha with rfl | ha
  · exact hv
  · exact h.pushed a ha

theorem pop (h : m.InScope n) : ValueInScope n m.pop.1 ∧ m.pop.2.InScope n := by
  unfold Machine.pop
  split
  · rename_i v rest hp
    have hall := h.pushed
    rw [hp] at hall
    exact ⟨hall v (by simp), h.registers, h.stack, fun a ha => hall a (by simp [ha]), h.comparison⟩
  · exact ⟨.none n, h⟩

theorem clobber (h : m.InScope n) (volatile : List String) : (m.clobber volatile).InScope n := by
  refine ⟨fun a => ?_, h.stack, h.pushed, fun c hc => by simp [Machine.clobber] at hc⟩
  simp only [Machine.clobber, FinMap.get?_foldl_erase]
  split
  · exact .none n
  · exact h.registers a

theorem setComparison (h : m.InScope n) {c : Option Comparison}
    (hc : ∀ d, c = some d → ValueInScope n d.left.value ∧ ValueInScope n d.right.value) :
    ({ m with comparison := c } : Machine).InScope n :=
  ⟨h.registers, h.stack, h.pushed, hc⟩

theorem forgetComparison (h : m.InScope n) :
    ({ m with comparison := none } : Machine).InScope n :=
  h.setComparison fun _ hd => by cases hd

/-- What two states agree on is in scope if the first is. -/
theorem join (h : m.InScope n) (o : Machine) : (m.join o).InScope n := by
  refine ⟨fun a => ?_, fun a => ?_, fun v hv => ?_, fun c hc => ?_⟩
  · intro id hid
    obtain ⟨v, hv, hl⟩ := Option.bind_eq_some_iff.mp hid
    have hm := ((FinMap.get?_agree _ _ a v).mp hv).1
    exact h.registers a id (by rw [hm]; exact hl)
  · intro id hid
    obtain ⟨v, hv, hl⟩ := Option.bind_eq_some_iff.mp hid
    have hm := ((FinMap.get?_agree _ _ a v).mp hv).1
    exact h.stack a id (by rw [hm]; exact hl)
  · simp only [Machine.join] at hv
    split at hv
    · exact h.pushed v hv
    · simp at hv
  · simp only [Machine.join] at hc
    split at hc
    · exact h.comparison c hc
    · cases hc

end Machine.InScope

/-! ## Effects in order -/

/-- The effect reads only locals before local `n`, and its conversions push none. -/
structure Effect.InScope (n : Nat) (e : Effect) : Prop where
  inputs : ∀ i ∈ e.inputs, ValueInScope n i.value
  conversions : ∀ source cs result, e = .convert source cs result → ∀ b ∈ cs, b.isLoad = false

theorem Effect.InScope.consumed {n : Nat} {e : Effect} (h : e.InScope n) {id : Nat}
    (hid : id ∈ e.consumed) : id < n := by
  obtain ⟨i, hi, hl⟩ := List.mem_filterMap.mp hid
  exact (h.inputs i hi).of_input hl

theorem Effect.InScope.mono {n k : Nat} {e : Effect} (h : e.InScope n) (hk : n ≤ k) : e.InScope k :=
  ⟨fun i hi => (h.inputs i hi).mono hk, h.conversions⟩

/-- Started with `n` locals, each effect reads locals that exist, a local that is produced is the
next one, and in the end there are `k` locals. -/
def Ordered : Nat → List Effect → Nat → Prop
  | n, [], k => n = k
  | n, e :: es, k =>
    e.InScope n ∧ (∀ id, e.produced = some id → id = n) ∧
      Ordered (n + e.produced.toList.length) es k

namespace Ordered

variable {n k : Nat} {es fs : List Effect}

theorem append {j : Nat} (h : Ordered n es j) (h' : Ordered j fs k) : Ordered n (es ++ fs) k := by
  induction es generalizing n with
  | nil => rw [Ordered] at h; subst h; exact h'
  | cons e es ih => exact ⟨h.1, h.2.1, ih h.2.2⟩

theorem le (h : Ordered n es k) : n ≤ k := by
  induction es generalizing n with
  | nil => rw [Ordered] at h; omega
  | cons e es ih => have := ih h.2.2; omega

theorem inScope (h : Ordered n es k) {e : Effect} (he : e ∈ es) : e.InScope k := by
  induction es generalizing n with
  | nil => simp at he
  | cons f es ih =>
    rcases List.mem_cons.mp he with rfl | he
    · exact h.1.mono (by have := le h.2.2; omega)
    · exact ih h.2.2 he

/-- What is produced lies between the first local and the last. -/
theorem produced_mem (h : Ordered n es k) {e : Effect} (he : e ∈ es) {id : Nat}
    (hp : e.produced = some id) : n ≤ id ∧ id < k := by
  induction es generalizing n with
  | nil => simp at he
  | cons f es ih =>
    have hle := le h.2.2
    rcases List.mem_cons.mp he with rfl | he
    · have := h.2.1 id hp
      simp only [hp, Option.toList_some, List.length_singleton] at hle
      omega
    · have := ih h.2.2 he
      omega

/-- Every local in between is produced in exactly one place. -/
theorem existsUnique (h : Ordered n es k) {id : Nat} (hn : n ≤ id) (hk : id < k) :
    ∃! j : Nat, (es[j]?).bind Effect.produced = some id := by
  induction es generalizing n with
  | nil => rw [Ordered] at h; omega
  | cons e es ih =>
    by_cases hp : e.produced = some id
    · refine ⟨0, by simpa using hp, fun j hj => ?_⟩
      cases j with
      | zero => rfl
      | succ j =>
        -- The counter has passed `id`, so nothing behind produces it again.
        obtain ⟨f, hf, hfp⟩ := Option.bind_eq_some_iff.mp (by simpa using hj)
        have := produced_mem h.2.2 (List.mem_of_getElem? hf) hfp
        have := h.2.1 id hp
        simp only [hp, Option.toList_some, List.length_singleton] at *
        omega
    · have hn' : n + e.produced.toList.length ≤ id := by
        cases he : e.produced with
        | none => simpa using hn
        | some id' =>
          have := h.2.1 id' he
          have : id' ≠ id := fun heq => hp (heq ▸ he)
          simp only [Option.toList_some, List.length_singleton]
          omega
      obtain ⟨j, hj, huniq⟩ := ih h.2.2 hn'
      refine ⟨j + 1, by simpa using hj, fun j' hj' => ?_⟩
      cases j' with
      | zero => exact absurd (by simpa using hj') hp
      | succ j' => rw [huniq j' (by simpa using hj')]

/-- A local that an effect reads was there at the start or is produced further ahead in the list. -/
theorem consumed_earlier (h : Ordered n es k) {j : Nat} {e : Effect} (hj : es[j]? = some e)
    {id : Nat} (hid : id ∈ e.consumed) : id < n ∨ ∃ f ∈ es.take j, f.produced = some id := by
  induction es generalizing n j with
  | nil => simp at hj
  | cons f es ih =>
    cases j with
    | zero =>
      cases hj
      exact .inl (h.1.consumed hid)
    | succ j =>
      rcases ih h.2.2 (by simpa using hj) with hlt | ⟨g, hg, hgp⟩
      · cases hf : f.produced with
        | none => left; simpa [hf] using hlt
        | some id' =>
          have hid' := h.2.1 id' hf
          simp only [hf, Option.toList_some, List.length_singleton] at hlt
          rcases Nat.lt_or_ge id n with hlt' | hge
          · exact .inl hlt'
          · right
            exact ⟨f, by simp, by rw [hf]; congr 1; omega⟩
      · right
        exact ⟨g, by simp [hg], hgp⟩

/-- An effect that produces nothing. -/
theorem single {e : Effect} (h : e.InScope n) (hp : e.produced = none) : Ordered n [e] n :=
  ⟨h, fun id hid => by simp [hp] at hid, by simp [Ordered, hp]⟩

/-- An effect that produces the next local. -/
theorem defining {e : Effect} (h : e.InScope n) (hp : e.produced = some n) :
    Ordered n [e] (n + 1) :=
  ⟨h, fun id hid => by simpa [hp] using hid.symm, by simp [Ordered, hp]⟩

end Ordered

/-- The step makes the next local if it makes one, and mentions only locals that exist. -/
structure Step.InScope (n : Nat) (st : Step) : Prop where
  effects : Ordered n st.effects (n + st.result.toList.length)
  machine : st.machine.InScope (n + st.result.toList.length)

namespace Step.InScope

variable {n : Nat} {m : Machine}

/-- A step without an effect. -/
theorem silent (hm : m.InScope n) : Step.InScope n { machine := m } := ⟨rfl, hm⟩

/-- A step with one effect that produces nothing. -/
theorem single (hm : m.InScope n) {e : Effect} (he : e.InScope n) (hp : e.produced = none)
    (imports : List Signature) :
    Step.InScope n { machine := m, effects := [e], imports } := ⟨.single he hp, hm⟩

/-- A step that makes a local. -/
theorem defining (hm : m.InScope (n + 1)) {e : Effect} (he : e.InScope n)
    (hp : e.produced = some n) (new : NewLocal) (imports : List Signature) :
    Step.InScope n { machine := m, effects := [e], result := some new, imports } :=
  ⟨.defining he hp, hm⟩

end Step.InScope

/-- An effect without inputs and conversions is in scope. -/
theorem Effect.InScope.of_inputs {n : Nat} {e : Effect} (h : e.inputs = [])
    (hc : ∀ source cs result, e ≠ .convert source cs result) : e.InScope n :=
  ⟨by simp [h], fun source cs result he => absurd he (hc source cs result)⟩

theorem Instruction.unmodeled_inScope (n : Nat) (i : Instruction) (what : String) :
    (i.unmodeled what).InScope n := .of_inputs rfl (by simp [Instruction.unmodeled])

theorem Step.InScope.unmodeled {n : Nat} {m : Machine} (hm : m.InScope n) (i : Instruction)
    (what : String) : Step.InScope n { machine := m, effects := [i.unmodeled what] } :=
  .single hm (i.unmodeled_inScope n what) rfl []

namespace Setting

variable {s : Setting} {ls : Locals} {n : Nat} {m : Machine} {i : Instruction}

/-! ## What an instruction reads -/

theorem readRegister_inScope (hm : m.InScope n) (r : String) :
    ValueInScope n (s.readRegister m r).value := by
  unfold readRegister
  split
  · exact .integer n 0 _
  · exact hm.registers _

theorem input_inScope (hm : m.InScope n) (width : Nat) (operand : Operand) :
    ValueInScope n (s.input m width operand).value := by
  cases operand with
  | register r => exact readRegister_inScope hm r
  | immediate v => exact .integer n v width
  | memory ref => exact .none n
  | other text => exact .none n

theorem argument_inScope (hm : m.InScope n) (position : Nat) :
    ValueInScope n (s.argument m position).value := by
  unfold argument
  split
  · exact readRegister_inScope hm _
  · exact .none n

theorem passed_inScope (hm : m.InScope n) (slot : ArgumentSlot) (position : Nat) :
    ValueInScope n (s.passed m slot position).value := by
  cases slot with
  | register r => exact readRegister_inScope hm r
  | floatingPoint => exact .none n
  | stack => exact .none n

/-- The base of a memory reference is what a register holds. -/
theorem place_inScope (hm : m.InScope n) {ref : Memory} {base : Value} {offset : Int64}
    (h : s.place m i ref = .relative base offset) : ValueInScope n (some base) := by
  unfold place at h
  split at h
  · cases h
  · split at h
    · cases h
    · rename_i r _
      split at h
      · cases h
      · split at h
        · cases h
        · split at h
          · split at h <;> cases h
          · rename_i v hv
            cases h
            rw [← hv]
            exact hm.registers _
          · cases h

theorem bind_inScope (hm : m.InScope n) (r : String) {v : Option Value} (hv : ValueInScope n v) :
    (s.bind m r v).InScope n := hm.setRegister _ hv

theorem clobber_inScope (hm : m.InScope n) : (s.clobber m).InScope n := hm.clobber _

/-- A register may be bound to the local that is made next. -/
theorem bind_next (hm : m.InScope n) (r : String) :
    (s.bind m r (some (.local n))).InScope (n + 1) :=
  bind_inScope (hm.mono (Nat.le_succ n)) r ((ValueInScope.local_iff _ _).mpr (Nat.lt_succ_self n))

/-! ## Moves, loads and stores -/

theorem loadConstant_inScope (hm : m.InScope n) (r : String) (c : Constant) :
    (s.loadConstant m r c).InScope n :=
  .single (bind_inScope hm r (.constant n c)) (.of_inputs rfl (by simp)) rfl []

theorem extend_isLoad (bits : Nat) (signed : Bool) : (Bytecode.extend bits signed).isLoad = false :=
  rfl

theorem stepConvert_inScope (hm : m.InScope n) (r : String) (source : Operand) (signed : Bool) :
    (s.stepConvert n m r source signed).InScope n := by
  refine .defining (bind_next hm r) ⟨?_, ?_⟩ rfl _ _
  · intro inp hinp
    rw [Effect.inputs, List.mem_singleton] at hinp
    subst hinp
    exact input_inScope hm _ source
  · intro src cs result he b hb
    cases he
    rcases List.mem_cons.mp hb with rfl | hb
    · exact extend_isLoad _ _
    · split at hb
      · rw [List.mem_singleton.mp hb]
        exact extend_isLoad _ _
      · simp at hb

theorem stepMove_inScope (hm : m.InScope n) : (s.stepMove n m i).InScope n := by
  unfold stepMove
  split
  · split
    · exact .silent hm
    · split
      · exact stepConvert_inScope hm _ _ _
      · split
        · exact loadConstant_inScope hm _ _
        · split
          · exact .silent (bind_inScope hm _ (.none n))
          · exact .single (bind_inScope hm _ (readRegister_inScope hm _)) (.of_inputs rfl (by simp))
              rfl []
        · exact .unmodeled hm i _
  · exact .unmodeled hm i _

theorem loadGlobal_inScope (hm : m.InScope n) (r : String) (address : UInt64) :
    (s.loadGlobal m r address).InScope n := by
  refine .single (bind_inScope hm r ?_) (.of_inputs rfl (by simp)) rfl []
  cases s.symbols.classAt? address with
  | some d => exact .classPointer n d
  | none =>
    cases s.symbols.stringAt? address with
    | some text => exact .constant n _
    | none => exact .none n

theorem readField_missing_inScope (hm : m.InScope n) (r : String) (ref : Memory) :
    Step.InScope n { machine := s.bind m r none,
                     effects := [.readField (.missing ref.render) none] } := by
  refine .single (bind_inScope hm r (.none n)) ⟨?_, by simp⟩ rfl []
  intro inp hinp
  rw [Effect.inputs, List.mem_singleton] at hinp
  subst hinp
  exact .none n

theorem loadField_inScope (hm : m.InScope n) (r : String) (ref : Memory) {base : Value}
    (hb : ValueInScope n (some base)) (offset : Int64) :
    (s.loadField ls n m r ref base offset).InScope n := by
  unfold loadField
  split
  · rename_i f _
    refine .defining (bind_next hm r) ⟨?_, by simp⟩ rfl _ _
    intro inp hinp
    rw [Effect.inputs, List.mem_singleton] at hinp
    subst hinp
    exact hb.fieldValue f
  · exact readField_missing_inScope hm r ref

theorem loadFrom_inScope (hm : m.InScope n) (r : String) (ref : Memory) {p : Place}
    (hp : ∀ base offset, p = .relative base offset → ValueInScope n (some base)) :
    (s.loadFrom ls n m r ref p).InScope n := by
  unfold loadFrom
  split
  · exact .single (bind_inScope hm r (hm.stack _)) (.of_inputs rfl (by simp)) rfl []
  · exact loadGlobal_inScope hm r _
  · split
    · exact .single (bind_inScope hm r (.staticFields n _)) (.of_inputs rfl (by simp)) rfl []
    · exact loadField_inScope hm r ref (hp _ _ rfl) _
  · exact loadField_inScope hm r ref (hp _ _ rfl) _
  · exact readField_missing_inScope hm r ref

theorem stepLoad_inScope (hm : m.InScope n) : (s.stepLoad ls n m i).InScope n := by
  unfold stepLoad
  split
  · split
    · split
      · exact .silent hm
      · exact loadFrom_inScope hm _ _ fun base offset h => place_inScope hm h
    · exact .unmodeled hm i _
  · exact .unmodeled hm i _

theorem writeField_inScope (hm : m.InScope n) {field value : Input}
    (hf : ValueInScope n field.value) (hv : ValueInScope n value.value) :
    Step.InScope n { machine := m, effects := [.writeField field value] } := by
  refine .single hm ⟨?_, by simp⟩ rfl []
  intro inp hinp
  simp only [Effect.inputs, List.mem_cons, List.not_mem_nil, or_false] at hinp
  rcases hinp with rfl | rfl
  · exact hf
  · exact hv

theorem stepStore_inScope (hm : m.InScope n) : (s.stepStore ls m i).InScope n := by
  unfold stepStore
  split
  · exact .unmodeled hm i _
  · rename_i ref source _
    have hv := fun width => input_inScope (s := s) hm width source
    simp only
    split
    · exact .single (hm.setSlot _ (hv _)) (.of_inputs rfl (by simp)) rfl []
    · rename_i base offset hp
      refine writeField_inScope hm ?_ (hv _)
      cases s.fieldAt? ls base offset with
      | some f => exact (place_inScope hm hp).fieldValue f
      | none => exact .none n
    · exact writeField_inScope hm (.none n) (hv _)
    · exact writeField_inScope hm (.none n) (hv _)

theorem stepLoadAddress_inScope (hm : m.InScope n) : (s.stepLoadAddress m i).InScope n := by
  unfold stepLoadAddress
  split
  · split
    · exact .silent hm
    · split
      · exact loadConstant_inScope hm _ _
      · exact .silent (bind_inScope hm _ (.none n))
  · exact .unmodeled hm i _

theorem stepPush_inScope (hm : m.InScope n) : (s.stepPush m i).InScope n := by
  refine .silent (hm.push ?_)
  cases i.operands.head? with
  | none => exact .none n
  | some operand => exact input_inScope hm 64 operand

theorem stepPop_inScope (hm : m.InScope n) : (s.stepPop m i).InScope n := by
  obtain ⟨hv, hr⟩ := hm.pop
  unfold stepPop
  simp only
  split
  · split
    · exact .silent hr
    · exact .silent (bind_inScope hr _ hv)
  · exact .silent hr

/-! ## Arithmetic and comparisons -/

theorem arithmeticInputs?_inScope (hm : m.InScope n) {op : ArithmeticOp} {width : Nat}
    {operands : List Operand} {left right : Input}
    (h : s.arithmeticInputs? m op width operands = some (left, right)) :
    ValueInScope n left.value ∧ ValueInScope n right.value := by
  unfold arithmeticInputs? at h
  split at h
  · split at h
    · cases h
      exact ⟨input_inScope hm _ _, .constant n _⟩
    · cases h
  · cases h
    exact ⟨input_inScope hm _ _, input_inScope hm _ _⟩
  · cases h
    exact ⟨input_inScope hm _ _, input_inScope hm _ _⟩
  · cases h

theorem stepArithmetic_inScope (hm : m.InScope n) (op : ArithmeticOp) :
    (s.stepArithmetic n m i op).InScope n := by
  unfold stepArithmetic
  split
  · have hm' := hm.forgetComparison
    simp only
    split
    · exact .silent hm'
    · split
      · exact loadConstant_inScope hm' _ _
      · split
        · rename_i left right h
          obtain ⟨hl, hr⟩ := arithmeticInputs?_inScope hm' h
          refine .defining (bind_next hm' _) ⟨?_, by simp⟩ rfl _ _
          intro inp hinp
          simp only [Effect.inputs, List.mem_cons, List.not_mem_nil, or_false] at hinp
          rcases hinp with rfl | rfl
          · exact hl
          · exact hr
        · exact .unmodeled hm' i _
  · exact .unmodeled hm i _

/-- Both sides of a comparison are in scope. -/
def ComparisonInScope (n : Nat) (c : Option Comparison) : Prop :=
  ∀ d, c = some d → ValueInScope n d.left.value ∧ ValueInScope n d.right.value

theorem comparisonOf_inScope (hm : m.InScope n) (operands : List Operand) :
    ComparisonInScope n (s.comparisonOf m operands) := by
  intro d hd
  unfold comparisonOf at hd
  split at hd
  · cases hd
    exact ⟨input_inScope hm _ _, input_inScope hm _ _⟩
  · cases hd

theorem testOf_inScope (hm : m.InScope n) (operands : List Operand) :
    ComparisonInScope n (s.testOf m operands) := by
  intro d hd
  unfold testOf at hd
  split at hd
  · cases hd
    exact ⟨input_inScope hm _ _, .integer n 0 _⟩
  · cases hd

theorem zeroComparisonOf_inScope (hm : m.InScope n) (operands : List Operand) :
    ComparisonInScope n (s.zeroComparisonOf m operands) := by
  intro d hd
  unfold zeroComparisonOf at hd
  split at hd
  · cases hd
    exact ⟨input_inScope hm _ _, .integer n 0 _⟩
  · cases hd

/-! ## Branches, calls and returns -/

theorem branchEffect_inScope {c : Option Comparison} (hc : ComparisonInScope n c)
    (condition : Condition) : (s.branchEffect i condition c).InScope n := by
  unfold branchEffect
  split
  · refine ⟨?_, by simp⟩
    intro inp hinp
    cases c with
    | none => simp [Effect.inputs] at hinp
    | some c =>
      simp only [Effect.inputs, List.mem_cons, List.not_mem_nil, or_false] at hinp
      rcases hinp with rfl | rfl
      · exact (hc c rfl).1
      · exact (hc c rfl).2
  · exact i.unmodeled_inScope n _

theorem branchEffect_produced (condition : Condition) (c : Option Comparison) :
    (s.branchEffect i condition c).produced = none := by
  unfold branchEffect
  split <;> rfl

theorem returnEffect_inScope (hm : m.InScope n) : (s.returnEffect m).InScope n := by
  unfold returnEffect
  split
  · exact .of_inputs rfl (by simp)
  · refine ⟨?_, by intro _ _ _ h; split at h <;> cases h⟩
    intro inp hinp
    split at hinp
    · rw [Effect.inputs, List.mem_singleton] at hinp
      subst hinp
      exact .none n
    · rw [Effect.inputs, List.mem_singleton] at hinp
      subst hinp
      exact readRegister_inScope hm _

theorem returnEffect_produced : (s.returnEffect m).produced = none := by
  unfold returnEffect
  split
  · rfl
  · split <;> rfl

theorem call_inScope (hm : m.InScope n) (target : UInt64) (method : Option Method)
    (slots : List ArgumentSlot) (onStack : Nat) (result : Option Nat) :
    (Effect.call target method (slots.zipIdx.map fun (slot, k) => s.passed m slot k) onStack
      result).InScope n := by
  refine ⟨?_, by simp⟩
  intro inp hinp
  rw [Effect.inputs] at hinp
  obtain ⟨⟨slot, k⟩, -, rfl⟩ := List.mem_map.mp hinp
  exact passed_inScope hm slot k

theorem stepManagedCall_inScope (hm : m.InScope n) (target : UInt64) :
    (s.stepManagedCall n m target).InScope n := by
  unfold stepManagedCall
  simp only
  split
  · exact .single (clobber_inScope hm) (.of_inputs rfl (by simp)) rfl []
  · split
    · exact .single (clobber_inScope hm) (call_inScope hm _ _ _ _ _) rfl []
    · exact .defining (bind_next (clobber_inScope hm) _) (call_inScope hm _ _ _ _ _) rfl _ _

theorem stepJump_inScope (hm : m.InScope n) : (s.stepJump n m i).InScope n := by
  unfold stepJump
  split
  · exact .unmodeled hm i _
  · rename_i target _
    split
    · -- A tail call may return the very local that the call makes.
      have hcall := stepManagedCall_inScope (s := s) hm target
      exact ⟨hcall.effects.append
        (.single (returnEffect_inScope hcall.machine) returnEffect_produced), hcall.machine⟩
    · exact .single hm (.of_inputs rfl (by simp)) rfl []

theorem throwNew_inScope (hm : m.InScope n) (name : String) : (s.throwNew m name).InScope n :=
  .single (clobber_inScope hm) (.of_inputs rfl (by simp)) rfl _

theorem allocated_inScope (hm : m.InScope n) {effect : Option Nat → Effect}
    (he : ∀ r, (effect r).InScope n) (hp : ∀ r, (effect r).produced = r)
    (type : Signature → Signature) (d : Option TypeDefinition) :
    (s.allocated n m effect type d).InScope n := by
  cases d with
  | some d => exact .defining (bind_next (clobber_inScope hm) _) (he _) (hp _) _ _
  | none => exact .single (clobber_inScope hm) (he _) (hp _) []

theorem stepHelper_inScope (hm : m.InScope n) (helper : Helper) :
    (s.stepHelper n m helper).InScope n := by
  have hinput : ∀ {e : Effect} (k : Nat), e.inputs = [s.argument m k] →
      (∀ source cs result, e ≠ .convert source cs result) → e.InScope n := by
    intro e k he hc
    refine ⟨?_, fun source cs result h => absurd h (hc source cs result)⟩
    intro inp hinp
    rw [he, List.mem_singleton] at hinp
    subst hinp
    exact argument_inScope hm k
  cases helper with
  | initializeMethod => exact .single (clobber_inScope hm) (.of_inputs rfl (by simp)) rfl []
  | runtimeClassInit => exact .single (clobber_inScope hm) (.of_inputs rfl (by simp)) rfl []
  | objectNew =>
    exact allocated_inScope hm (fun r => .of_inputs rfl (by simp)) (fun r => rfl) _ _
  | arrayNew =>
    exact allocated_inScope hm (fun r => hinput 1 rfl (by simp)) (fun r => rfl) _ _
  | raiseException =>
    exact .single (clobber_inScope hm) (hinput 0 rfl (by simp)) rfl []
  | raiseIndexOutOfRange => exact throwNew_inScope hm _
  | raiseNullReference => exact throwNew_inScope hm _

theorem stepCall_inScope (hm : m.InScope n) : (s.stepCall n m i).InScope n := by
  unfold stepCall
  split
  · exact .unmodeled (clobber_inScope hm) i _
  · split
    · exact stepHelper_inScope hm _
    · exact stepManagedCall_inScope hm _

theorem stepUnknown_inScope (hm : m.InScope n) : (s.stepUnknown m i).InScope n := by
  refine .unmodeled (Machine.InScope.forgetComparison ?_) i _
  split
  · exact bind_inScope hm _ (.none n)
  · exact hm

/-! ## The step -/

/-- From a state in scope of the `n` locals there are, an instruction reads only these, makes local
number `n` if any, and leaves a state in scope of the locals there are then. -/
theorem step_inScope (hm : m.InScope n) : (s.step ls n m i).InScope n := by
  unfold step
  split
  · exact .silent hm
  · exact .silent hm
  · exact stepMove_inScope hm
  · exact stepLoad_inScope hm
  · exact stepStore_inScope hm
  · exact stepLoadAddress_inScope hm
  · exact stepArithmetic_inScope hm _
  · exact .silent (hm.setComparison (comparisonOf_inScope hm _))
  · exact .silent (hm.setComparison (testOf_inScope hm _))
  · exact .single hm (branchEffect_inScope hm.comparison _) (branchEffect_produced _ _) []
  · exact .single hm (branchEffect_inScope (zeroComparisonOf_inScope hm _) _)
      (branchEffect_produced _ _) []
  · exact stepJump_inScope hm
  · exact stepCall_inScope hm
  · exact .unmodeled (clobber_inScope hm) i _
  · exact .unmodeled hm i _
  · exact .single hm (returnEffect_inScope hm) returnEffect_produced []
  · exact stepPush_inScope hm
  · exact stepPop_inScope hm
  · exact .unmodeled hm i _
  · exact stepUnknown_inScope hm

end Setting

end MethodLift
