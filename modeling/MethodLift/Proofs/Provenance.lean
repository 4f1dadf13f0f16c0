import MethodLift.Proofs.Scope

/-!
# Where the contents of a state come from

A machine state is a set of places with contents: registers, stack slots, pushed values counted from
the top, and the two sides and the shape of the comparison behind the flags. After an instruction
each place has a single `Origin`: either the instruction makes its content without looking at the
state, or the content comes from one place of the state before, as it is or through an address
computation. Which of the two it is does not depend on the state: `traceable_step` gives one
description for every state that an instruction may start from.
-/

namespace MethodLift

/-! ## Places and contents -/

/-- A place of the machine state. -/
inductive Location where
  | register (name : String)
  | slot (slot : Slot)
  /-- Pushed values, the last one at depth zero. -/
  | pushed (depth : Nat)
  /-- What the comparison behind the flags looks like, without its values. -/
  | shape
  | left
  | right
  deriving DecidableEq, Repr

inductive Content where
  | value (v : Value)
  /-- The texts of the two sides, and whether the flags come from comparing them. -/
  | shape (left right : String) (modeled : Bool)
  deriving DecidableEq, Repr

def Content.value? : Content → Option Value
  | value v => some v
  | shape .. => none

theorem Content.map_value_inj {v w : Option Value} :
    v.map Content.value = w.map Content.value ↔ v = w := by
  cases v <;> cases w <;> simp

namespace Machine

/-- What is known to stand in a place. -/
def content (m : Machine) : Location → Option Content
  | .register r => (m.registers.get? r).map .value
  | .slot slot => (m.stack.get? slot).map .value
  | .pushed depth => m.pushed[depth]?.join.map .value
  | .shape => m.comparison.map fun c => .shape c.left.origin c.right.origin c.modeled
  | .left => (m.comparison.bind fun c => c.left.value).map .value
  | .right => (m.comparison.bind fun c => c.right.value).map .value

variable (m : Machine)

theorem content_setRegister (r : String) (v : Option Value) (x : Location) :
    (m.setRegister r v).content x = if x = .register r then v.map .value else m.content x := by
  cases x with
  | register q =>
    simp only [content, get?_setRegister, Location.register.injEq]
    split <;> rfl
  | slot _ | pushed _ | shape | left | right => simp [content]

theorem content_setSlot (slot : Slot) (v : Option Value) (x : Location) :
    (m.setSlot slot v).content x = if x = .slot slot then v.map .value else m.content x := by
  cases x with
  | slot q =>
    simp only [content, get?_setSlot, Location.slot.injEq]
    split <;> rfl
  | register _ | pushed _ | shape | left | right => simp [content]

/-- What two states agree on, both hold. -/
theorem content_join {n : Machine} {x : Location} {c : Content}
    (h : (m.join n).content x = some c) : m.content x = some c ∧ n.content x = some c := by
  cases x with
  | register r =>
    obtain ⟨v, hv, rfl⟩ := Option.map_eq_some_iff.mp h
    obtain ⟨hm, hn⟩ := (FinMap.get?_agree _ _ _ _).mp hv
    simp [content, hm, hn]
  | slot r =>
    obtain ⟨v, hv, rfl⟩ := Option.map_eq_some_iff.mp h
    obtain ⟨hm, hn⟩ := (FinMap.get?_agree _ _ _ _).mp hv
    simp [content, hm, hn]
  | pushed depth =>
    simp only [content, join] at h ⊢
    split at h
    · rename_i heq
      exact ⟨h, heq ▸ h⟩
    · simp at h
  | shape | left | right =>
    simp only [content, join] at h ⊢
    split at h
    · rename_i heq
      exact ⟨h, heq ▸ h⟩
    · simp at h

/-- A comparison is known by its shape and its two sides. -/
theorem comparison_eq_iff {n : Machine} : n.comparison = m.comparison ↔
    n.content .shape = m.content .shape ∧ n.content .left = m.content .left ∧
      n.content .right = m.content .right := by
  constructor
  · intro h
    simp [content, h]
  · rintro ⟨hs, hl, hr⟩
    simp only [content] at hs hl hr
    cases hm : m.comparison with
    | none => simpa [hm] using hs
    | some c =>
      cases hn : n.comparison with
      | none => simp [hm, hn] at hs
      | some d =>
        obtain ⟨⟨lo, lv⟩, ⟨ro, rv⟩, modeled⟩ := c
        obtain ⟨⟨lo', lv'⟩, ⟨ro', rv'⟩, modeled'⟩ := d
        simp only [hm, hn, Option.map_some, Option.some.injEq, Content.shape.injEq] at hs
        simp only [hm, hn, Option.bind_some] at hl hr
        obtain ⟨rfl, rfl, rfl⟩ := hs
        rw [Content.map_value_inj.mp hl, Content.map_value_inj.mp hr]

end Machine

/-! ## Origins -/

/-- Where the content of a place comes from. -/
inductive Origin where
  /-- From a place of the state before, through a function. -/
  | taken (x : Location) (f : Content → Option Content)
  /-- From the instruction, whatever the state. -/
  | made (c : Option Content)

namespace Origin

/-- What a place with this origin holds after a step from `m`. -/
def content (m : Machine) : Origin → Option Content
  | taken x f => (m.content x).bind f
  | made c => c

/-- The content of a place as it is. -/
def same (x : Location) : Origin := taken x some

def ofValue (v : Option Value) : Origin := made (v.map .value)

/-- The value behind one more function. -/
def through (f : Value → Option Value) : Origin → Origin
  | taken x g => taken x fun c => ((g c).bind Content.value?).bind fun v => (f v).map .value
  | made c => made ((c.bind Content.value?).bind fun v => (f v).map .value)

@[simp] theorem content_same (m : Machine) (x : Location) : (same x).content m = m.content x := by
  simp [same, content]

@[simp] theorem content_ofValue (m : Machine) (v : Option Value) :
    (ofValue v).content m = v.map .value := rfl

theorem content_through {m : Machine} {o : Origin} {v : Option Value}
    (h : o.content m = v.map .value) (f : Value → Option Value) :
    (o.through f).content m = (v.bind f).map .value := by
  cases o with
  | taken x g =>
    have : (m.content x).bind
        (fun c => ((g c).bind Content.value?).bind fun v => (f v).map .value) =
        (((m.content x).bind g).bind Content.value?).bind fun v => (f v).map Content.value := by
      cases m.content x <;> rfl
    simp only [through, content, this]
    simp only [content] at h
    rw [h]
    cases v <;> rfl
  | made c =>
    simp only [content] at h
    simp only [through, content, h]
    cases v <;> rfl

end Origin

/-- The origins in which nothing changes. -/
def Origin.still : Location → Origin := same

/-- The origins in which place `x` is written and all else is as in `rest`. -/
def Origin.write (x : Location) (o : Origin) (rest : Location → Origin) (y : Location) : Origin :=
  if y = x then o else rest y

/-- The origins in which the flags are forgotten and all else is as in `rest`. -/
def Origin.forget (rest : Location → Origin) : Location → Origin
  | .shape | .left | .right => made none
  | y => rest y

/-- `o` says of every place where its content comes from in a step from `m` to `m'`. -/
def Origin.Describes (o : Location → Origin) (m m' : Machine) : Prop :=
  ∀ y, m'.content y = (o y).content m

namespace Origin.Describes

variable {o : Location → Origin} {m m' : Machine}

theorem still (m : Machine) : Describes Origin.still m m := fun y => (content_same m y).symm

theorem setRegister (h : Describes o m m') (r : String) {v : Option Value} {p : Origin}
    (hv : p.content m = v.map .value) :
    Describes (write (.register r) p o) m (m'.setRegister r v) := by
  intro y
  rw [Machine.content_setRegister, write]
  split
  · exact hv.symm
  · exact h y

theorem setSlot (h : Describes o m m') (slot : Slot) {v : Option Value} {p : Origin}
    (hv : p.content m = v.map .value) :
    Describes (write (.slot slot) p o) m (m'.setSlot slot v) := by
  intro y
  rw [Machine.content_setSlot, write]
  split
  · exact hv.symm
  · exact h y

theorem forget (h : Describes o m m') :
    Describes (Origin.forget o) m { m' with comparison := none } := by
  intro y
  cases y with
  | register r => exact h (.register r)
  | slot slot => exact h (.slot slot)
  | pushed depth => exact h (.pushed depth)
  | shape | left | right => rfl

end Origin.Describes

namespace Setting

variable (s : Setting) (ls : Locals) (fresh : Nat) (i : Instruction)

/-! ## Operands and addresses -/

def registerOrigin (r : String) : Origin :=
  if s.isa.family r = zeroRegister then .ofValue (some (.integer 0 (s.isa.width r)))
  else .same (.register (s.isa.family r))

def operandOrigin (width : Nat) : Operand → Origin
  | .register r => s.registerOrigin r
  | .immediate v => .ofValue (some (.integer v width))
  | .memory _ | .other _ => .ofValue none

def argumentOrigin (position : Nat) : Origin :=
  match s.convention.arguments[position]? with
  | some r => s.registerOrigin r
  | none => .ofValue none

/-- What a memory reference leans on: nothing but the instruction, or the content of a register. -/
inductive Anchor where
  | fixed (place : Place)
  | base (register : String)

def anchor (ref : Memory) : Anchor :=
  if ref.segment.isSome || ref.index.isSome then .fixed .unknown
  else
    match ref.base with
    | none => .fixed (.global ref.displacement.toUInt64)
    | some base =>
      if base = "rip" then .fixed (.global (i.next + ref.displacement.toUInt64))
      else if s.isFrame base then .fixed (.stack (s.isa.family base, ref.displacement))
      else .base (s.isa.family base)

/-- The place that a reference points to when its base holds a value. -/
def placeFrom (ref : Memory) : Value → Place
  | .constant c =>
    match c.integer? with
    | some a => .global (a.toUInt64 + ref.displacement.toUInt64)
    | none => .unknown
  | v => .relative v ref.displacement

/-- The place that a reference points to, from its anchor. -/
def placeAt (m : Machine) (ref : Memory) : Anchor → Place
  | .fixed place => place
  | .base r => ((m.registers.get? r).map (placeFrom ref)).getD .unknown

variable {s ls fresh i} {m : Machine}

theorem content_registerOrigin (r : String) :
    (s.registerOrigin r).content m = (s.readRegister m r).value.map .value := by
  unfold registerOrigin readRegister
  split
  · rfl
  · simp [Machine.content]

theorem content_operandOrigin (width : Nat) (operand : Operand) :
    (s.operandOrigin width operand).content m = (s.input m width operand).value.map .value := by
  cases operand with
  | register r => exact content_registerOrigin r
  | immediate v => rfl
  | memory ref => rfl
  | other text => rfl

theorem content_argumentOrigin (position : Nat) :
    (s.argumentOrigin position).content m = (s.argument m position).value.map .value := by
  unfold argumentOrigin argument
  cases s.convention.arguments[position]? with
  | some r => exact content_registerOrigin r
  | none => rfl

theorem place_eq (ref : Memory) : s.place m i ref = placeAt m ref (s.anchor i ref) := by
  unfold place anchor
  by_cases hs : (ref.segment.isSome || ref.index.isSome) = true
  · rw [if_pos hs, if_pos hs]
    rfl
  · rw [if_neg hs, if_neg hs]
    cases ref.base with
    | none => rfl
    | some base =>
      by_cases hrip : base = "rip"
      · simp only [if_pos hrip]
        rfl
      · by_cases hframe : s.isFrame base = true
        · simp only [if_neg hrip, if_pos hframe]
          rfl
        · simp only [if_neg hrip, if_neg hframe, placeAt]
          cases m.registers.get? (s.isa.family base) with
          | none => rfl
          | some v => cases v <;> rfl

/-- What is read at a place, given what is read in a stack slot and what is read elsewhere. -/
def readAt (onStack : Slot → Option Value) (elsewhere : Place → Option Value) : Place → Option Value
  | .stack slot => onStack slot
  | place => elsewhere place

/-- The origin of a value read through a reference. -/
def readOrigin (ref : Memory) (onStack : Slot → Origin) (elsewhere : Place → Option Value) :
    Anchor → Origin
  | .fixed (.stack slot) => onStack slot
  | .fixed place => .ofValue (elsewhere place)
  | .base r => (Origin.same (.register r)).through fun v => elsewhere (placeFrom ref v)

theorem placeFrom_ne_stack (ref : Memory) (v : Value) (slot : Slot) :
    placeFrom ref v ≠ .stack slot := by
  unfold placeFrom
  split
  · split <;> simp
  · simp

theorem content_readOrigin {ref : Memory} (onStack : Slot → Origin) {h : Slot → Option Value}
    {elsewhere : Place → Option Value} (hunknown : elsewhere .unknown = none)
    (hstack : ∀ slot, (onStack slot).content m = (h slot).map .value) (a : Anchor) :
    (readOrigin ref onStack elsewhere a).content m =
      (readAt h elsewhere (placeAt m ref a)).map .value := by
  cases a with
  | fixed place =>
    cases place with
    | stack slot => exact hstack slot
    | global a => rfl
    | relative b offset => rfl
    | unknown => rfl
  | base r =>
    have hr : (Origin.same (.register r)).content m = (m.registers.get? r).map .value := by
      simp [Machine.content]
    rw [readOrigin, Origin.content_through hr, placeAt]
    cases m.registers.get? r with
    | none => simp [hunknown, readAt]
    | some v =>
      simp only [Option.bind_some, Option.map_some, Option.getD_some]
      cases hp : placeFrom ref v with
      | stack slot => exact absurd hp (placeFrom_ne_stack ref v slot)
      | global a => rfl
      | relative b offset => rfl
      | unknown => rfl

/-! ## Moves, loads and stores -/

/-- One description of where contents come from serves every state that a step may start from. -/
def Traceable (after : Machine → Machine) : Prop :=
  ∃ o : Location → Origin, ∀ m, Origin.Describes o m (after m)

theorem traceable_still : Traceable fun m => m := ⟨Origin.still, .still⟩

theorem traceable_bind (r : String) {v : Machine → Option Value} {o : Origin}
    (h : ∀ m, o.content m = (v m).map .value) : Traceable fun m => s.bind m r (v m) :=
  ⟨_, fun m => (Origin.Describes.still m).setRegister _ (h m)⟩

theorem traceable_move : Traceable fun m => (s.stepMove fresh m i).machine := by
  unfold stepMove
  split
  · rename_i register source he
    by_cases hf : s.isFrame register = true
    · simp only [hf, if_true]
      exact traceable_still
    · simp only [hf, if_false, Bool.false_eq_true]
      split
      · exact traceable_bind register fun m => Origin.content_ofValue m _
      · split
        · exact traceable_bind register fun m => Origin.content_ofValue m _
        · rename_i r
          by_cases hr : s.isFrame r = true
          · simp only [hr, if_true]
            exact traceable_bind register fun m => Origin.content_ofValue m none
          · simp only [hr, if_false, Bool.false_eq_true]
            exact traceable_bind register fun m => content_registerOrigin r
        · exact traceable_still
  · exact traceable_still

/-- The value that a load gives to its register, away from the stack. -/
def loaded (s : Setting) (ls : Locals) (fresh : Nat) : Place → Option Value
  | .global address =>
    ((s.symbols.classAt? address).map Value.classPointer) <|>
      ((s.symbols.stringAt? address).map fun text => Value.constant (.string text))
  | .relative (.classPointer d) offset =>
    if offset = staticFieldsOffset then some (.staticFields d)
    else (s.fieldAt? ls (.classPointer d) offset).map fun _ => .local fresh
  | .relative base offset => (s.fieldAt? ls base offset).map fun _ => .local fresh
  | _ => none

theorem machine_loadField (register : String) (ref : Memory) (base : Value) (offset : Int64) :
    (s.loadField ls fresh m register ref base offset).machine =
      s.bind m register ((s.fieldAt? ls base offset).map fun _ => .local fresh) := by
  unfold loadField
  cases s.fieldAt? ls base offset <;> rfl

theorem machine_loadFrom (register : String) (ref : Memory) (p : Place) :
    (s.loadFrom ls fresh m register ref p).machine =
      s.bind m register (readAt (fun slot => m.stack.get? slot) (s.loaded ls fresh) p) := by
  cases p with
  | stack slot => rfl
  | global a => rfl
  | relative base offset =>
    cases base with
    | classPointer d =>
      simp only [loadFrom, readAt, loaded]
      split
      · rfl
      · exact machine_loadField register ref _ offset
    | «local» id => exact machine_loadField register ref _ offset
    | constant c => exact machine_loadField register ref _ offset
    | field o f => exact machine_loadField register ref _ offset
    | staticFields d => exact machine_loadField register ref _ offset
  | unknown => rfl

theorem traceable_load : Traceable fun m => (s.stepLoad ls fresh m i).machine := by
  unfold stepLoad
  split
  · rename_i register sources he
    split
    · rename_i ref href
      by_cases hf : s.isFrame register = true
      · simp only [hf, if_true]
        exact traceable_still
      · simp only [hf, if_false, Bool.false_eq_true, machine_loadFrom, place_eq]
        exact traceable_bind register fun m =>
          content_readOrigin (fun slot => .same (.slot slot)) rfl
            (fun slot => Origin.content_same m _) (s.anchor i ref)
    · exact traceable_still
  · exact traceable_still

/-- A reference points to a stack slot only if the instruction says so. -/
theorem fixed_of_placeAt {ref : Memory} {a : Anchor} {slot : Slot}
    (h : placeAt m ref a = .stack slot) : a = .fixed (.stack slot) := by
  cases a with
  | fixed place => exact congrArg Anchor.fixed h
  | base r =>
    rw [placeAt] at h
    cases hr : m.registers.get? r with
    | none => rw [hr] at h; cases h
    | some v => rw [hr] at h; exact absurd h (placeFrom_ne_stack ref v slot)

theorem traceable_store : Traceable fun m => (s.stepStore ls m i).machine := by
  unfold stepStore
  cases storeOperands? i.operands with
  | none => exact traceable_still
  | some operands =>
    obtain ⟨ref, source⟩ := operands
    simp only [place_eq]
    by_cases h : ∃ slot, s.anchor i ref = .fixed (.stack slot)
    · obtain ⟨slot, h⟩ := h
      simp only [h, placeAt]
      exact ⟨_, fun m => (Origin.Describes.still m).setSlot slot (content_operandOrigin _ source)⟩
    · refine ⟨Origin.still, fun m => ?_⟩
      dsimp only
      split
      · rename_i slot hp
        exact absurd ⟨slot, fixed_of_placeAt hp⟩ h
      · exact .still m
      · exact .still m
      · exact .still m

/-- The constant that an address computation gives to its register, away from the stack. -/
def addressAt : Place → Option Value
  | .global a => some (.constant (.int64 a.toInt64))
  | _ => none

theorem machine_loadAddress {register : String} {sources : List Operand}
    (h : i.operands = .register register :: sources) (hf : s.isFrame register = false) :
    (s.stepLoadAddress m i).machine = s.bind m register
      ((s.addressOf? m i sources.head?).map fun a => .constant (.int64 a.toInt64)) := by
  simp only [stepLoadAddress, h, hf, Bool.false_eq_true, if_false]
  cases s.addressOf? m i sources.head? <;> rfl

theorem address_memory (ref : Memory) :
    (s.addressOf? m i (some (.memory ref))).map (fun a => .constant (.int64 a.toInt64)) =
      readAt (fun _ => none) addressAt (s.place m i ref) := by
  simp only [addressOf?]
  cases s.place m i ref <;> rfl

theorem traceable_loadAddress : Traceable fun m => (s.stepLoadAddress m i).machine := by
  by_cases h : ∃ register sources, i.operands = .register register :: sources ∧
      s.isFrame register = false
  · obtain ⟨register, sources, h, hf⟩ := h
    simp only [machine_loadAddress h hf]
    rcases sources.head? with _ | source
    · exact traceable_bind register fun m => Origin.content_ofValue m none
    · cases source with
      | immediate v => exact traceable_bind register fun m => Origin.content_ofValue m _
      | memory ref =>
        simp only [address_memory, place_eq]
        exact traceable_bind register fun m =>
          content_readOrigin (fun _ => .ofValue none) rfl
            (fun slot => Origin.content_ofValue m none) (s.anchor i ref)
      | register r => exact traceable_bind register fun m => Origin.content_ofValue m none
      | other text => exact traceable_bind register fun m => Origin.content_ofValue m none
  · unfold stepLoadAddress
    split
    · rename_i register sources he
      have hf : s.isFrame register = true := by
        cases hb : s.isFrame register with
        | true => rfl
        | false => exact absurd ⟨register, sources, he, hb⟩ h
      simp only [hf, if_true]
      exact traceable_still
    · exact traceable_still

/-! ## Pushed values -/

/-- The origins after a push. -/
def pushOrigin (o : Origin) : Location → Origin
  | .pushed 0 => o
  | .pushed (depth + 1) => .same (.pushed depth)
  | y => .same y

/-- The origins after a pop whose value goes nowhere. -/
def popOrigin : Location → Origin
  | .pushed depth => .same (.pushed (depth + 1))
  | y => .same y

theorem traceable_push : Traceable fun m => (s.stepPush m i).machine := by
  let first : Origin := (i.operands.head?.map (s.operandOrigin 64)).getD (.ofValue none)
  have hfirst : ∀ m, first.content m =
      (i.operands.head?.bind fun operand => (s.input m 64 operand).value).map .value := by
    intro m
    cases h : i.operands.head? with
    | none => simp [first, h]
    | some operand => simpa [first, h] using content_operandOrigin 64 operand
  refine ⟨pushOrigin first, fun m y => ?_⟩
  cases y with
  | pushed depth =>
    cases depth with
    | zero => simpa [pushOrigin, stepPush, Machine.push, Machine.content] using (hfirst m).symm
    | succ depth => simp [pushOrigin, stepPush, Machine.push, Machine.content]
  | register _ | slot _ | shape | left | right =>
    simp [pushOrigin, stepPush, Machine.push, Machine.content]

theorem describes_pop (m : Machine) : Origin.Describes popOrigin m m.pop.2 := by
  intro y
  unfold Machine.pop
  cases h : m.pushed <;> cases y <;> simp [popOrigin, Machine.content, h]

theorem content_pop (m : Machine) : m.content (.pushed 0) = m.pop.1.map .value := by
  unfold Machine.pop
  cases h : m.pushed <;> simp [Machine.content, h]

theorem traceable_pop : Traceable fun m => (s.stepPop m i).machine := by
  unfold stepPop
  split
  · rename_i register rest he
    cases hf : s.isFrame register with
    | true =>
      simp only [if_true]
      exact ⟨popOrigin, describes_pop⟩
    | false =>
      exact ⟨_, fun m => (describes_pop m).setRegister (s.isa.family register)
        ((Origin.content_same m (.pushed 0)).trans (content_pop m))⟩
  · exact ⟨popOrigin, describes_pop⟩

/-! ## Arithmetic and comparisons -/

/-- Whether an arithmetic instruction has two operands shows in its text. -/
theorem isSome_arithmeticInputs? (op : ArithmeticOp) (width : Nat) (operands : List Operand) :
    (s.arithmeticInputs? m op width operands).isSome =
      (s.arithmeticInputs? {} op width operands).isSome := by
  unfold arithmeticInputs?
  split
  · split <;> rfl
  · rfl
  · rfl
  · rfl

theorem traceable_arithmetic (op : ArithmeticOp) :
    Traceable fun m => (s.stepArithmetic fresh m i op).machine := by
  have forgotten : Traceable fun m => { m with comparison := none } :=
    ⟨_, fun m => (Origin.Describes.still m).forget⟩
  have bound : ∀ register v, Traceable fun m =>
      s.bind { m with comparison := none } register (some v) := fun register v =>
    ⟨_, fun m => (Origin.Describes.still m).forget.setRegister _
      (Origin.content_ofValue m (some v))⟩
  unfold stepArithmetic
  split
  · rename_i register rest he
    by_cases hf : s.isFrame register = true
    · simp only [hf, if_true]
      exact forgotten
    · by_cases hz : s.isZeroing op register i.operands = true
      · simp only [hf, hz, if_true, if_false, Bool.false_eq_true]
        exact bound register _
      · simp only [hf, hz, if_false, Bool.false_eq_true]
        cases hi : (s.arithmeticInputs? {} op (s.isa.width register) i.operands).isSome with
        | true =>
          have hm : ∀ m : Machine, ∃ left right,
              s.arithmeticInputs? { m with comparison := none } op (s.isa.width register)
                i.operands = some (left, right) := by
            intro m
            obtain ⟨⟨left, right⟩, h⟩ :=
              Option.isSome_iff_exists.mp ((isSome_arithmeticInputs? _ _ _).trans hi)
            exact ⟨left, right, h⟩
          refine (bound register (.local fresh)).imp fun o h m => ?_
          obtain ⟨left, right, hlr⟩ := hm m
          simp only [hlr]
          exact h m
        | false =>
          refine forgotten.imp fun o h m => ?_
          have hm : s.arithmeticInputs? { m with comparison := none } op (s.isa.width register)
              i.operands = none := by
            rw [← Option.not_isSome_iff_eq_none, isSome_arithmeticInputs?, hi]
            simp
          simp only [hm]
          exact h m
  · exact traceable_still

/-- The origins after a comparison: its shape, its sides, and all else as before. -/
def compareOrigin (shape : Content) (left right : Origin) : Location → Origin
  | .shape => .made (some shape)
  | .left => left
  | .right => right
  | y => .same y

theorem describes_compare {c : Comparison} {left right : Origin}
    (hl : left.content m = c.left.value.map .value)
    (hr : right.content m = c.right.value.map .value) :
    Origin.Describes (compareOrigin (.shape c.left.origin c.right.origin c.modeled) left right) m
      { m with comparison := some c } := by
  intro y
  cases y with
  | shape => rfl
  | left => exact hl.symm
  | right => exact hr.symm
  | register r => exact (Origin.content_same m (.register r)).symm
  | slot slot => exact (Origin.content_same m (.slot slot)).symm
  | pushed depth => exact (Origin.content_same m (.pushed depth)).symm

/-- The text an operand was read from does not depend on the state. -/
theorem origin_input (width : Nat) (operand : Operand) :
    (s.input m width operand).origin = (s.input {} width operand).origin := by
  cases operand with
  | register r =>
    simp only [input, readRegister]
    split <;> rfl
  | immediate v => rfl
  | memory ref => rfl
  | other text => rfl

theorem traceable_compare :
    Traceable fun m => { m with comparison := s.comparisonOf m i.operands } := by
  unfold comparisonOf
  split
  · rename_i a b rest he
    refine ⟨compareOrigin (.shape (s.input {} (s.operandWidth a) a).origin
      (s.input {} (s.operandWidth a) b).origin rest.isEmpty) (s.operandOrigin (s.operandWidth a) a)
      (s.operandOrigin (s.operandWidth a) b), fun m => ?_⟩
    rw [← origin_input (m := m), ← origin_input (m := m) _ b]
    exact describes_compare (content_operandOrigin _ a) (content_operandOrigin _ b)
  · exact ⟨_, fun m => (Origin.Describes.still m).forget⟩

theorem traceable_test : Traceable fun m => { m with comparison := s.testOf m i.operands } := by
  unfold testOf
  split
  · rename_i a b rest he
    refine ⟨compareOrigin (.shape (s.input {} (s.operandWidth a) a).origin b.render
      (s.isSameRegister a b)) (s.operandOrigin (s.operandWidth a) a)
      (.ofValue (some (.integer 0 (s.operandWidth a)))), fun m => ?_⟩
    rw [← origin_input (m := m)]
    exact describes_compare (content_operandOrigin _ a) rfl
  · exact ⟨_, fun m => (Origin.Describes.still m).forget⟩

/-! ## Calls -/

/-- The origins after a call that gives back nothing. -/
def clobberOrigin (volatile : List String) : Location → Origin
  | .register r => if r ∈ volatile then .made none else .same (.register r)
  | .shape | .left | .right => .made none
  | y => .same y

theorem describes_clobber (m : Machine) :
    Origin.Describes (clobberOrigin s.convention.volatile) m (s.clobber m) := by
  intro y
  cases y with
  | register r =>
    simp only [clobber, Machine.clobber, Machine.content, FinMap.get?_foldl_erase, clobberOrigin]
    split
    · rfl
    · exact (Origin.content_same m (.register r)).symm
  | slot slot => exact (Origin.content_same m (.slot slot)).symm
  | pushed depth => exact (Origin.content_same m (.pushed depth)).symm
  | shape | left | right => rfl

theorem traceable_clobber : Traceable fun m => s.clobber m := ⟨_, describes_clobber⟩

theorem traceable_managedCall (target : UInt64) :
    Traceable fun m => (s.stepManagedCall fresh m target).machine := by
  unfold stepManagedCall
  cases s.symbols.methodAt? target with
  | none => exact traceable_clobber
  | some callee =>
    by_cases hv : callee.returnsVoid = true
    · simp only [hv, if_true]
      exact traceable_clobber
    · simp only [hv, if_false, Bool.false_eq_true]
      exact ⟨_, fun m => (describes_clobber m).setRegister _ (Origin.content_ofValue m _)⟩

theorem traceable_jump : Traceable fun m => (s.stepJump fresh m i).machine := by
  unfold stepJump
  cases i.target? with
  | none => exact traceable_still
  | some target =>
    by_cases h : (!s.isInside target && (s.symbols.methodAt? target).isSome) = true
    · simp only [h, if_true]
      exact traceable_managedCall target
    · simp only [h, if_false, Bool.false_eq_true]
      exact traceable_still

/-- A call may overwrite the register that its result comes in. -/
def ResultIsVolatile (s : Setting) : Prop :=
  s.isa.family s.convention.result ∈ s.convention.volatile

/-- The local that a helper makes for a new object, if it was given a class. -/
def allocatedLocal (fresh : Nat) : Value → Option Value
  | .classPointer _ => some (.local fresh)
  | _ => none

/-- A helper is given a class, or makes nothing. -/
theorem classOf?_cases (input : Input) (fresh : Nat) :
    (∃ d, input.value = some (.classPointer d) ∧ classOf? input = some d) ∨
      (input.value.bind (allocatedLocal fresh) = none ∧ classOf? input = none) := by
  unfold classOf?
  rcases input.value with _ | v
  · exact .inr ⟨rfl, rfl⟩
  · cases v with
    | classPointer d => exact .inl ⟨d, rfl, rfl⟩
    | «local» _ | constant _ | field _ _ | staticFields _ => exact .inr ⟨rfl, rfl⟩

theorem traceable_allocated (hr : s.ResultIsVolatile) {effect : Machine → Option Nat → Effect}
    {type : Signature → Signature} :
    Traceable fun m =>
      (s.allocated fresh m (effect m) type (classOf? (s.argument m 0))).machine := by
  refine ⟨Origin.write (.register (s.isa.family s.convention.result))
    ((s.argumentOrigin 0).through (allocatedLocal fresh)) (clobberOrigin s.convention.volatile),
    fun m y => ?_⟩
  have hresult := Origin.content_through (content_argumentOrigin (s := s) (m := m) 0)
    (allocatedLocal fresh)
  rcases classOf?_cases (s.argument m 0) fresh with ⟨d, hv, hd⟩ | ⟨hv, hd⟩
  · rw [hv] at hresult
    simp only [hd]
    exact (describes_clobber m).setRegister _ hresult y
  · simp only [hd]
    -- Without a class the result register is as unknown as any other that the call overwrites.
    rw [Origin.write]
    split
    · rename_i hy
      have hvolatile := describes_clobber (s := s) m (.register (s.isa.family s.convention.result))
      rw [clobberOrigin, if_pos (show _ ∈ _ from hr)] at hvolatile
      rw [hresult, hv, hy]
      exact hvolatile
    · exact describes_clobber m y

theorem traceable_helper (hr : s.ResultIsVolatile) (helper : Helper) :
    Traceable fun m => (s.stepHelper fresh m helper).machine := by
  cases helper with
  | objectNew => exact traceable_allocated hr
  | arrayNew => exact traceable_allocated hr
  | initializeMethod | runtimeClassInit | raiseException | raiseIndexOutOfRange
  | raiseNullReference => exact traceable_clobber

theorem traceable_call (hr : s.ResultIsVolatile) :
    Traceable fun m => (s.stepCall fresh m i).machine := by
  unfold stepCall
  cases i.target? with
  | none => exact traceable_clobber
  | some target =>
    cases h : s.helpers.helperAt? target with
    | some helper =>
      simp only [h]
      exact traceable_helper hr helper
    | none =>
      simp only [h]
      exact traceable_managedCall target

theorem traceable_unknown : Traceable fun m => (s.stepUnknown m i).machine := by
  unfold stepUnknown
  split
  · rename_i register rest he
    exact ⟨_, fun m => ((Origin.Describes.still m).setRegister (s.isa.family register)
      (Origin.content_ofValue m none)).forget⟩
  · exact ⟨_, fun m => (Origin.Describes.still m).forget⟩

/-- An instruction moves contents in the same way whatever the state is. -/
theorem traceable_step (hr : s.ResultIsVolatile) :
    Traceable fun m => (s.step ls fresh m i).machine := by
  unfold step
  cases s.isa.kind i with
  | move => exact traceable_move
  | load => exact traceable_load
  | store => exact traceable_store
  | loadAddress => exact traceable_loadAddress
  | arithmetic op => exact traceable_arithmetic op
  | compare => exact traceable_compare
  | test => exact traceable_test
  | jump => exact traceable_jump
  | call => exact traceable_call hr
  | indirectCall => exact traceable_clobber
  | push => exact traceable_push
  | pop => exact traceable_pop
  | unknown => exact traceable_unknown
  | nop | trap | conditionalJump _ | compareZeroAndBranch _ | indirectJump | ret | invalid =>
    exact traceable_still

end Setting

end MethodLift
