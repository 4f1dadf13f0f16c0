import MethodLift.Proofs.EmittedCode
import MethodLift.Proofs.Provenance

/-!
# The places that show in the body

What an instruction adds to the body is written from the contents of a few places: its source
registers, the base of its address, the arguments of a call, the comparison behind the flags.
`Setting.operands` lists them. They are exactly what matters: if what an instruction adds has code
and shows, all of them are known, and in any other state the instruction adds the same if and only
if that state holds the same in them (`determines_step`).
-/

namespace MethodLift

/-! ## Reading from places -/

/-- The two states hold the same in the given places. -/
def Machine.AgreeOn (places : List Location) (m n : Machine) : Prop :=
  ∀ x ∈ places, n.content x = m.content x

/-- The state knows what stands in the given places. -/
def Machine.Knows (m : Machine) (places : List Location) : Prop :=
  ∀ x ∈ places, (m.content x).isSome = true

namespace Machine

variable {p q : List Location} {m n : Machine}

@[simp] theorem agreeOn_nil : AgreeOn [] m n := by simp [AgreeOn]

@[simp] theorem agreeOn_append : AgreeOn (p ++ q) m n ↔ AgreeOn p m n ∧ AgreeOn q m n := by
  simp [AgreeOn, or_imp, forall_and]

@[simp] theorem agreeOn_flatMap {α : Type} {l : List α} {f : α → List Location} :
    AgreeOn (l.flatMap f) m n ↔ ∀ a ∈ l, AgreeOn (f a) m n := by
  simp only [AgreeOn, List.mem_flatMap]
  exact ⟨fun h a ha x hx => h x ⟨a, ha, hx⟩, fun h x ⟨a, ha, hx⟩ => h a ha x hx⟩

@[simp] theorem knows_nil : m.Knows [] := by simp [Knows]

@[simp] theorem knows_append : m.Knows (p ++ q) ↔ m.Knows p ∧ m.Knows q := by
  simp [Knows, or_imp, forall_and]

end Machine

/-- What is read is fixed by the contents of the places, and fixes them. -/
def ReadsFrom {α : Type} (read : Machine → α) (places : List Location) : Prop :=
  ∀ m n, read n = read m ↔ Machine.AgreeOn places m n

namespace ReadsFrom

variable {α β : Type}

theorem const (a : α) : ReadsFrom (fun _ => a) [] := fun m n => by simp

theorem pair {f : Machine → α} {g : Machine → β} {p q : List Location} (hf : ReadsFrom f p)
    (hg : ReadsFrom g q) : ReadsFrom (fun m => (f m, g m)) (p ++ q) := by
  intro m n
  rw [Prod.mk.injEq, hf m n, hg m n, Machine.agreeOn_append]

theorem map {γ : Type} {f : γ → Machine → α} {p : γ → List Location} (l : List γ)
    (h : ∀ c ∈ l, ReadsFrom (f c) (p c)) : ReadsFrom (fun m => l.map (f · m)) (l.flatMap p) := by
  intro m n
  rw [List.map_inj_left, Machine.agreeOn_flatMap]
  exact forall₂_congr fun c hc => h c hc m n

end ReadsFrom

/-- The effects have code, and one of them shows. -/
structure Emitted (ls : Locals) (es : List Effect) : Prop where
  code : ∀ e ∈ es, ∃ code, e.bytecode ls = .ok code
  shows : ∃ e ∈ es, e.isImportant = true

namespace Emitted

variable {ls : Locals} {e : Effect}

theorem not_nil (h : Emitted ls []) : False := by
  obtain ⟨e, he, -⟩ := h.shows
  simp at he

theorem not_bookkeeping (h : Emitted ls [e]) (he : e.isImportant = false) : False := by
  obtain ⟨f, hf, hi⟩ := h.shows
  rw [List.mem_singleton.mp hf, he] at hi
  cases hi

theorem emits (h : Emitted ls [e]) : ∃ code, e.Emits ls code := by
  obtain ⟨code, hc⟩ := h.code e (List.mem_singleton_self e)
  exact ⟨code, emits_of_bytecode hc⟩

theorem not_unmodeled {i : Instruction} {what : String} (h : Emitted ls [i.unmodeled what]) :
    False := by
  obtain ⟨code, hc⟩ := h.emits
  cases hc with
  | bookkeeping hb => cases hb

end Emitted

/-- The places are known in state `m`, and a state adds the same if and only if it agrees on
them. -/
structure Determines (effects : Machine → List Effect) (places : List Location) (m : Machine) :
    Prop where
  known : m.Knows places
  eq_iff : ∀ n, effects n = effects m ↔ Machine.AgreeOn places m n

theorem Determines.const (es : List Effect) (m : Machine) : Determines (fun _ => es) [] m :=
  ⟨Machine.knows_nil, fun n => by simp⟩

/-- Effects written from something read, in a way that shows it. -/
theorem ReadsFrom.determines {α : Type} {read : Machine → α} {places : List Location}
    (hr : ReadsFrom read places) {m : Machine} (hk : m.Knows places) (E : α → List Effect)
    (hE : ∀ a, E a = E (read m) → a = read m) : Determines (fun n => E (read n)) places m :=
  ⟨hk, fun n => ⟨fun h => (hr m n).mp (hE _ h), fun h => congrArg E ((hr m n).mpr h)⟩⟩

namespace Input

variable {ls : Locals} {i : Input} {code : List Bytecode}

theorem isSome_of_load (h : i.load ls = .ok code) : i.value.isSome = true := by
  obtain ⟨v, hv, -⟩ := load_eq_ok_iff.mp h
  simp [hv]

end Input

theorem isSome_of_loadsTo {ls : Locals} {is : List Input} {codes : List (List Bytecode)}
    (h : LoadsTo ls is codes) : ∀ i ∈ is, i.value.isSome = true := by
  induction is generalizing codes with
  | nil => simp
  | cons i is ih =>
    cases codes with
    | nil => exact h.elim
    | cons c cs =>
      intro j hj
      rcases List.mem_cons.mp hj with rfl | hj
      · exact Input.isSome_of_load h.1
      · exact ih h.2 j hj

/-- Both sides of a comparison that has code are known. -/
theorem Comparison.Emits.known {ls : Locals} {c : Comparison} {target : UInt64}
    {condition : Condition} {code : List Bytecode} (h : c.Emits ls target condition code) :
    c.left.value.isSome = true ∧ c.right.value.isSome = true := by
  have zero : c.isWithZero = true → c.right.value.isSome = true := by
    intro hz
    unfold isWithZero at hz
    split at hz
    · rename_i k hk
      simp [hk]
    · cases hz
  cases h with
  | zero hz hl => exact ⟨Input.isSome_of_load hl, zero hz⟩
  | nonzero hz hl => exact ⟨Input.isSome_of_load hl, zero hz⟩
  | test _ hl hr _ => exact ⟨Input.isSome_of_load hl, Input.isSome_of_load hr⟩

namespace Setting

variable (s : Setting) (i : Instruction)

/-! ## Registers, operands and arguments -/

/-- The place that a register is read from; the zero register needs none. -/
def registerPlaces (r : String) : List Location :=
  if s.isa.family r = zeroRegister then [] else [.register (s.isa.family r)]

def operandPlaces : Operand → List Location
  | .register r => s.registerPlaces r
  | _ => []

def argumentPlaces (position : Nat) : List Location :=
  match s.convention.arguments[position]? with
  | some r => s.registerPlaces r
  | none => []

/-- The place that an argument is passed in. -/
def passedPlaces : ArgumentSlot → List Location
  | .register r => s.registerPlaces r
  | _ => []

variable {s i} {ls lf : Locals} {fresh : Nat} {m : Machine}

theorem readsFrom_register (r : String) :
    ReadsFrom (fun m => s.readRegister m r) (s.registerPlaces r) := by
  intro m n
  unfold readRegister registerPlaces
  split
  · simp
  · simp [Machine.AgreeOn, Machine.content, Content.map_value_inj]

theorem knows_register {r : String} (h : (s.readRegister m r).value.isSome = true) :
    m.Knows (s.registerPlaces r) := by
  unfold readRegister at h
  unfold registerPlaces
  split
  · exact Machine.knows_nil
  · rename_i hz
    rw [if_neg hz] at h
    simpa [Machine.Knows, Machine.content] using h

theorem readsFrom_operand (width : Nat) (operand : Operand) :
    ReadsFrom (fun m => s.input m width operand) (s.operandPlaces operand) := by
  cases operand with
  | register r => exact readsFrom_register r
  | immediate v => exact .const _
  | memory ref => exact .const _
  | other text => exact .const _

theorem knows_operand {width : Nat} {operand : Operand}
    (h : (s.input m width operand).value.isSome = true) : m.Knows (s.operandPlaces operand) := by
  cases operand with
  | register r => exact knows_register h
  | immediate v => exact Machine.knows_nil
  | memory ref => exact Machine.knows_nil
  | other text => exact Machine.knows_nil

theorem readsFrom_argument (position : Nat) :
    ReadsFrom (fun m => s.argument m position) (s.argumentPlaces position) := by
  unfold argument argumentPlaces
  cases s.convention.arguments[position]? with
  | some r => exact readsFrom_register r
  | none => exact .const _

theorem knows_argument {position : Nat} (h : (s.argument m position).value.isSome = true) :
    m.Knows (s.argumentPlaces position) := by
  unfold argument at h
  unfold argumentPlaces
  cases hr : s.convention.arguments[position]? with
  | some r =>
    rw [hr] at h
    exact knows_register h
  | none => exact Machine.knows_nil

theorem readsFrom_passed (slot : ArgumentSlot) (position : Nat) :
    ReadsFrom (fun m => s.passed m slot position) (s.passedPlaces slot) := by
  cases slot with
  | register r => exact readsFrom_register r
  | floatingPoint => exact .const _
  | stack => exact .const _

theorem knows_passed {slot : ArgumentSlot} {position : Nat}
    (h : (s.passed m slot position).value.isSome = true) : m.Knows (s.passedPlaces slot) := by
  cases slot with
  | register r => exact knows_register h
  | floatingPoint => exact Machine.knows_nil
  | stack => exact Machine.knows_nil

/-! ## Moves, loads and stores -/

/-- The place that a reference leans on. -/
def anchorPlaces : Anchor → List Location
  | .base r => [.register r]
  | .fixed _ => []

def movePlaces (s : Setting) (i : Instruction) : List Location :=
  match i.operands with
  | [_, source] => s.operandPlaces source
  | _ => []

def loadPlaces (s : Setting) (i : Instruction) : List Location :=
  match i.operands with
  | _ :: sources =>
    match sources.findSome? Operand.memory? with
    | some ref => anchorPlaces (s.anchor i ref)
    | none => []
  | [] => []

def storePlaces (s : Setting) (i : Instruction) : List Location :=
  match storeOperands? i.operands with
  | some (ref, source) => anchorPlaces (s.anchor i ref) ++ s.operandPlaces source
  | none => []

theorem determines_move (h : Emitted lf (s.stepMove fresh m i).effects) :
    Determines (fun n => (s.stepMove fresh n i).effects) (s.movePlaces i) m := by
  by_cases hx : ∃ register source signed, i.operands = [.register register, source] ∧
      s.isFrame register = false ∧ signedExtension? i.mnemonic = some signed
  · obtain ⟨register, source, signed, hi, hf, hs⟩ := hx
    simp only [stepMove, hi, hf, hs, Bool.false_eq_true, if_false, stepConvert] at h ⊢
    simp only [movePlaces, hi]
    have hk : m.Knows (s.operandPlaces source) := by
      obtain ⟨code, hc⟩ := h.emits
      cases hc with
      | convert hload _ => exact knows_operand (Input.isSome_of_load hload)
      | bookkeeping hb => cases hb
    exact (readsFrom_operand (s.operandWidth source) source).determines hk
      (fun a => [.convert a _ fresh]) fun a ha => by simpa using ha
  · -- Any other move only shuffles registers, or is not reconstructed.
    unfold stepMove at h
    split at h
    · rename_i register source hi
      split at h
      · exact h.not_nil.elim
      · rename_i hf
        split at h
        · rename_i signed hs
          exact absurd ⟨register, source, signed, hi, by simpa using hf, hs⟩ hx
        · split at h
          · exact (h.not_bookkeeping rfl).elim
          · split at h
            · exact h.not_nil.elim
            · exact (h.not_bookkeeping rfl).elim
          · exact h.not_unmodeled.elim
    · exact h.not_unmodeled.elim

/-- Only a local or a static block has fields. -/
theorem fieldAt?_some {base : Value} {offset : Int64} {f : FieldRef}
    (h : s.fieldAt? ls base offset = some f) :
    (∃ id, base = .local id) ∨ base = .staticFields f.owner := by
  unfold fieldAt? at h
  split at h
  · cases base with
    | «local» id => exact .inl ⟨id, rfl⟩
    | staticFields owner =>
      obtain ⟨field, -, rfl⟩ := Option.map_eq_some_iff.mp h
      exact .inr rfl
    | constant _ | field _ _ | classPointer _ => cases h
  · cases h

/-- A field tells what it was reached through. -/
theorem base_of_fieldValue {base base' : Value} {offset offset' : Int64} {f f' : FieldRef}
    (h : s.fieldAt? ls base offset = some f) (h' : s.fieldAt? ls base' offset' = some f')
    (he : fieldValue base' f' = fieldValue base f) : base' = base := by
  rcases fieldAt?_some h with ⟨id, rfl⟩ | rfl <;> rcases fieldAt?_some h' with ⟨id', rfl⟩ | rfl <;>
    simp [fieldValue] at he
  · rw [he.1]
  · rw [he]

/-- A reference relative to a value leans on a register that holds the value. -/
theorem base_of_place {ref : Memory} {base : Value} {offset : Int64}
    (h : s.place m i ref = .relative base offset) :
    ∃ r, s.anchor i ref = .base r ∧ m.registers.get? r = some base ∧ offset = ref.displacement := by
  rw [place_eq] at h
  cases ha : s.anchor i ref with
  | fixed place =>
    rw [ha, placeAt] at h
    subst h
    unfold anchor at ha
    split at ha
    · cases ha
    · split at ha
      · cases ha
      · split at ha
        · cases ha
        · split at ha <;> cases ha
  | base r =>
    rw [ha, placeAt] at h
    cases hr : m.registers.get? r with
    | none => rw [hr] at h; cases h
    | some v =>
      rw [hr, Option.map_some, Option.getD_some] at h
      unfold placeFrom at h
      split at h
      · split at h <;> cases h
      · cases h
        exact ⟨r, rfl, hr, rfl⟩

/-- What a reference points to is fixed by what it leans on. -/
theorem place_congr {ref : Memory} {n : Machine}
    (h : Machine.AgreeOn (anchorPlaces (s.anchor i ref)) m n) :
    s.place n i ref = s.place m i ref := by
  rw [place_eq, place_eq]
  cases ha : s.anchor i ref with
  | fixed place => rfl
  | base r =>
    rw [ha] at h
    have hr := h (.register r) (List.mem_singleton_self _)
    rw [placeAt, placeAt, Content.map_value_inj.mp hr]

/-- The same field reached in two states means the same in the place leaned on. -/
theorem agreeOn_of_place {ref : Memory} {n : Machine} {base : Value} {offset offset' : Int64}
    (h : s.place m i ref = .relative base offset) (h' : s.place n i ref = .relative base offset') :
    Machine.AgreeOn (anchorPlaces (s.anchor i ref)) m n ∧
      m.Knows (anchorPlaces (s.anchor i ref)) := by
  obtain ⟨r, ha, hr, -⟩ := base_of_place h
  obtain ⟨r', ha', hr', -⟩ := base_of_place h'
  rw [ha] at ha'
  cases ha'
  simp [ha, anchorPlaces, Machine.AgreeOn, Machine.Knows, Machine.content, hr, hr']

theorem effects_loadFrom {register : String} {ref : Memory} {base : Value} {offset : Int64}
    {f : FieldRef} (h : s.fieldAt? ls base offset = some f) :
    (s.loadFrom ls fresh m register ref (.relative base offset)).effects =
      [.readField (.ofValue ref.render (fieldValue base f)) (some fresh)] := by
  rcases fieldAt?_some h with ⟨id, rfl⟩ | rfl <;> simp [loadFrom, loadField, h]

/-- A load that shows reads a field. -/
theorem field_of_loadFrom {register : String} {ref : Memory} {p : Place}
    (h : Emitted lf (s.loadFrom ls fresh m register ref p).effects) :
    ∃ base offset f, p = .relative base offset ∧ s.fieldAt? ls base offset = some f := by
  have missing : ∀ text, ¬Emitted lf [.readField (.missing text) none] := by
    intro text h
    obtain ⟨code, hc⟩ := h.emits
    cases hc with
    | bookkeeping hb => cases hb
  have field : ∀ base offset, Emitted lf (s.loadField ls fresh m register ref base offset).effects →
      ∃ f, s.fieldAt? ls base offset = some f := by
    intro base offset h
    unfold loadField at h
    split at h
    · rename_i f hf
      exact ⟨f, hf⟩
    · exact absurd h (missing _)
  unfold loadFrom at h
  split at h
  · exact (h.not_bookkeeping rfl).elim
  · exact (h.not_bookkeeping rfl).elim
  · split at h
    · exact (h.not_bookkeeping rfl).elim
    · obtain ⟨f, hf⟩ := field _ _ h
      exact ⟨_, _, f, rfl, hf⟩
  · obtain ⟨f, hf⟩ := field _ _ h
    exact ⟨_, _, f, rfl, hf⟩
  · exact absurd h (missing _)

theorem determines_load (h : Emitted lf (s.stepLoad ls fresh m i).effects) :
    Determines (fun n => (s.stepLoad ls fresh n i).effects) (s.loadPlaces i) m := by
  by_cases hx : ∃ register sources ref, i.operands = .register register :: sources ∧
      sources.findSome? Operand.memory? = some ref ∧ s.isFrame register = false
  · obtain ⟨register, sources, ref, hi, href, hf⟩ := hx
    simp only [stepLoad, loadPlaces, hi, href, hf, Bool.false_eq_true, if_false] at h ⊢
    obtain ⟨base, offset, f, hp, hfield⟩ := field_of_loadFrom h
    refine ⟨(agreeOn_of_place hp hp).2, fun n => ⟨fun he => ?_, fun ha => ?_⟩⟩
    · rw [← he] at h
      obtain ⟨base', offset', f', hp', hfield'⟩ := field_of_loadFrom h
      rw [hp, hp', effects_loadFrom hfield, effects_loadFrom hfield'] at he
      have hv : fieldValue base' f' = fieldValue base f := by simpa [Input.ofValue] using he
      rw [base_of_fieldValue hfield hfield' hv] at hp'
      exact (agreeOn_of_place hp hp').1
    · rw [place_congr ha, hp, effects_loadFrom hfield, effects_loadFrom hfield]
  · unfold stepLoad at h
    split at h
    · rename_i register sources hi
      split at h
      · rename_i ref href
        split at h
        · exact h.not_nil.elim
        · rename_i hf
          exact absurd ⟨register, sources, ref, hi, href, by simpa using hf⟩ hx
      · exact h.not_unmodeled.elim
    · exact h.not_unmodeled.elim

/-- What a store to a place outside the stack writes to. -/
def storedField (s : Setting) (ls : Locals) : Place → Option Value
  | .relative base offset => (s.fieldAt? ls base offset).map (fieldValue base)
  | _ => none

/-- A store that shows writes a field. -/
theorem field_of_stored {ref : Memory} {value : Input} {p : Place}
    (h : Emitted lf [.writeField ⟨ref.render, s.storedField ls p⟩ value]) :
    (∃ base offset f, p = .relative base offset ∧ s.fieldAt? ls base offset = some f) ∧
      value.value.isSome = true := by
  obtain ⟨code, hc⟩ := h.emits
  have key : ∀ v, s.storedField ls p = some v →
      ∃ base offset f, p = .relative base offset ∧ s.fieldAt? ls base offset = some f := by
    intro v hv
    cases p with
    | relative base offset =>
      obtain ⟨f, hf, -⟩ := Option.map_eq_some_iff.mp hv
      exact ⟨base, offset, f, rfl, hf⟩
    | stack slot => cases hv
    | global a => cases hv
    | unknown => cases hv
  generalize hv : s.storedField ls p = v at hc
  cases hc with
  | bookkeeping hb => cases hb
  | writeObject _ hload => exact ⟨key _ hv, Input.isSome_of_load hload⟩
  | writeStatic hload => exact ⟨key _ hv, Input.isSome_of_load hload⟩

theorem effects_store (ls : Locals) {ref : Memory} {source : Operand}
    (h : storeOperands? i.operands = some (ref, source))
    (hs : ∀ slot, s.anchor i ref ≠ .fixed (.stack slot)) (n : Machine) :
    (s.stepStore ls n i).effects = [.writeField ⟨ref.render, s.storedField ls (s.place n i ref)⟩
      (s.input n ((ref.size.map fun n => n.toNat * 8).getD (s.operandWidth source)) source)] := by
  simp only [stepStore, h]
  cases hp : s.place n i ref with
  | stack slot =>
    rw [place_eq] at hp
    exact absurd (fixed_of_placeAt hp) (hs slot)
  | global a => rfl
  | relative base offset => rfl
  | unknown => rfl

theorem determines_store (h : Emitted lf (s.stepStore ls m i).effects) :
    Determines (fun n => (s.stepStore ls n i).effects) (s.storePlaces i) m := by
  cases hx : storeOperands? i.operands with
  | none =>
    simp only [stepStore, hx] at h
    exact h.not_unmodeled.elim
  | some operands =>
    obtain ⟨ref, source⟩ := operands
    by_cases hs : ∃ slot, s.anchor i ref = .fixed (.stack slot)
    · obtain ⟨slot, hs⟩ := hs
      simp only [stepStore, hx, place_eq, hs, placeAt] at h
      exact (h.not_bookkeeping rfl).elim
    · have heff := effects_store (s := s) (i := i) ls hx fun slot ha => hs ⟨slot, ha⟩
      simp only [storePlaces, hx, heff] at h ⊢
      obtain ⟨⟨base, offset, f, hp, hfield⟩, hv⟩ := field_of_stored h
      have hread := readsFrom_operand (s := s)
        ((ref.size.map fun n => n.toNat * 8).getD (s.operandWidth source)) source
      refine ⟨Machine.knows_append.mpr ⟨(agreeOn_of_place hp hp).2, knows_operand hv⟩, fun n => ?_⟩
      rw [Machine.agreeOn_append]
      constructor
      · intro he
        rw [← he] at h
        obtain ⟨⟨base', offset', f', hp', hfield'⟩, -⟩ := field_of_stored h
        simp only [hp, hp', storedField, hfield, hfield', Option.map_some, List.cons.injEq,
          Effect.writeField.injEq, Input.mk.injEq, Option.some.injEq, true_and, and_true] at he
        rw [base_of_fieldValue hfield hfield' he.1] at hp'
        exact ⟨(agreeOn_of_place hp hp').1, (hread m n).mp he.2⟩
      · rintro ⟨hplace, hsource⟩
        have hvalue := (hread m n).mpr hsource
        simp only [place_congr hplace, hvalue]

/-! ## Arithmetic and branches -/

def arithmeticPlaces (s : Setting) : List Operand → List Location
  | [a] => s.operandPlaces a
  | [a, b] | [_, a, b] => s.operandPlaces a ++ s.operandPlaces b
  | _ => []

/-- The operands of an arithmetic instruction are read from its places. -/
theorem readsFrom_arithmeticInputs? {op : ArithmeticOp} {width : Nat} {operands : List Operand}
    (h : (s.arithmeticInputs? {} op width operands).isSome = true) :
    ReadsFrom (fun m => s.arithmeticInputs? m op width operands) (s.arithmeticPlaces operands) := by
  have two : ∀ a b, ReadsFrom (fun m => some (s.input m width a, s.input m width b))
      (s.operandPlaces a ++ s.operandPlaces b) := fun a b m n =>
    Option.some_inj.trans (((readsFrom_operand width a).pair (readsFrom_operand width b)) m n)
  match operands with
  | [] => cases h
  | [a] =>
    cases hs : op.isShift with
    | false => simp [arithmeticInputs?, hs] at h
    | true =>
      intro m n
      simp only [arithmeticInputs?, hs, if_true, Option.some_inj, Prod.mk.injEq, and_true]
      exact readsFrom_operand width a m n
  | [a, b] => exact two a b
  | [_, a, b] => exact two a b
  | _ :: _ :: _ :: _ :: _ => cases h

theorem knows_arithmeticInputs? {op : ArithmeticOp} {width : Nat} {operands : List Operand}
    {left right : Input} (h : s.arithmeticInputs? m op width operands = some (left, right))
    (hl : left.value.isSome = true) (hr : right.value.isSome = true) :
    m.Knows (s.arithmeticPlaces operands) := by
  match operands with
  | [] => cases h
  | [a] =>
    simp only [arithmeticInputs?] at h
    split at h
    · cases h
      exact knows_operand hl
    · cases h
  | [a, b] =>
    cases h
    exact Machine.knows_append.mpr ⟨knows_operand hl, knows_operand hr⟩
  | [_, a, b] =>
    cases h
    exact Machine.knows_append.mpr ⟨knows_operand hl, knows_operand hr⟩
  | _ :: _ :: _ :: _ :: _ => cases h

/-- The flags play no part in what arithmetic reads. -/
theorem arithmeticInputs?_forget (op : ArithmeticOp) (width : Nat) (operands : List Operand) :
    s.arithmeticInputs? { m with comparison := none } op width operands =
      s.arithmeticInputs? m op width operands := rfl

/-- The effects of arithmetic on two operands, if it has them. -/
def arithmeticEffects (fresh : Nat) (i : Instruction) (op : ArithmeticOp) :
    Option (Input × Input) → List Effect
  | some (left, right) => [.arithmetic op left right fresh]
  | none => [i.unmodeledForm]

theorem determines_arithmetic {op : ArithmeticOp}
    (h : Emitted lf (s.stepArithmetic fresh m i op).effects) :
    Determines (fun n => (s.stepArithmetic fresh n i op).effects) (s.arithmeticPlaces i.operands)
      m := by
  by_cases hx : ∃ register rest, i.operands = .register register :: rest ∧
      s.isFrame register = false ∧ s.isZeroing op register i.operands = false
  · obtain ⟨register, rest, hi, hf, hz⟩ := hx
    have heff : ∀ n, (s.stepArithmetic fresh n i op).effects = arithmeticEffects fresh i op
        (s.arithmeticInputs? n op (s.isa.width register) i.operands) := by
      intro n
      have hz' := hz
      rw [hi] at hz'
      simp only [stepArithmetic, hi, hf, hz', Bool.false_eq_true, if_false,
        arithmeticInputs?_forget]
      cases s.arithmeticInputs? n op (s.isa.width register) (.register register :: rest) <;> rfl
    simp only [heff] at h ⊢
    cases hin : s.arithmeticInputs? m op (s.isa.width register) i.operands with
    | none =>
      rw [hin] at h
      exact h.not_unmodeled.elim
    | some inputs =>
      obtain ⟨left, right⟩ := inputs
      rw [hin] at h
      have hsome : (s.arithmeticInputs? {} op (s.isa.width register) i.operands).isSome = true := by
        rw [← isSome_arithmeticInputs? (m := m), hin]
        rfl
      have hk : m.Knows (s.arithmeticPlaces i.operands) := by
        obtain ⟨code, hc⟩ := h.emits
        cases hc with
        | arithmetic hl hr _ =>
          exact knows_arithmeticInputs? hin (Input.isSome_of_load hl) (Input.isSome_of_load hr)
        | bookkeeping hb => cases hb
      refine (readsFrom_arithmeticInputs? hsome).determines hk (arithmeticEffects fresh i op) ?_
      intro a ha
      rw [hin] at ha ⊢
      cases a with
      | none => simp [arithmeticEffects, Instruction.unmodeledForm, Instruction.unmodeled] at ha
      | some b => simpa [arithmeticEffects, Prod.ext_iff] using ha
  · unfold stepArithmetic at h
    split at h
    · rename_i register rest hi
      simp only at h
      split at h
      · exact h.not_nil.elim
      · rename_i hf
        split at h
        · exact (h.not_bookkeeping rfl).elim
        · rename_i hz
          exact absurd ⟨register, rest, hi, by simpa using hf, by simpa using hz⟩ hx
    · exact h.not_unmodeled.elim

/-- A branch shows the comparison it looks at. -/
theorem determines_branch {read : Machine → Option Comparison} {places : List Location}
    (hr : ReadsFrom read places) {c : Condition}
    (hk : ∀ d : Comparison, read m = some d → d.left.value.isSome = true →
      d.right.value.isSome = true → m.Knows places)
    (h : Emitted lf [s.branchEffect i c (read m)]) :
    Determines (fun n => [s.branchEffect i c (read n)]) places m := by
  unfold branchEffect at h ⊢
  cases ht : i.target? with
  | none =>
    rw [ht] at h
    exact h.not_unmodeled.elim
  | some target =>
    simp only [ht] at h ⊢
    obtain ⟨code, hc⟩ := h.emits
    have hknown : m.Knows places := by
      generalize hd : read m = d at hc
      generalize s.isInside target = inside at hc
      cases hc with
      | branch _ hemits => exact hk _ hd hemits.known.1 hemits.known.2
      | bookkeeping hb => cases hb
    exact hr.determines hknown (fun a => [.branch c a target (s.isInside target)])
      fun a ha => by simpa using ha

theorem readsFrom_comparison :
    ReadsFrom (fun m => m.comparison) [.shape, .left, .right] := by
  intro m n
  rw [Machine.comparison_eq_iff]
  simp [Machine.AgreeOn]

theorem knows_comparison {d : Comparison} (h : m.comparison = some d)
    (hl : d.left.value.isSome = true) (hr : d.right.value.isSome = true) :
    m.Knows [.shape, .left, .right] := by
  simp [Machine.Knows, Machine.content, h, hl, hr]

def zeroComparisonPlaces (s : Setting) (i : Instruction) : List Location :=
  match i.operands with
  | a :: _ => s.operandPlaces a
  | [] => []

theorem readsFrom_zeroComparison :
    ReadsFrom (fun m => s.zeroComparisonOf m i.operands) (s.zeroComparisonPlaces i) := by
  unfold zeroComparisonPlaces
  cases i.operands with
  | nil => exact .const none
  | cons a rest =>
    intro m n
    simp only [zeroComparisonOf, Option.some_inj, Comparison.mk.injEq, and_true]
    exact readsFrom_operand _ a m n

theorem knows_zeroComparison {d : Comparison} (h : s.zeroComparisonOf m i.operands = some d)
    (hl : d.left.value.isSome = true) : m.Knows (s.zeroComparisonPlaces i) := by
  unfold zeroComparisonPlaces
  cases hi : i.operands with
  | nil => exact Machine.knows_nil
  | cons a rest =>
    rw [hi] at h
    cases h
    exact knows_operand hl

/-! ## Returns and calls -/

def returnPlaces (s : Setting) : List Location :=
  if s.method.returnsVoid || s.method.returnType.isFloatingPoint then []
  else s.registerPlaces s.convention.result

theorem determines_return (h : Emitted lf [s.returnEffect m]) :
    Determines (fun n => [s.returnEffect n]) s.returnPlaces m := by
  unfold returnEffect returnPlaces at *
  cases hv : s.method.returnsVoid with
  | true => exact .const [.ret none] m
  | false =>
    cases hf : s.method.returnType.isFloatingPoint with
    | true => exact .const [.ret (some (.missing "floating point return"))] m
    | false =>
      simp only [hv, hf, Bool.false_eq_true, if_false, Bool.or_false] at h ⊢
      obtain ⟨code, hc⟩ := h.emits
      have hk : m.Knows (s.registerPlaces s.convention.result) := by
        cases hc with
        | ret hload => exact knows_register (Input.isSome_of_load hload)
        | bookkeeping hb => cases hb
      exact (readsFrom_register s.convention.result).determines hk (fun a => [.ret (some a)])
        fun a ha => by simpa using ha

def managedCallPlaces (s : Setting) (target : UInt64) : List Location :=
  match s.symbols.methodAt? target with
  | some callee => (s.convention.argumentSlots callee).flatMap s.passedPlaces
  | none => []

/-- The arguments of a call of managed code. -/
def passedAll (s : Setting) (m : Machine) (slots : List ArgumentSlot) : List Input :=
  slots.zipIdx.map fun (slot, n) => s.passed m slot n

theorem readsFrom_passedAll (slots : List ArgumentSlot) :
    ReadsFrom (fun m => s.passedAll m slots) (slots.flatMap s.passedPlaces) := by
  have h := ReadsFrom.map (f := fun c m => s.passed m c.1 c.2) (p := fun c => s.passedPlaces c.1)
    slots.zipIdx fun c _ => readsFrom_passed c.1 c.2
  have hslots : slots.zipIdx.flatMap (fun c => s.passedPlaces c.1) = slots.flatMap s.passedPlaces :=
    calc slots.zipIdx.flatMap (fun c => s.passedPlaces c.1)
        = (slots.zipIdx.map Prod.fst).flatMap s.passedPlaces := (List.flatMap_map _ _ _).symm
      _ = slots.flatMap s.passedPlaces := by rw [List.zipIdx_map_fst]
  rw [hslots] at h
  exact h

theorem knows_passedAll {slots : List ArgumentSlot}
    (h : ∀ a ∈ s.passedAll m slots, a.value.isSome = true) :
    m.Knows (slots.flatMap s.passedPlaces) := by
  intro x hx
  obtain ⟨slot, hslot, hx⟩ := List.mem_flatMap.mp hx
  obtain ⟨n, hn⟩ := List.mem_iff_getElem?.mp hslot
  have hmem : s.passed m slot n ∈ s.passedAll m slots :=
    List.mem_map.mpr ⟨(slot, n), List.mem_zipIdx_iff_getElem?.mpr hn, rfl⟩
  exact knows_passed (h _ hmem) x hx

/-- The effect of a call of a known method on its arguments. -/
def callEffect (s : Setting) (fresh : Nat) (target : UInt64) (callee : Method)
    (arguments : List Input) : Effect :=
  .call target (some callee) arguments ((s.convention.argumentSlots callee).countP (· == .stack))
    (if callee.returnsVoid then none else some fresh)

theorem effects_managedCall {target : UInt64} {callee : Method}
    (h : s.symbols.methodAt? target = some callee) (n : Machine) :
    (s.stepManagedCall fresh n target).effects =
      [s.callEffect fresh target callee (s.passedAll n (s.convention.argumentSlots callee))] := by
  simp only [stepManagedCall, h, callEffect]
  split <;> rfl

theorem known_of_call {target : UInt64} {callee : Method} {arguments : List Input}
    {code : List Bytecode} (h : (s.callEffect fresh target callee arguments).Emits lf code) :
    ∀ a ∈ arguments, a.value.isSome = true := by
  unfold callEffect at h
  generalize (s.convention.argumentSlots callee).countP (· == .stack) = onStack at h
  generalize (if callee.returnsVoid then none else some fresh) = result at h
  cases h with
  | call hloads => exact isSome_of_loadsTo hloads
  | callResult hloads _ => exact isSome_of_loadsTo hloads
  | bookkeeping hb => cases hb

theorem determines_managedCall {target : UInt64}
    (h : ∀ e ∈ (s.stepManagedCall fresh m target).effects, ∃ code, e.bytecode lf = .ok code) :
    Determines (fun n => (s.stepManagedCall fresh n target).effects) (s.managedCallPlaces target)
      m := by
  cases hx : s.symbols.methodAt? target with
  | none =>
    simp only [stepManagedCall, hx] at h
    obtain ⟨code, hc⟩ := h _ (List.mem_singleton_self _)
    cases hc
  | some callee =>
    simp only [effects_managedCall hx, managedCallPlaces, hx] at h ⊢
    obtain ⟨code, hc⟩ := h _ (List.mem_singleton_self _)
    have hk := knows_passedAll (known_of_call (emits_of_bytecode hc))
    exact (readsFrom_passedAll _).determines hk
      (fun a => [s.callEffect fresh target callee a]) fun a ha => by simpa [callEffect] using ha

/-- What is returned right after a call does not depend on the state before the call. -/
theorem returnEffect_managedCall (hr : s.ResultIsVolatile) (target : UInt64) (n : Machine) :
    s.returnEffect (s.stepManagedCall fresh n target).machine =
      s.returnEffect (s.stepManagedCall fresh m target).machine := by
  have key : ∀ k : Machine, (s.stepManagedCall fresh k target).machine.registers.get?
      (s.isa.family s.convention.result) =
        match s.symbols.methodAt? target with
        | some callee => if callee.returnsVoid then none else some (.local fresh)
        | none => none := by
    intro k
    have hclobber : (s.clobber k).registers.get? (s.isa.family s.convention.result) = none := by
      rw [clobber, Machine.clobber, FinMap.get?_foldl_erase, if_pos (show _ ∈ _ from hr)]
    unfold stepManagedCall
    cases s.symbols.methodAt? target with
    | none => exact hclobber
    | some callee =>
      by_cases hv : callee.returnsVoid = true
      · simp only [hv, if_true]
        exact hclobber
      · simp only [hv, if_false, Bool.false_eq_true, bind, Machine.setRegister, FinMap.get?_insert,
          if_true]
  unfold returnEffect readRegister
  rw [key n, key m]

def jumpPlaces (s : Setting) (i : Instruction) : List Location :=
  match i.target? with
  | some target =>
    if !s.isInside target && (s.symbols.methodAt? target).isSome then s.managedCallPlaces target
    else []
  | none => []

theorem determines_jump (hr : s.ResultIsVolatile) (h : Emitted lf (s.stepJump fresh m i).effects) :
    Determines (fun n => (s.stepJump fresh n i).effects) (s.jumpPlaces i) m := by
  unfold stepJump jumpPlaces at *
  cases ht : i.target? with
  | none => exact .const _ m
  | some target =>
    simp only [ht] at h ⊢
    by_cases hx : (!s.isInside target && (s.symbols.methodAt? target).isSome) = true
    · simp only [hx, if_true] at h ⊢
      have hcall := determines_managedCall fun e he => h.code e (List.mem_append_left _ he)
      refine ⟨hcall.known, fun n => ?_⟩
      rw [returnEffect_managedCall (m := m) hr, List.append_left_inj]
      exact hcall.eq_iff n
    · simp only [hx, if_false, Bool.false_eq_true]
      exact .const _ m

def helperPlaces (s : Setting) : Helper → List Location
  | .objectNew | .raiseException => s.argumentPlaces 0
  | .arrayNew => s.argumentPlaces 0 ++ s.argumentPlaces 1
  | _ => []

theorem effects_allocated (effect : Option Nat → Effect) (type : Signature → Signature)
    (d : Option TypeDefinition) :
    (s.allocated fresh m effect type d).effects = [effect (d.map fun _ => fresh)] := by
  cases d <;> rfl

theorem determines_helper {helper : Helper}
    (h : Emitted lf (s.stepHelper fresh m helper).effects) :
    Determines (fun n => (s.stepHelper fresh n helper).effects) (s.helperPlaces helper) m := by
  cases helper with
  | initializeMethod => exact (h.not_bookkeeping rfl).elim
  | runtimeClassInit => exact (h.not_bookkeeping rfl).elim
  | raiseIndexOutOfRange => exact .const _ m
  | raiseNullReference => exact .const _ m
  | raiseException =>
    obtain ⟨code, hc⟩ := h.emits
    have hk : m.Knows (s.argumentPlaces 0) := by
      cases hc with
      | throw hload => exact knows_argument (Input.isSome_of_load hload)
      | bookkeeping hb => cases hb
    exact (readsFrom_argument 0).determines hk (fun a => [.throw a]) fun a ha => by simpa using ha
  | objectNew =>
    simp only [stepHelper, effects_allocated] at h ⊢
    obtain ⟨code, hc⟩ := h.emits
    have hk : m.Knows (s.argumentPlaces 0) := by
      refine knows_argument ?_
      generalize s.argument m 0 = type at hc
      generalize (classOf? type).map (fun _ => fresh) = result at hc
      cases hc with
      | allocate _ => rfl
      | bookkeeping hb => cases hb
    refine (readsFrom_argument 0).determines hk
      (fun a => [.allocate a ((classOf? a).map fun _ => fresh)]) fun a ha => ?_
    simp only [List.cons.injEq, Effect.allocate.injEq, and_true] at ha
    exact ha.1
  | arrayNew =>
    simp only [stepHelper, effects_allocated] at h ⊢
    obtain ⟨code, hc⟩ := h.emits
    have hk : m.Knows (s.argumentPlaces 0 ++ s.argumentPlaces 1) := by
      have hsome : (s.argument m 0).value.isSome = true ∧ (s.argument m 1).value.isSome = true := by
        generalize s.argument m 0 = element at hc ⊢
        generalize s.argument m 1 = length at hc ⊢
        generalize (classOf? element).map (fun _ => fresh) = result at hc
        cases hc with
        | allocateArray hload _ => exact ⟨rfl, Input.isSome_of_load hload⟩
        | bookkeeping hb => cases hb
      exact Machine.knows_append.mpr ⟨knows_argument hsome.1, knows_argument hsome.2⟩
    refine ((readsFrom_argument 0).pair (readsFrom_argument 1)).determines hk
      (fun a => [.allocateArray a.1 a.2 ((classOf? a.1).map fun _ => fresh)]) fun a ha => ?_
    simp only [List.cons.injEq, Effect.allocateArray.injEq, and_true] at ha
    exact Prod.ext ha.1 ha.2.1

def callPlaces (s : Setting) (i : Instruction) : List Location :=
  match i.target? with
  | some target =>
    match s.helpers.helperAt? target with
    | some helper => s.helperPlaces helper
    | none => s.managedCallPlaces target
  | none => []

theorem determines_call (h : Emitted lf (s.stepCall fresh m i).effects) :
    Determines (fun n => (s.stepCall fresh n i).effects) (s.callPlaces i) m := by
  unfold stepCall callPlaces at *
  cases ht : i.target? with
  | none => exact .const _ m
  | some target =>
    cases hh : s.helpers.helperAt? target with
    | some helper =>
      simp only [ht, hh] at h ⊢
      exact determines_helper h
    | none =>
      simp only [ht, hh] at h ⊢
      exact determines_managedCall h.code

/-! ## The step -/

/-- The places that an instruction writes into the body. -/
def operands (s : Setting) (i : Instruction) : List Location :=
  match s.isa.kind i with
  | .move => s.movePlaces i
  | .load => s.loadPlaces i
  | .store => s.storePlaces i
  | .arithmetic _ => s.arithmeticPlaces i.operands
  | .conditionalJump _ => [.shape, .left, .right]
  | .compareZeroAndBranch _ => s.zeroComparisonPlaces i
  | .jump => s.jumpPlaces i
  | .call => s.callPlaces i
  | .ret => s.returnPlaces
  | _ => []

/-- What an instruction adds to the body is fixed by its operands, and fixes them. -/
theorem determines_step (hr : s.ResultIsVolatile) (h : Emitted lf (s.step ls fresh m i).effects) :
    Determines (fun n => (s.step ls fresh n i).effects) (s.operands i) m := by
  unfold step operands at *
  cases hk : s.isa.kind i with
  | move => simp only [hk] at h ⊢; exact determines_move h
  | load => simp only [hk] at h ⊢; exact determines_load h
  | store => simp only [hk] at h ⊢; exact determines_store h
  | arithmetic op => simp only [hk] at h ⊢; exact determines_arithmetic h
  | conditionalJump c =>
    simp only [hk] at h ⊢
    exact determines_branch readsFrom_comparison (fun d hd => knows_comparison hd) h
  | compareZeroAndBranch c =>
    simp only [hk] at h ⊢
    exact determines_branch readsFrom_zeroComparison (fun d hd hl _ => knows_zeroComparison hd hl) h
  | jump => simp only [hk] at h ⊢; exact determines_jump hr h
  | call => simp only [hk] at h ⊢; exact determines_call h
  | ret => simp only [hk] at h ⊢; exact determines_return h
  | loadAddress =>
    simp only [hk] at h
    unfold stepLoadAddress at h
    split at h
    · split at h
      · exact h.not_nil.elim
      · split at h
        · exact (h.not_bookkeeping rfl).elim
        · exact h.not_nil.elim
    · exact h.not_unmodeled.elim
  | pop =>
    simp only [hk] at h
    unfold stepPop at h
    simp only at h
    split at h
    · split at h <;> exact h.not_nil.elim
    · exact h.not_nil.elim
  | indirectCall | indirectJump | invalid | unknown =>
    simp only [hk] at h
    exact h.not_unmodeled.elim
  | nop | trap | compare | test | push =>
    simp only [hk] at h
    exact h.not_nil.elim

end Setting

end MethodLift
