import MethodLift.Proofs.HeldValues
import MethodLift.Proofs.ImportedLocals

/-!
# The types that the code names

Emitted code names a type as the owner of a field or as the class of what it allocates. The owner of
a field of an object is the definition that the type of a local is rooted at, and an allocated class
is in the type of a local too, so these are imported with the locals. A static field is reached
through a class pointer that the host knows, and no local has that class: its owner is imported only
if something else imports it. `Effect.Emits.accounted` tells the cases apart.
-/

namespace MethodLift

namespace Bytecode

/-- The instruction names the type: as the owner of its field, or in the type of what it makes. -/
def Names (d : TypeDefinition) : Bytecode → Prop
  | ldfld f | stfld f | ldsfld f | stsfld f => d = f.owner
  | newobj type | newarr type => type.Occurs d
  | _ => False

/-- The instruction reads or writes a static field. -/
def accessesStatic : Bytecode → Bool
  | ldsfld _ | stsfld _ => true
  | _ => false

variable {d : TypeDefinition}

theorem not_names_load (l : Local) : ¬l.load.Names d := by
  unfold Local.load
  split <;> exact id

theorem not_names_store (l : Local) : ¬l.store.Names d := by
  unfold Local.store
  split <;> exact id

theorem not_names_ofConstant (c : Constant) : ¬(Bytecode.ofConstant c).Names d := by
  cases c <;> exact id

end Bytecode

/-! ## Where fields are reached -/

/-- A field of an object belongs to the definition that the type of the object is rooted at. -/
def Value.Rooted (ls : Locals) : Value → Prop
  | .field (some id) f => ∃ l, ls[id]? = some l ∧ l.type.root? = some f.owner
  | _ => True

def Input.Rooted (ls : Locals) (i : Input) : Prop := ∀ v, i.value = some v → v.Rooted ls

theorem Input.rooted_missing (ls : Locals) (origin : String) : (Input.missing origin).Rooted ls :=
  fun _ hv => nomatch hv

theorem Input.rooted_integer (ls : Locals) (origin : String) (a : Int64) (width : Nat) :
    (Input.ofValue origin (.integer a width)).Rooted ls := by
  intro u hu
  cases hu
  trivial

theorem Input.rooted_ofValue {ls : Locals} {v : Value} (h : v.Rooted ls) (origin : String) :
    (Input.ofValue origin v).Rooted ls := by
  intro u hu
  cases hu
  exact h

/-- All that the effects read is rooted. -/
def Step.Rooted (ls : Locals) (st : Step) : Prop :=
  ∀ e ∈ st.effects, ∀ i ∈ e.inputs, i.Rooted ls

namespace Step.Rooted

variable {ls : Locals} {m : Machine} {e : Effect} {result : Option NewLocal}
  {imports : List Signature}

theorem nothing : Step.Rooted ls { machine := m } := fun _ he => absurd he List.not_mem_nil

theorem single (h : ∀ i ∈ e.inputs, i.Rooted ls) :
    Step.Rooted ls { machine := m, effects := [e], result, imports } := by
  intro f hf
  rw [List.mem_singleton.mp hf]
  exact h

theorem blind (h : e.inputs = []) :
    Step.Rooted ls { machine := m, effects := [e], result, imports } := by
  refine single fun i hi => ?_
  rw [h] at hi
  exact absurd hi List.not_mem_nil

theorem reading {i : Input} (h : e.inputs = [i]) (hi : i.Rooted ls) :
    Step.Rooted ls { machine := m, effects := [e], result, imports } := by
  refine single fun j hj => ?_
  rw [h] at hj
  rw [List.mem_singleton.mp hj]
  exact hi

theorem readingTwo {i j : Input} (h : e.inputs = [i, j]) (hi : i.Rooted ls) (hj : j.Rooted ls) :
    Step.Rooted ls { machine := m, effects := [e], result, imports } := by
  refine single fun k hk => ?_
  rw [h] at hk
  simp only [List.mem_cons, List.not_mem_nil, or_false] at hk
  rcases hk with rfl | rfl
  · exact hi
  · exact hj

end Step.Rooted

namespace Setting

variable {s : Setting} {ls : Locals} {fresh : Nat} {m : Machine} {i : Instruction}

/-- Nothing that a walk makes, binds or reads from the image is a field, so the state holds rooted
values only, whatever the locals. -/
theorem allows_rooted (s : Setting) (ls : Locals) :
    s.Allows (Value.Rooted ls) (Value.Rooted ls) where
  text _ := trivial
  classPointer _ _ _ := trivial
  staticFields _ _ := trivial
  compared _ h := h
  comparedInteger _ _ := trivial

theorem rooted_fieldValue {base : Value} {offset : Int64} {f : FieldRef}
    (h : s.fieldAt? ls base offset = some f) : (fieldValue base f).Rooted ls := by
  rcases (fieldAt?_cases h).2 with ⟨id, l, rfl, hl, howner⟩ | rfl
  · exact ⟨l, hl, howner⟩
  · trivial

theorem rooted_loadField (register : String) (ref : Memory) (base : Value) (offset : Int64) :
    (s.loadField ls fresh m register ref base offset).Rooted ls := by
  unfold loadField
  split
  · rename_i f hf
    exact .reading rfl (Input.rooted_ofValue (rooted_fieldValue hf) _)
  · exact .reading rfl (Input.rooted_missing ls _)

theorem rooted_stepLoad : (s.stepLoad ls fresh m i).Rooted ls := by
  unfold stepLoad
  split
  · split
    · split
      · exact .nothing
      · unfold loadFrom
        split
        · exact .blind rfl
        · exact .blind rfl
        · split
          · exact .blind rfl
          · exact rooted_loadField _ _ _ _
        · exact rooted_loadField _ _ _ _
        · exact .reading rfl (Input.rooted_missing ls _)
    · exact .blind rfl
  · exact .blind rfl

theorem rooted_stepLoadAddress : (s.stepLoadAddress m i).Rooted ls := by
  unfold stepLoadAddress
  split
  · split
    · exact .nothing
    · split
      · exact .blind rfl
      · exact .nothing
  · exact .blind rfl

theorem rooted_stepPop : (s.stepPop m i).Rooted ls := by
  unfold stepPop
  simp only
  split
  · split <;> exact .nothing
  · exact .nothing

theorem rooted_branch (condition : Condition) {c : Option Comparison}
    (hc : ∀ d, c = some d → d.left.Rooted ls ∧ d.right.Rooted ls) :
    Step.Rooted ls { machine := m, effects := [s.branchEffect i condition c] } := by
  unfold branchEffect
  split
  · cases c with
    | none => exact .blind rfl
    | some d => exact .readingTwo rfl (hc d rfl).1 (hc d rfl).2
  · exact .blind rfl

section

variable (hm : m.Holds (Value.Rooted ls) (Value.Rooted ls))

include hm

theorem rooted_readRegister (r : String) : (s.readRegister m r).Rooted ls :=
  holds_readRegister hm fun _ => trivial

theorem rooted_input (width : Nat) (operand : Operand) : (s.input m width operand).Rooted ls :=
  holds_input hm fun _ _ _ => trivial

theorem rooted_argument (position : Nat) : (s.argument m position).Rooted ls := by
  unfold argument
  split
  · exact rooted_readRegister hm _
  · exact Input.rooted_missing ls _

theorem rooted_passed (slot : ArgumentSlot) (position : Nat) :
    (s.passed m slot position).Rooted ls := by
  cases slot with
  | register r => exact rooted_readRegister hm r
  | floatingPoint => exact Input.rooted_missing ls _
  | stack => exact Input.rooted_missing ls _

theorem rooted_stepMove : (s.stepMove fresh m i).Rooted ls := by
  unfold stepMove
  split
  · split
    · exact .nothing
    · split
      · exact .reading rfl (rooted_input hm _ _)
      · split
        · exact .blind rfl
        · split
          · exact .nothing
          · exact .blind rfl
        · exact .blind rfl
  · exact .blind rfl

theorem rooted_stepStore : (s.stepStore ls m i).Rooted ls := by
  unfold stepStore
  split
  · exact .blind rfl
  · simp only
    split
    · exact .blind rfl
    · refine .readingTwo rfl (fun v hv => ?_) (rooted_input hm _ _)
      obtain ⟨f, hf, rfl⟩ := Option.map_eq_some_iff.mp hv
      exact rooted_fieldValue hf
    · exact .readingTwo rfl (Input.rooted_missing ls _) (rooted_input hm _ _)
    · exact .readingTwo rfl (Input.rooted_missing ls _) (rooted_input hm _ _)

theorem rooted_stepArithmetic (op : ArithmeticOp) : (s.stepArithmetic fresh m i op).Rooted ls := by
  unfold stepArithmetic
  split
  · simp only
    split
    · exact .nothing
    · split
      · exact .blind rfl
      · split
        · rename_i left right hinputs
          have hread := fun width operand => rooted_input (s := s) hm.forgetComparison width operand
          unfold arithmeticInputs? at hinputs
          split at hinputs
          · split at hinputs
            · cases hinputs
              exact .readingTwo rfl (hread _ _) (Input.rooted_integer ls "1" 1 32)
            · cases hinputs
          · cases hinputs
            exact .readingTwo rfl (hread _ _) (hread _ _)
          · cases hinputs
            exact .readingTwo rfl (hread _ _) (hread _ _)
          · cases hinputs
        · exact .blind rfl
  · exact .blind rfl

theorem rooted_zeroComparisonOf (operands : List Operand) :
    ∀ d, s.zeroComparisonOf m operands = some d → d.left.Rooted ls ∧ d.right.Rooted ls := by
  intro d hd
  cases operands with
  | nil => cases hd
  | cons a rest =>
    cases hd
    exact ⟨rooted_input hm _ _, Input.rooted_integer ls _ _ _⟩

theorem rooted_returnEffect : ∀ j ∈ (s.returnEffect m).inputs, j.Rooted ls := by
  intro j hj
  unfold returnEffect at hj
  split at hj
  · exact absurd hj List.not_mem_nil
  · split at hj
    · rw [List.mem_singleton.mp hj]
      exact Input.rooted_missing ls _
    · rw [List.mem_singleton.mp hj]
      exact rooted_readRegister hm _

theorem rooted_stepManagedCall (target : UInt64) :
    (s.stepManagedCall fresh m target).Rooted ls := by
  intro e he j hj
  cases hx : s.symbols.methodAt? target with
  | none =>
    simp only [stepManagedCall, hx, List.mem_singleton] at he
    subst he
    exact absurd hj List.not_mem_nil
  | some callee =>
    rw [effects_managedCall hx] at he
    rw [List.mem_singleton.mp he] at hj
    obtain ⟨⟨slot, n⟩, -, rfl⟩ := List.mem_map.mp hj
    exact rooted_passed hm slot n

theorem rooted_stepJump : (s.stepJump fresh m i).Rooted ls := by
  unfold stepJump
  split
  · exact .blind rfl
  · rename_i target _
    split
    · intro e he
      rcases List.mem_append.mp he with he | he
      · exact rooted_stepManagedCall hm target e he
      · rw [List.mem_singleton.mp he]
        exact rooted_returnEffect (holds_stepManagedCall hm fun _ => trivial)
    · exact .blind rfl

theorem rooted_stepHelper (helper : Helper) : (s.stepHelper fresh m helper).Rooted ls := by
  cases helper with
  | initializeMethod | runtimeClassInit | raiseIndexOutOfRange | raiseNullReference =>
    exact .blind rfl
  | raiseException => exact .reading rfl (rooted_argument hm 0)
  | objectNew =>
    simp only [stepHelper]
    cases classOf? (s.argument m 0) <;> exact .blind rfl
  | arrayNew =>
    simp only [stepHelper]
    cases classOf? (s.argument m 0) <;> exact .reading rfl (rooted_argument hm 1)

theorem rooted_stepCall : (s.stepCall fresh m i).Rooted ls := by
  unfold stepCall
  split
  · exact .blind rfl
  · split
    · exact rooted_stepHelper hm _
    · exact rooted_stepManagedCall hm _

theorem rooted_step : (s.step ls fresh m i).Rooted ls := by
  unfold step
  cases s.isa.kind i with
  | move => exact rooted_stepMove hm
  | load => exact rooted_stepLoad
  | store => exact rooted_stepStore hm
  | arithmetic op => exact rooted_stepArithmetic hm op
  | conditionalJump c =>
    exact rooted_branch c fun d hd =>
      ⟨fun v hv => hm.comparison d hd v (.inl hv), fun v hv => hm.comparison d hd v (.inr hv)⟩
  | compareZeroAndBranch c => exact rooted_branch c (rooted_zeroComparisonOf hm _)
  | jump => exact rooted_stepJump hm
  | call => exact rooted_stepCall hm
  | ret => exact .single (rooted_returnEffect hm)
  | loadAddress => exact rooted_stepLoadAddress
  | pop => exact rooted_stepPop
  | nop | trap | compare | test | push => exact .nothing
  | indirectCall | indirectJump | invalid | unknown => exact .blind rfl

end

end Setting

/-! ## What the code of an effect names -/

section

variable {ls : Locals} {e : Effect} {code : List Bytecode} {b : Bytecode} {d : TypeDefinition}

/-- The type that an instruction names has a reason to be imported, or is that of a static field. -/
def Accounted (ls : Locals) (e : Effect) (d : TypeDefinition) (b : Bytecode) : Prop :=
  b.accessesStatic = true ∨ (∃ l ∈ ls, l.type.Occurs d) ∨ e.allocated? = some d ∨
    e.thrown? = some d

/-- Pushing a rooted value names the owner of a static field, or what is in the type of a local. -/
theorem accounted_of_value {v : Value} (h : v.load ls = .ok code) (hv : v.Rooted ls) (hb : b ∈ code)
    (hd : b.Names d) : Accounted ls e d b := by
  unfold Value.load at h
  split at h
  · simp only [except_bind_eq_ok, except_pure_eq_ok] at h
    obtain ⟨l, -, rfl⟩ := h
    rw [List.mem_singleton.mp hb] at hd
    exact (Bytecode.not_names_load l hd).elim
  · cases h
    rw [List.mem_singleton.mp hb] at hd
    exact (Bytecode.not_names_ofConstant _ hd).elim
  · rename_i id f
    simp only [except_bind_eq_ok, except_pure_eq_ok] at h
    obtain ⟨l, -, rfl⟩ := h
    simp only [List.mem_cons, List.not_mem_nil, or_false] at hb
    rcases hb with rfl | rfl
    · exact (Bytecode.not_names_load l hd).elim
    · obtain ⟨owner, howner, hroot⟩ := hv
      refine .inr (.inl ⟨owner, List.mem_of_getElem? howner, ?_⟩)
      rw [show d = f.owner from hd]
      exact Signature.occurs_root hroot
  · cases h
    rw [List.mem_singleton.mp hb]
    exact .inl rfl
  · cases h
  · cases h

theorem accounted_of_input {i : Input} (h : i.load ls = .ok code) (hi : i.Rooted ls) (hb : b ∈ code)
    (hd : b.Names d) : Accounted ls e d b := by
  obtain ⟨v, hv, hload⟩ := load_eq_ok_iff.mp h
  exact accounted_of_value hload (hi v hv) hb hd

theorem accounted_of_loadsTo {is : List Input} {codes : List (List Bytecode)}
    (h : LoadsTo ls is codes) (hi : ∀ i ∈ is, i.Rooted ls) (hb : b ∈ codes.flatten)
    (hd : b.Names d) : Accounted ls e d b := by
  obtain ⟨c, hc, hbc⟩ := List.mem_flatten.mp hb
  obtain ⟨i, his, hload⟩ := mem_of_loadsTo h hc
  exact accounted_of_input hload (hi i his) hbc hd

theorem Comparison.Emits.accounted {c : Comparison} {target : UInt64} {condition : Condition}
    (h : c.Emits ls target condition code) (hl : c.left.Rooted ls) (hr : c.right.Rooted ls)
    (hb : b ∈ code) (hd : b.Names d) : Accounted ls e d b := by
  cases h with
  | zero _ hload | nonzero _ hload =>
    rcases List.mem_append.mp hb with hb | hb
    · exact accounted_of_input hload hl hb hd
    · rw [List.mem_singleton.mp hb] at hd
      exact hd.elim
  | test _ hleft hright _ =>
    simp only [List.mem_append, List.mem_singleton] at hb
    rcases hb with (hb | hb) | rfl
    · exact accounted_of_input hleft hl hb hd
    · exact accounted_of_input hright hr hb hd
    · exact hd.elim

theorem Effect.Emits.accounted (h : e.Emits ls code) {method : Method} (hf : e.Fits method)
    (hr : ∀ i ∈ e.inputs, i.Rooted ls) (hb : b ∈ code) (hd : b.Names d) : Accounted ls e d b := by
  cases h with
  | arithmetic hl hright _ =>
    simp only [List.mem_append, List.mem_cons, List.not_mem_nil, or_false] at hb
    rcases hb with (hb | hb) | rfl | rfl
    · exact accounted_of_input hl (hr _ (by simp [inputs])) hb hd
    · exact accounted_of_input hright (hr _ (by simp [inputs])) hb hd
    · exact hd.elim
    · exact (Bytecode.not_names_store _ hd).elim
  | convert hc _ =>
    simp only [List.mem_append, List.mem_singleton] at hb
    rcases hb with (hb | hb) | rfl
    · exact accounted_of_input hc (hr _ (by simp [inputs])) hb hd
    · obtain ⟨size, signed, rfl⟩ := hf b hb
      exact hd.elim
    · exact (Bytecode.not_names_store _ hd).elim
  | bookkeeping _ => exact absurd hb List.not_mem_nil
  | readField hc _ =>
    simp only [List.mem_append, List.mem_singleton] at hb
    rcases hb with hb | rfl
    · exact accounted_of_value hc (hr _ List.mem_cons_self _ rfl) hb hd
    · exact (Bytecode.not_names_store _ hd).elim
  | writeObject _ hc =>
    simp only [List.cons_append, List.mem_cons, List.mem_append, List.not_mem_nil, or_false] at hb
    rcases hb with rfl | hb | rfl
    · exact (Bytecode.not_names_load _ hd).elim
    · exact accounted_of_input hc (hr _ (by simp [inputs])) hb hd
    · obtain ⟨owner, howner, hroot⟩ := hr _ List.mem_cons_self _ rfl
      refine .inr (.inl ⟨owner, List.mem_of_getElem? howner, ?_⟩)
      rw [show d = _ from hd]
      exact Signature.occurs_root hroot
  | writeStatic hc =>
    simp only [List.mem_append, List.mem_singleton] at hb
    rcases hb with hb | rfl
    · exact accounted_of_input hc (hr _ (by simp [inputs])) hb hd
    · exact .inl rfl
  | branch _ hc =>
    exact hc.accounted (hr _ (by simp [inputs])) (hr _ (by simp [inputs])) hb hd
  | jump | label | retVoid =>
    rw [List.mem_singleton.mp hb] at hd
    exact hd.elim
  | call hc =>
    simp only [List.mem_append, List.mem_singleton] at hb
    rcases hb with hb | rfl
    · exact accounted_of_loadsTo hc hr hb hd
    · exact hd.elim
  | callResult hc _ =>
    simp only [List.mem_append, List.mem_cons, List.not_mem_nil, or_false] at hb
    rcases hb with hb | rfl | rfl
    · exact accounted_of_loadsTo hc hr hb hd
    · exact hd.elim
    · exact (Bytecode.not_names_store _ hd).elim
  | allocate _ =>
    simp only [List.mem_cons, List.not_mem_nil, or_false] at hb
    rcases hb with rfl | rfl
    · rw [Signature.occurs_definition.mp hd]
      exact .inr (.inr (.inl rfl))
    · exact (Bytecode.not_names_store _ hd).elim
  | allocateArray hc _ =>
    simp only [List.mem_append, List.mem_cons, List.not_mem_nil, or_false] at hb
    rcases hb with hb | rfl | rfl
    · exact accounted_of_input hc (hr _ (by simp [inputs])) hb hd
    · rw [Signature.occurs_definition.mp hd]
      exact .inr (.inr (.inl rfl))
    · exact (Bytecode.not_names_store _ hd).elim
  | throw hc | ret hc =>
    simp only [List.mem_append, List.mem_singleton] at hb
    rcases hb with hb | rfl
    · exact accounted_of_input hc (hr _ (by simp [inputs])) hb hd
    · exact hd.elim
  | throwNew =>
    simp only [List.mem_cons, List.not_mem_nil, or_false] at hb
    rcases hb with rfl | rfl
    · rw [Signature.occurs_definition.mp hd]
      exact .inr (.inr (.inr rfl))
    · exact hd.elim

end

/-! ## The walk and the analysis -/

namespace Walk

variable {s : Setting} {a : Action}

/-- The states of the walk hold rooted values only, so every action reads such values. -/
theorem rooted_of_mem (hemit : Emittable s) (ha : a ∈ (run s).actions) :
    ∀ i ∈ a.effect.inputs, i.Rooted (run s).locals := by
  have hbefore := before_holds (Setting.entryMachine_holds fun _ _ => trivial) fun k i hi hm => by
    rw [recorded_eq hi]
    exact Setting.holds_step (s.allows_rooted (run s).locals) hm (fun _ _ _ => trivial)
      fun _ => trivial
  obtain ⟨k, i, hi, ha⟩ := (mem_actions_run hemit).mp ha
  rw [written_eq hi] at ha
  rcases List.mem_append.mp ha with ha | ha
  · rw [(mem_lead.mp ha).1]
    exact fun j hj => absurd hj List.not_mem_nil
  · obtain ⟨e, he, rfl⟩ := List.mem_map.mp ha
    rw [recorded_eq_step hi] at he
    exact Setting.rooted_step (hbefore k) e he

end Walk

/-- An analysis that found a body leaves the session that its walk leaves. -/
theorem Analysis.session_run {e : Environment} {session : Session} {job : Job}
    (h : (run e session job).1.body ≠ []) :
    (run e session job).2 = record e session (Walk.run (walked e session job)) := by
  unfold walked
  unfold run at h ⊢
  simp only at h ⊢
  split
  · rename_i hb
    simp [hb, ofNothing] at h
  · rfl

/-- For every emittable analysis: the code names the owner of a field, or the class of what it
allocates, and that name is imported afterwards unless the field is static. The owner of a static
field is imported exactly if it was before, or a definition of its name occurs in the type of a
local or is thrown. -/
theorem named_types_imported_iff (e : Environment) (session : Session) (job : Job)
    (h : (Analysis.run e session job).1.state = .emittable) :
    let a := (Analysis.run e session job).1
    let imported := (Analysis.run e session job).2.imported e.assembly
    ∃ code, a.bytecode = .ok code ∧ ∀ b ∈ code, ∀ d, b.Names d →
      (d.fullName ∈ imported ↔
        b.accessesStatic = false ∨ d.fullName ∈ session.imported e.assembly ∨
          (∃ l ∈ a.locals, ∃ g, l.type.Occurs g ∧ g.fullName = d.fullName) ∨
            ∃ x ∈ a.actions, ∃ g, x.effect.thrown? = some g ∧ g.fullName = d.fullName) := by
  intro a imported
  obtain ⟨hlocals, hactions, code, hcode, hall⟩ := Analysis.code_of_emittable h
  have hemit := Analysis.emittable_walk h
  have hbody := ((Analysis.run_agrees e session job).emittable_iff.mp h).1
  have hdeclares := Walk.declares_run (Analysis.walked e session job)
  have himported : ∀ name, name ∈ imported ↔ name ∈ session.imported e.assembly ∨
      (∃ l ∈ a.locals, ∃ g, l.type.Occurs g ∧ g.fullName = name) ∨
        ∃ x ∈ a.actions, ∃ g, x.effect.thrown? = some g ∧ g.fullName = name := by
    intro name
    simp only [imported, a, Analysis.session_run hbody, hlocals, hactions]
    exact Analysis.mem_imported_record e session hdeclares name
  refine ⟨code, hcode, fun b hb d hd => ?_⟩
  rw [himported d.fullName]
  refine ⟨.inr, fun hany => hany.elim (fun hstatic => ?_) id⟩
  -- The instruction comes from an action, which accounts for what it names.
  obtain ⟨front, back, hsplit⟩ := List.append_of_mem hb
  obtain ⟨earlier, x, later, _, _, p, q, has, -, hx, -, -, -⟩ := exists_action_of_mem hall hsplit
  have hmem : x ∈ a.actions := has ▸ List.mem_append_right _ List.mem_cons_self
  have hwalk : x ∈ (Walk.run (Analysis.walked e session job)).actions := hactions ▸ hmem
  have hrooted := Walk.rooted_of_mem hemit hwalk
  rw [← hlocals] at hrooted
  rcases (emits_of_bytecode hx).accounted (Walk.fits_of_mem hemit hwalk) hrooted
    (List.mem_append_right _ List.mem_cons_self) hd with hs | ⟨l, hl, hd⟩ | hd | hd
  · rw [hstatic] at hs
    cases hs
  · exact .inr (.inl ⟨l, hl, d, hd, rfl⟩)
  · obtain ⟨l, hl, hd⟩ := hdeclares.allocated x hwalk d hd
    exact .inr (.inl ⟨l, hlocals ▸ hl, d, hd, rfl⟩)
  · exact .inr (.inr ⟨x, hmem, d, hd, rfl⟩)

/-- A type with one field, the static 32-bit integer `count`. -/
def scoreType : TypeDefinition := .topLevel { id := .listed 1, space := "Game", name := "Score" }

def scoreCount : FieldRef :=
  ⟨scoreType, ⟨"count", .definition (TypeTable.supplied .int32), 0, true⟩⟩

/-- `int Total()` returns `Score.count`. -/
def totalRows : List ListingRow :=
  [⟨0x1000, 7, "mov", "rax, qword ptr [rip + 0xff9]"⟩,
   ⟨0x1007, 7, "mov", "rax, qword ptr [rax + 0xb8]"⟩, ⟨0x100e, 2, "mov", "eax, dword ptr [rax]"⟩,
   ⟨0x1010, 1, "ret", ""⟩]

def totalEnvironment : Environment where
  backend := .x64 (.ofListing .x64 totalRows)
  image := .raw .x64 0x1000 (Array.replicate 17 0x90)
  table :=
    ⟨[playerType, scoreType],
      (∅ : FinMap TypeId (List Field)).insert scoreType.id [scoreCount.field]⟩
  symbols := { classAt? := fun a => if a = 0x2000 then some scoreType else none }

def totalJob : Job where
  address := 0x1000
  length := some 17
  method :=
    { token := 0, name := "Total", owner := playerType, isStatic := true
      returnType := .definition (TypeTable.supplied .int32) }

/-- The code reads the field, and nothing has imported the type that declares it. -/
theorem named_types_imported_iff_total :
    (Analysis.run totalEnvironment {} totalJob).1.state = .emittable ∧
      (Analysis.run totalEnvironment {} totalJob).1.bytecode =
        .ok [.ldsfld scoreCount, .stloc 0, .ldloc 0, .ret] ∧
      scoreType.fullName ∉ (Analysis.run totalEnvironment {} totalJob).2.imported
        totalEnvironment.assembly := by
  have hemit : (Analysis.run totalEnvironment {} totalJob).1.state = .emittable := by
    decide +kernel
  have hcode : (Analysis.run totalEnvironment {} totalJob).1.bytecode =
      .ok [.ldsfld scoreCount, .stloc 0, .ldloc 0, .ret] := by
    decide +kernel
  have hfresh : scoreType.fullName ∉ Session.imported {} totalEnvironment.assembly := by
    simp only [Session.imported, Set.mem_ofPred_eq]
    decide +kernel
  have hlocals : ∀ l ∈ (Analysis.run totalEnvironment {} totalJob).1.locals,
      ∀ g ∈ l.type.mentioned, g.fullName ≠ scoreType.fullName := by
    decide +kernel
  have hactions : ∀ x ∈ (Analysis.run totalEnvironment {} totalJob).1.actions,
      x.effect.thrown? = none := by
    decide +kernel
  refine ⟨hemit, hcode, fun himported => ?_⟩
  obtain ⟨code, hsame, hiff⟩ := named_types_imported_iff totalEnvironment {} totalJob hemit
  cases hcode.symm.trans hsame
  rcases (hiff _ List.mem_cons_self scoreType rfl).mp himported with h | h | ⟨l, hl, g, hg, hname⟩ |
    ⟨x, hx, g, hg, -⟩
  · cases h
  · exact hfresh h
  · exact hlocals l hl g ((Signature.mem_mentioned _).mpr hg) hname
  · rw [hactions x hx] at hg
    cases hg

end MethodLift
