import MethodLift.Proofs.Imports
import MethodLift.Proofs.Layout

/-!
# The types of the locals are imported

Each instruction that makes a local imports the type of that local itself, and each exception that
is thrown by name is imported where it is thrown; the types of the arguments are imported at entry.
`Step.Declares` says so of a step, as an equivalence: nothing else is imported. What a step
declares, the walk declares (`declares_run`), so after a walk the destination assembly has the names
of all definitions that occur in the types of the locals (`mem_imported_record`).
-/

namespace MethodLift

namespace Effect

/-- The type of the exception that the effect makes and throws. -/
def thrown? : Effect → Option TypeDefinition
  | throwNew _ type => type
  | _ => none

/-- The class of the object or of the elements that the effect allocates. -/
def allocated? : Effect → Option TypeDefinition
  | allocate type (some _) => Setting.classOf? type
  | allocateArray element _ (some _) => Setting.classOf? element
  | _ => none

end Effect

/-! ## One step -/

/-- The step imports the definitions in the type of the local that it makes and those of the
exceptions that it throws, and no others; a class that it allocates is in the type of its local. -/
structure Step.Declares (st : Step) : Prop where
  imports : ∀ d, (∃ t ∈ st.imports, t.Occurs d) ↔
    (∃ new, st.result = some new ∧ new.type.Occurs d) ∨ ∃ e ∈ st.effects, e.thrown? = some d
  allocated : ∀ e ∈ st.effects, ∀ d, e.allocated? = some d →
    ∃ new, st.result = some new ∧ new.type.Occurs d

namespace Step.Declares

/-- A step that makes, throws and allocates nothing. -/
theorem silent {m : Machine} {effects : List Effect}
    (h : ∀ e ∈ effects, e.thrown? = none ∧ e.allocated? = none) :
    Declares { machine := m, effects } where
  imports d := by
    constructor
    · rintro ⟨t, ht, -⟩
      cases ht
    · rintro (⟨new, hnew, -⟩ | ⟨e, he, hd⟩)
      · cases hnew
      · rw [(h e he).1] at hd
        cases hd
  allocated e he d hd := by
    rw [(h e he).2] at hd
    cases hd

theorem nothing {m : Machine} : Declares { machine := m } :=
  silent fun _ he => absurd he List.not_mem_nil

theorem single {m : Machine} {e : Effect} (ht : e.thrown? = none) (ha : e.allocated? = none) :
    Declares { machine := m, effects := [e] } :=
  silent fun _ hf => List.mem_singleton.mp hf ▸ ⟨ht, ha⟩

/-- A step that makes a local and imports what is in its type. -/
theorem making {m : Machine} {e : Effect} {new : NewLocal} {t : Signature} (ht : e.thrown? = none)
    (ha : ∀ d, e.allocated? = some d → new.type.Occurs d)
    (hsame : ∀ d, t.Occurs d ↔ new.type.Occurs d) :
    Declares { machine := m, effects := [e], result := some new, imports := [t] } where
  imports d := by simp [hsame, ht]
  allocated f hf d hd := ⟨new, rfl, ha d (List.mem_singleton.mp hf ▸ hd)⟩

/-- Effects that throw and allocate nothing may follow. -/
theorem append {st : Step} (h : st.Declares) {rest : List Effect}
    (hrest : ∀ e ∈ rest, e.thrown? = none ∧ e.allocated? = none) :
    Declares { st with effects := st.effects ++ rest } where
  imports d := by
    rw [h.imports d]
    refine or_congr_right ⟨fun ⟨e, he, hd⟩ => ⟨e, List.mem_append_left _ he, hd⟩, ?_⟩
    rintro ⟨e, he, hd⟩
    rcases List.mem_append.mp he with he | he
    · exact ⟨e, he, hd⟩
    · rw [(hrest e he).1] at hd
      cases hd
  allocated e he d hd := by
    rcases List.mem_append.mp he with he | he
    · exact h.allocated e he d hd
    · rw [(hrest e he).2] at hd
      cases hd

end Step.Declares

namespace Setting

variable {s : Setting} {ls : Locals} {fresh : Nat} {m : Machine} {i : Instruction}

theorem declares_stepMove : (s.stepMove fresh m i).Declares := by
  unfold stepMove
  split
  · split
    · exact .nothing
    · split
      · exact .making rfl nofun fun _ => .rfl
      · split
        · exact .single rfl rfl
        · split
          · exact .nothing
          · exact .single rfl rfl
        · exact .single rfl rfl
  · exact .single rfl rfl

theorem declares_loadField (register : String) (ref : Memory) (base : Value) (offset : Int64) :
    (s.loadField ls fresh m register ref base offset).Declares := by
  unfold loadField
  split
  · exact .making rfl nofun fun _ => .rfl
  · exact .single rfl rfl

theorem declares_stepLoad : (s.stepLoad ls fresh m i).Declares := by
  unfold stepLoad
  split
  · split
    · split
      · exact .nothing
      · unfold loadFrom
        split
        · exact .single rfl rfl
        · exact .single rfl rfl
        · split
          · exact .single rfl rfl
          · exact declares_loadField ..
        · exact declares_loadField ..
        · exact .single rfl rfl
    · exact .single rfl rfl
  · exact .single rfl rfl

theorem declares_stepStore : (s.stepStore ls m i).Declares := by
  unfold stepStore
  split
  · exact .single rfl rfl
  · simp only
    split <;> exact .single rfl rfl

theorem declares_stepLoadAddress : (s.stepLoadAddress m i).Declares := by
  unfold stepLoadAddress
  split
  · split
    · exact .nothing
    · split
      · exact .single rfl rfl
      · exact .nothing
  · exact .single rfl rfl

theorem declares_stepPop : (s.stepPop m i).Declares := by
  unfold stepPop
  simp only
  split
  · split <;> exact .nothing
  · exact .nothing

theorem declares_stepArithmetic (op : ArithmeticOp) : (s.stepArithmetic fresh m i op).Declares := by
  unfold stepArithmetic
  split
  · simp only
    split
    · exact .nothing
    · split
      · exact .single rfl rfl
      · split
        · exact .making rfl nofun fun _ => .rfl
        · exact .single rfl rfl
  · exact .single rfl rfl

theorem declares_branch (c : Condition) (comparison : Option Comparison) :
    Step.Declares { machine := m, effects := [s.branchEffect i c comparison] } := by
  unfold branchEffect
  split <;> exact .single rfl rfl

theorem returnEffect_plain :
    (s.returnEffect m).thrown? = none ∧ (s.returnEffect m).allocated? = none := by
  unfold returnEffect
  split
  · exact ⟨rfl, rfl⟩
  · split <;> exact ⟨rfl, rfl⟩

theorem declares_stepManagedCall (target : UInt64) :
    (s.stepManagedCall fresh m target).Declares := by
  unfold stepManagedCall
  simp only
  split
  · exact .single rfl rfl
  · split
    · exact .single rfl rfl
    · exact .making rfl nofun fun _ => .rfl

theorem declares_stepJump : (s.stepJump fresh m i).Declares := by
  unfold stepJump
  split
  · exact .single rfl rfl
  · split
    · exact (declares_stepManagedCall _).append fun e he =>
        List.mem_singleton.mp he ▸ returnEffect_plain
    · exact .single rfl rfl

theorem declares_throwNew (name : String) : (s.throwNew m name).Declares where
  imports d := by
    cases h : s.findType? name with
    | none => simp [throwNew, h, Effect.thrown?]
    | some g => simp [throwNew, h, Effect.thrown?, eq_comm]
  allocated e he d hd := by
    rw [List.mem_singleton.mp he] at hd
    cases hd

/-- An allocation imports the class it is given, which is what occurs in the type of its local. -/
theorem declares_allocated {effect : Option Nat → Effect} {type : Signature → Signature}
    {input : Input} (ht : ∀ r, (effect r).thrown? = none) (hnone : (effect none).allocated? = none)
    (hsome : ∀ r, (effect (some r)).allocated? = classOf? input)
    (htype : ∀ g d, (type (.definition g)).Occurs d ↔ d = g) :
    (s.allocated fresh m effect type (classOf? input)).Declares := by
  cases hc : classOf? input with
  | none => exact .single (ht _) hnone
  | some g =>
    refine .making (ht _) (fun d hd => ?_) fun d => ?_
    · rw [hsome, hc] at hd
      cases hd
      exact (htype g g).mpr rfl
    · exact Signature.occurs_definition.trans (htype g d).symm

theorem declares_stepHelper (helper : Helper) : (s.stepHelper fresh m helper).Declares := by
  cases helper with
  | initializeMethod => exact .single rfl rfl
  | runtimeClassInit => exact .single rfl rfl
  | objectNew => exact declares_allocated (fun _ => rfl) rfl (fun _ => rfl) (by simp)
  | arrayNew => exact declares_allocated (fun _ => rfl) rfl (fun _ => rfl) (by simp)
  | raiseException => exact .single rfl rfl
  | raiseIndexOutOfRange => exact declares_throwNew _
  | raiseNullReference => exact declares_throwNew _

theorem declares_stepCall : (s.stepCall fresh m i).Declares := by
  unfold stepCall
  split
  · exact .single rfl rfl
  · split
    · exact declares_stepHelper _
    · exact declares_stepManagedCall _

theorem declares_step : (s.step ls fresh m i).Declares := by
  unfold step
  cases s.isa.kind i with
  | move => exact declares_stepMove
  | load => exact declares_stepLoad
  | store => exact declares_stepStore
  | loadAddress => exact declares_stepLoadAddress
  | arithmetic op => exact declares_stepArithmetic op
  | conditionalJump c => exact declares_branch c _
  | compareZeroAndBranch c => exact declares_branch c _
  | jump => exact declares_stepJump
  | call => exact declares_stepCall
  | ret => exact .single returnEffect_plain.1 returnEffect_plain.2
  | pop => exact declares_stepPop
  | push => exact .nothing
  | nop | trap | compare | test => exact .nothing
  | indirectCall | indirectJump | invalid | unknown => exact .single rfl rfl

end Setting

/-! ## The walk -/

namespace Walk

variable {s : Setting} {w : Walk} {i : Instruction}

/-- So far the walk has imported what occurs in the types of its locals and what it throws, and
nothing else; a class that it allocates is in the type of a local. -/
structure Declares (w : Walk) : Prop where
  imports : ∀ d, (∃ t ∈ w.imports, t.Occurs d) ↔
    (∃ l ∈ w.locals, l.type.Occurs d) ∨ ∃ a ∈ w.actions, a.effect.thrown? = some d
  allocated : ∀ a ∈ w.actions, ∀ d, a.effect.allocated? = some d → ∃ l ∈ w.locals, l.type.Occurs d

theorem entryImports_eq (s : Setting) : s.entryImports = s.entryLocals.map (·.type) := by
  have hlength := CallingConvention.length_argumentSlots s.convention s.method
  calc s.entryImports
      = (((Setting.argumentsOf s.method).zip (s.convention.argumentSlots s.method)).map
          Prod.fst).map (fun a => a.2.2) := by
        rw [List.map_fst_zip (Nat.le_of_eq hlength.symm), Setting.entryImports]
    _ = ((((Setting.argumentsOf s.method).zip
          (s.convention.argumentSlots s.method)).zipIdx.map Prod.fst).map Prod.fst).map
          (fun a => a.2.2) := by rw [List.zipIdx_map_fst]
    _ = s.entryLocals.map (·.type) := by
        simp only [Setting.entryLocals, List.map_map, Function.comp_def]

theorem declares_start (s : Setting) : (start s).Declares where
  imports d := by simp [start, entryImports_eq]
  allocated a ha := by cases ha

/-- Actions that throw and allocate nothing may be added. -/
theorem Declares.addActions (h : w.Declares) {v : Walk} {as : List Action}
    (himports : v.imports = w.imports) (hlocals : v.locals = w.locals)
    (hactions : v.actions = w.actions ++ as)
    (has : ∀ a ∈ as, a.effect.thrown? = none ∧ a.effect.allocated? = none) : v.Declares where
  imports d := by
    rw [himports, hlocals, hactions, h.imports d]
    refine or_congr_right ⟨fun ⟨a, ha, hd⟩ => ⟨a, List.mem_append_left _ ha, hd⟩, ?_⟩
    rintro ⟨a, ha, hd⟩
    rcases List.mem_append.mp ha with ha | ha
    · exact ⟨a, ha, hd⟩
    · rw [(has a ha).1] at hd
      cases hd
  allocated a ha d hd := by
    rw [hlocals]
    rw [hactions] at ha
    rcases List.mem_append.mp ha with ha | ha
    · exact h.allocated a ha d hd
    · rw [(has a ha).2] at hd
      cases hd

theorem Declares.arrive (h : w.Declares) : (w.arrive s i).Declares := by
  refine h.addActions ?_ locals_arrive actions_arrive fun a ha => ?_
  · unfold Walk.arrive
    split <;> rfl
  · rw [(mem_lead.mp ha).1]
    exact ⟨rfl, rfl⟩

theorem Declares.branch (h : w.Declares) : (w.branch s i).Declares := by
  obtain ⟨carried, hactions, htaint⟩ := actions_branch (s := s) (w := w) (i := i)
  have hsame : (w.branch s i).imports = w.imports ∧ (w.branch s i).locals = w.locals := by
    unfold Walk.branch
    split
    · split
      · unfold branchBack
        split
        · exact ⟨rfl, rfl⟩
        · split <;> exact ⟨rfl, rfl⟩
      · exact ⟨rfl, rfl⟩
    · exact ⟨rfl, rfl⟩
  refine h.addActions hsame.1 hsame.2 hactions fun a ha => ?_
  obtain ⟨instruction, taint, he⟩ := htaint a ha
  rw [he]
  exact ⟨rfl, rfl⟩

theorem Declares.advance (h : w.Declares) : (w.advance s i).Declares := by
  have hst : (s.step w.locals w.locals.length w.machine i).Declares := Setting.declares_step
  have hlocal : ∀ d, (∃ l ∈ (w.advance s i).locals, l.type.Occurs d) ↔
      (∃ l ∈ w.locals, l.type.Occurs d) ∨
        ∃ new, (s.step w.locals w.locals.length w.machine i).result = some new ∧
          new.type.Occurs d := by
    intro d
    simp only [Walk.advance, List.mem_append, Option.mem_toList, Option.map_eq_some_iff]
    constructor
    · rintro ⟨l, hl | ⟨new, hnew, rfl⟩, hd⟩
      · exact .inl ⟨l, hl, hd⟩
      · exact .inr ⟨new, hnew, hd⟩
    · rintro (⟨l, hl, hd⟩ | ⟨new, hnew, hd⟩)
      · exact ⟨l, .inl hl, hd⟩
      · exact ⟨_, .inr ⟨new, hnew, rfl⟩, hd⟩
  refine ⟨fun d => ?_, fun a ha d hd => ?_⟩
  · rw [hlocal d]
    simp only [Walk.advance, List.mem_append, List.mem_map, or_and_right, exists_or, h.imports d,
      hst.imports d]
    constructor
    · rintro ((hl | ha) | hnew | ⟨e, he, hd⟩)
      · exact .inl (.inl hl)
      · exact .inr (.inl ha)
      · exact .inl (.inr hnew)
      · exact .inr (.inr ⟨_, ⟨e, he, rfl⟩, hd⟩)
    · rintro ((hl | hnew) | ha | ⟨_, ⟨e, he, rfl⟩, hd⟩)
      · exact .inl (.inl hl)
      · exact .inr (.inl hnew)
      · exact .inl (.inr ha)
      · exact .inr (.inr ⟨e, he, hd⟩)
  · rw [hlocal d]
    rcases List.mem_append.mp ha with ha | ha
    · exact .inl (h.allocated a ha d hd)
    · obtain ⟨e, he, rfl⟩ := List.mem_map.mp ha
      exact .inr (hst.allocated e he d hd)

theorem Declares.visit (h : w.Declares) : (visit s w i).Declares :=
  ⟨(h.arrive.advance.branch (s := s) (i := i)).imports,
    (h.arrive.advance.branch (s := s) (i := i)).allocated⟩

/-- What one visit keeps, the whole walk keeps. -/
theorem declares_run (s : Setting) : (run s).Declares :=
  List.foldlRecOn _ _ (declares_start s) fun _ h _ _ => h.visit

end Walk

namespace Analysis

/-- After a walk, a name is imported exactly if it was before, or a definition of that name occurs
in the type of a local or is thrown. -/
theorem mem_imported_record (e : Environment) (session : Session) {w : Walk} (hw : w.Declares)
    (name : String) :
    name ∈ (record e session w).imported e.assembly ↔
      name ∈ session.imported e.assembly ∨
        (∃ l ∈ w.locals, ∃ d, l.type.Occurs d ∧ d.fullName = name) ∨
          ∃ a ∈ w.actions, ∃ d, a.effect.thrown? = some d ∧ d.fullName = name := by
  have hnames : name ∈ referredNames w ↔
      (∃ l ∈ w.locals, ∃ d, l.type.Occurs d ∧ d.fullName = name) ∨
        ∃ a ∈ w.actions, ∃ d, a.effect.thrown? = some d ∧ d.fullName = name := by
    simp only [referredNames, Signature.mem_mentionedAll, Set.mem_ofPred_eq]
    constructor
    · rintro ⟨d, hd, hname⟩
      rcases (hw.imports d).mp hd with ⟨l, hl, hd⟩ | ⟨a, ha, hd⟩
      · exact .inl ⟨l, hl, d, hd, hname⟩
      · exact .inr ⟨a, ha, d, hd, hname⟩
    · rintro (⟨l, hl, d, hd, hname⟩ | ⟨a, ha, d, hd, hname⟩)
      · exact ⟨d, (hw.imports d).mpr (.inl ⟨l, hl, hd⟩), hname⟩
      · exact ⟨d, (hw.imports d).mpr (.inr ⟨a, ha, hd⟩), hname⟩
  rw [imported_record, Set.mem_union, ← hnames]
  simp

end Analysis

/-- For every environment, method and list of instructions: after the walk every definition that
occurs in the type of a local, at any depth, is imported under its full name in the destination
assembly. A name that is new there is one of these, or that of an exception that is thrown. -/
theorem locals_types_imported (e : Environment) (session : Session) (method : Method)
    (body : List Instruction) :
    let w := Walk.run (Analysis.setting e session.names method body)
    let imported := (Analysis.record e session w).imported e.assembly
    (∀ l ∈ w.locals, ∀ d, l.type.Occurs d → d.fullName ∈ imported) ∧
      ∀ name ∈ imported, name ∉ session.imported e.assembly →
        (∃ l ∈ w.locals, ∃ d, l.type.Occurs d ∧ d.fullName = name) ∨
          ∃ a ∈ w.actions, ∃ d, a.effect.thrown? = some d ∧ d.fullName = name := by
  intro w imported
  have h := Analysis.mem_imported_record e session (Walk.declares_run
    (Analysis.setting e session.names method body))
  refine ⟨fun l hl d hd => ?_, fun name hname hnew => ?_⟩
  · exact (h d.fullName).mpr (.inr (.inl ⟨l, hl, d, hd, rfl⟩))
  · exact ((h name).mp hname).resolve_left hnew

/-- `Player[] Roster()` makes an array of three players. -/
def rosterRows : List ListingRow :=
  [⟨0x1000, 7, "mov", "rcx, qword ptr [rip + 0xff9]"⟩, ⟨0x1007, 5, "mov", "edx, 3"⟩,
   ⟨0x100c, 5, "call", "0x3000"⟩, ⟨0x1011, 1, "ret", ""⟩]

def rosterEnvironment : Environment where
  backend := .x64 (.ofListing .x64 rosterRows)
  image := .raw .x64 0x1000 (Array.replicate 18 0x90)
  table := ⟨[playerType], ∅⟩
  helpers := HelperTable.empty.set .arrayNew 0x3000
  symbols := { classAt? := fun a => if a = 0x2000 then some playerType else none }

def rosterJob : Job where
  address := 0x1000
  length := some 18
  method :=
    { token := 0, name := "Roster", owner := playerType, isStatic := true
      returnType := .vector (.definition playerType) }

/-- The class of the players is met nowhere but inside the type of the array. -/
theorem locals_types_imported_roster :
    let w := Walk.run (Analysis.walked rosterEnvironment {} rosterJob)
    w.locals.map (·.type) = [.vector (.definition playerType)] ∧
      "Game.Player" ∉ Session.imported {} rosterEnvironment.assembly ∧
      "Game.Player" ∈ (Analysis.record rosterEnvironment {} w).imported
        rosterEnvironment.assembly := by
  intro w
  have htypes : w.locals.map (·.type) = [.vector (.definition playerType)] := by decide +kernel
  have hfresh : "Game.Player" ∉ Session.imported {} rosterEnvironment.assembly := by
    simp only [Session.imported, Set.mem_ofPred_eq]
    decide +kernel
  obtain ⟨l, hl, htype⟩ : ∃ l ∈ w.locals, l.type = .vector (.definition playerType) :=
    List.mem_map.mp (htypes ▸ List.mem_singleton_self _)
  have hplayer := (locals_types_imported rosterEnvironment {} rosterJob.method _).1 l hl playerType
    (by simp [htype])
  exact ⟨htypes, hfresh, hplayer⟩

end MethodLift
