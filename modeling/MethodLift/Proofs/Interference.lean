import Mathlib.Data.Set.Lattice
import MethodLift.Proofs.Imports
import MethodLift.Proofs.NameLookup
import MethodLift.Proofs.StackDiscipline

/-!
# The methods of a run do not interfere

The tasks of a run share what it has looked up by name and what it has imported. Both grow as tasks
move and neither shows in a report. A walk asks for the two exceptions of `thrownNames` and for no
other name, and an answer to one of them, kept or not, is the same after any number of such
questions (`answer_foldl`). So to a task all sessions of a run look `Alike`: no step of another task
changes what it comes to (`result_step`) or what it still has to import (`imported_step`), and nor
does a whole schedule of steps (`keeps_interleave`). Every method is reported as if it were the only
one, and the imports of a run are those of its methods put together.
-/

namespace MethodLift

open Walk

/-! ## What a walk asks -/

/-- The exceptions that a walk looks up by name. -/
def thrownNames : List String :=
  ["System.IndexOutOfRangeException", "System.NullReferenceException"]

namespace Setting

variable {s : Setting} {ls : Locals} {fresh : Nat} {m : Machine} {i : Instruction}
  {name : String} {type : Option TypeDefinition}

theorem name_of_stepHelper {helper : Helper}
    (h : .throwNew name type ∈ (s.stepHelper fresh m helper).effects) : name ∈ thrownNames := by
  cases helper with
  | raiseIndexOutOfRange =>
    cases List.mem_singleton.mp h
    exact List.mem_cons_self ..
  | raiseNullReference =>
    cases List.mem_singleton.mp h
    exact List.mem_cons_of_mem _ (List.mem_singleton_self _)
  | objectNew | arrayNew =>
    rw [stepHelper, effects_allocated] at h
    cases List.mem_singleton.mp h
  | initializeMethod | runtimeClassInit | raiseException => cases List.mem_singleton.mp h

theorem name_of_stepCall (h : .throwNew name type ∈ (s.stepCall fresh m i).effects) :
    name ∈ thrownNames := by
  unfold stepCall at h
  split at h
  · cases List.mem_singleton.mp h
  · split at h
    · exact name_of_stepHelper h
    · obtain ⟨call, hcall, hstraight, -⟩ := exists_managedCall s fresh m _
      rw [hcall] at h
      rw [← List.mem_singleton.mp h] at hstraight
      cases hstraight

/-- A step throws no other exceptions by name. -/
theorem name_of_step (h : .throwNew name type ∈ (s.step ls fresh m i).effects) :
    name ∈ thrownNames := by
  by_cases hk : s.isa.kind i = .call
  · rw [step, hk] at h
    exact name_of_stepCall h
  · -- Only a call that never comes back throws, so no other form of a step fits.
    have hadds : s.Adds i (s.step ls fresh m i).effects := adds_step
    generalize (s.step ls fresh m i).effects = effects at h hadds
    cases hadds with
    | silent => simp at h
    | single _ _ hs _ =>
      rw [← List.mem_singleton.mp h] at hs
      cases hs
    | tailCall _ _ _ hs _ _ =>
      rcases List.mem_cons.mp h with rfl | h
      · cases hs
      · cases List.mem_singleton.mp h
    | throwNew hfinal => exact absurd (Graph.kind_of_isFinalCall hfinal) hk
    | unmodeled | branch | jump | throw | ret => cases List.mem_singleton.mp h

/-- The setting with other answers to names. -/
def withTypes (s : Setting) (find : String → Option TypeDefinition) : Setting :=
  { s with findType? := find }

variable {find : String → Option TypeDefinition}

theorem needsRegister_withTypes (register : String) (loop : List Instruction) :
    (s.withTypes find).needsRegister register loop = s.needsRegister register loop := by
  induction loop with
  | nil => rfl
  | cons i loop ih =>
    rw [needsRegister, needsRegister, ih]
    rfl

theorem needsSlot_withTypes (slot : Slot) (loop : List Instruction) :
    (s.withTypes find).needsSlot slot loop = s.needsSlot slot loop := by
  induction loop with
  | nil => rfl
  | cons i loop ih =>
    rw [needsSlot, needsSlot, ih]
    rfl

theorem branch_withTypes (w : Walk) : w.branch (s.withTypes find) i = w.branch s i := by
  have hcarried : ∀ loop head now,
      (s.withTypes find).carried loop head now = s.carried loop head now := by
    intro loop head now
    simp only [carried, needsRegister_withTypes, needsSlot_withTypes]
  have hback : ∀ target, w.branchBack (s.withTypes find) i target = w.branchBack s i target := by
    intro target
    simp only [branchBack, hcarried]
    rfl
  simp only [branch, hback]
  rfl

variable (hfind : ∀ name ∈ thrownNames, find name = s.findType? name)

include hfind

theorem stepHelper_withTypes (helper : Helper) :
    (s.withTypes find).stepHelper fresh m helper = s.stepHelper fresh m helper := by
  have hthrow : ∀ name ∈ thrownNames,
      (s.withTypes find).throwNew m name = s.throwNew m name := by
    intro name hname
    have hsame : (s.withTypes find).findType? name = s.findType? name := hfind name hname
    rw [throwNew, throwNew, hsame]
    rfl
  cases helper with
  | raiseIndexOutOfRange => exact hthrow _ (List.mem_cons_self ..)
  | raiseNullReference => exact hthrow _ (List.mem_cons_of_mem _ (List.mem_singleton_self _))
  | _ => rfl

/-- A step depends on the answers to `thrownNames` only. -/
theorem step_withTypes : (s.withTypes find).step ls fresh m i = s.step ls fresh m i := by
  have hkind : (s.withTypes find).isa.kind i = s.isa.kind i := rfl
  cases hk : s.isa.kind i with
  | call =>
    rw [step, step, hkind, hk]
    simp only [stepCall]
    cases i.target? with
    | none => rfl
    | some target =>
      have hhelpers : (s.withTypes find).helpers = s.helpers := rfl
      simp only [hhelpers]
      cases s.helpers.helperAt? target with
      | none => rfl
      | some helper => exact stepHelper_withTypes hfind helper
  | _ => rw [step, step, hkind, hk] <;> rfl

theorem visit_withTypes (w : Walk) : visit (s.withTypes find) w i = visit s w i := by
  have hadvance : ∀ w : Walk, w.advance (s.withTypes find) i = w.advance s i := by
    intro w
    simp only [advance, step_withTypes hfind]
  simp only [visit, hadvance, branch_withTypes]
  rfl

end Setting

namespace Walk

variable {s : Setting} {w w' : Walk} {i : Instruction}

/-- On the way from `w` to `w'` no names but `thrownNames` were asked for. -/
def AsksThrown (w w' : Walk) : Prop :=
  ∃ as, w'.actions = w.actions ++ as ∧ ∀ a ∈ as, ∀ name type, a.effect = .throwNew name type →
    name ∈ thrownNames

theorem AsksThrown.refl (w : Walk) : w.AsksThrown w := ⟨[], by simp, by simp⟩

theorem AsksThrown.trans {u : Walk} (h : w.AsksThrown w') (h' : w'.AsksThrown u) :
    w.AsksThrown u := by
  obtain ⟨as, has, hthrown⟩ := h
  obtain ⟨bs, hbs, hthrown'⟩ := h'
  refine ⟨as ++ bs, by rw [hbs, has, List.append_assoc], fun a ha => ?_⟩
  exact (List.mem_append.mp ha).elim (hthrown a) (hthrown' a)

/-- A label or a taint asks for nothing. -/
theorem AsksThrown.of_plain {a : Action} (h : w'.actions = w.actions ++ [a])
    (ha : ∀ name type, a.effect ≠ .throwNew name type) : w.AsksThrown w' := by
  refine ⟨[a], h, fun b hb name type he => ?_⟩
  cases List.mem_singleton.mp hb
  exact absurd he (ha name type)

theorem asksThrown_advance : w.AsksThrown (w.advance s i) := by
  refine ⟨_, rfl, fun a ha name type he => ?_⟩
  obtain ⟨e, hmem, rfl⟩ := List.mem_map.mp ha
  cases he
  exact Setting.name_of_step hmem

theorem asksThrown_branch : w.AsksThrown (w.branch s i) := by
  unfold Walk.branch
  split
  · split
    · unfold branchBack
      split
      · exact .refl w
      · split
        · exact .refl w
        · exact .of_plain rfl (by simp)
    · exact .refl w
  · exact .refl w

theorem asksThrown_visit : w.AsksThrown (visit s w i) := by
  have harrive : w.AsksThrown (w.arrive s i) := by
    unfold arrive
    split
    · exact .of_plain rfl (by simp)
    · exact .refl w
  exact (harrive.trans asksThrown_advance).trans asksThrown_branch

theorem AsksThrown.askedNames (h : w.AsksThrown w') :
    ∀ name ∈ Analysis.askedNames (w'.actions.drop w.actions.length), name ∈ thrownNames := by
  obtain ⟨as, has, hthrown⟩ := h
  intro name hname
  rw [has, List.drop_left] at hname
  obtain ⟨a, ha, h⟩ := List.mem_filterMap.mp hname
  split at h
  · rename_i he
    cases h
    exact hthrown a ha _ _ he
  · cases h

end Walk

/-! ## What a run remembers -/

namespace NameCache

variable {c : NameCache} {t : TypeTable}

/-- A whole name has the same answer before and after another one was looked up. -/
theorem lookup_after_lookup {m n : List Char} (hm : t.part? m = none) (hn : t.part? n = none)
    (hkey : key n = key m → n = m) : ((c.lookup t m).2.lookup t n).1 = (c.lookup t n).1 := by
  rw [answer_of_whole hn, answer_of_whole hn]
  cases hcached : c.answers.get? (key m) with
  | some answer => rw [lookup_of_kept hcached]
  | none =>
    rw [lookup_of_whole hcached hm]
    simp only [FinMap.get?_insert]
    split
    · rename_i h
      obtain rfl := hkey h
      rw [hcached]
      rfl
    · rfl

theorem part?_of_thrown {name : String} (h : name ∈ thrownNames) :
    t.part? name.toList = none := by
  have hplain : ∀ name ∈ thrownNames, Primitive.ofName? name.toList = none ∧
      Text.before? ['[', ']'] name.toList = none := by
    decide +kernel
  obtain ⟨hprimitive, hbrackets⟩ := hplain name h
  rw [TypeTable.part?, hprimitive]
  simp only [TypeTable.elementName?, hbrackets]
  split <;> rfl

/-- The answers to `thrownNames` stay the same however often they are asked for. -/
theorem answer_foldl {names : List String} (hnames : ∀ n ∈ names, n ∈ thrownNames) {name : String}
    (hname : name ∈ thrownNames) :
    ((names.foldl (fun c n => (c.lookupDefinition t n).2) c).lookupDefinition t name).1 =
      (c.lookupDefinition t name).1 := by
  have hkeys : ∀ m ∈ thrownNames, ∀ n ∈ thrownNames,
      key n.toList = key m.toList → n.toList = m.toList := by
    decide +kernel
  induction names generalizing c with
  | nil => rfl
  | cons n names ih =>
    rw [List.foldl_cons, ih fun m hm => hnames m (List.mem_cons_of_mem _ hm)]
    have hn := hnames n (List.mem_cons_self ..)
    exact congrArg (Option.map NamedType.definition)
      (lookup_after_lookup (part?_of_thrown hn) (part?_of_thrown hname) (hkeys n hn name hname))

end NameCache

/-! ## What a task comes to -/

/-- The names of definitions, if they go into the assembly. -/
def namesIn (e : Environment) (assembly : String) (ds : List TypeDefinition) : Set String :=
  { name | assembly = e.assembly ∧ ∃ d ∈ ds, d.fullName = name }

@[simp] theorem namesIn_nil {e : Environment} {assembly : String} : namesIn e assembly [] = ∅ := by
  simp [namesIn]

theorem namesIn_cons {e : Environment} {assembly : String} {d : TypeDefinition}
    {ds : List TypeDefinition} :
    namesIn e assembly (d :: ds) = namesIn e assembly [d] ∪ namesIn e assembly ds := by
  ext name
  simp [namesIn, and_or_left]

namespace Session

variable {e : Environment} {session : Session} {assembly : String}

theorem imported_openAssembly {name : String} :
    (session.openAssembly name).imported assembly = session.imported assembly := by
  simp only [imported, openAssembly, ReferenceTable.references_openAssembly]

theorem imported_importType {d : TypeDefinition} :
    (session.importType e.assembly d).imported assembly =
      session.imported assembly ∪ namesIn e assembly [d] := by
  ext name
  have hown : ((session.references.references e.assembly).importType d).assembly = e.assembly :=
    ReferenceTable.assembly_references ..
  simp only [imported, importType, ReferenceTable.references_update, hown, namesIn, Set.mem_union,
    Set.mem_ofPred_eq, List.mem_singleton, exists_eq_left]
  split
  · subst assembly
    simp [References.isImported_importType]
  · simp [*]

end Session

/-- To a walk the two sessions look alike. -/
def Alike (e : Environment) (session later : Session) : Prop :=
  ∀ name ∈ thrownNames, (later.names.lookupDefinition e.table name).1 =
    (session.names.lookupDefinition e.table name).1

/-- What the analysis of a job imports into an assembly. -/
def Analysis.imports (e : Environment) (session : Session) (job : Job) (assembly : String) :
    Set String :=
  if (job.bodyIn e).isEmpty then ∅
  else
    namesIn e assembly
      (Signature.mentionedAll
        (Walk.run (setting e session.names job.method (job.bodyIn e))).imports)

theorem Analysis.imported_run (e : Environment) (session : Session) (job : Job)
    (assembly : String) : (run e session job).2.imported assembly =
      session.imported assembly ∪ imports e session job assembly := by
  simp only [imports, run]
  split
  · simp
  · exact imported_record ..

namespace Task

variable {e : Environment} {session later : Session} {job : Job} {body : List Instruction}
  {w w' : Walk} {t : Task}

/-- The analysis that a task comes to if it is the only one. -/
def result (e : Environment) (session : Session) : Task → Analysis
  | waiting job => (Analysis.run e session job).1
  | walking job body w ahead _ => .ofWalk e job body (ahead.foldl (visit e session job body) w)
  | finished a => a

/-- What a task still imports into an assembly if it is the only one. -/
def gains (e : Environment) (session : Session) (assembly : String) : Task → Set String
  | waiting job => Analysis.imports e session job assembly
  | walking job body w ahead pending =>
    namesIn e assembly (pending ++ referred w (ahead.foldl (visit e session job body) w))
  | finished _ => ∅

theorem visit_of_alike (h : Alike e session later) :
    visit e later job body = visit e session job body := by
  funext w i
  exact Setting.visit_withTypes (s := Analysis.setting e session.names job.method body) h w

theorem extends_visit (w : Walk) (i : Instruction) : w.Extends (visit e session job body w i) :=
  Walk.extends_visit

theorem extends_foldl (ahead : List Instruction) (w : Walk) :
    w.Extends (ahead.foldl (visit e session job body) w) :=
  Walk.extends_foldl ahead w

/-- A walk refers to what it referred to before and what it came to refer to since. -/
theorem mentionedAll_append_referred (h : w.Extends w') :
    Signature.mentionedAll w.imports ++ referred w w' = Signature.mentionedAll w'.imports := by
  obtain ⟨more, hmore⟩ := h.imports
  rw [referred, ← hmore, List.drop_left, ← Signature.mentionedAll_append]

theorem referred_trans {u : Walk} (h : w.Extends w') (h' : w'.Extends u) :
    referred w u = referred w w' ++ referred w' u := by
  have hwhole := mentionedAll_append_referred (h.trans h')
  rw [← mentionedAll_append_referred h', ← mentionedAll_append_referred h,
    List.append_assoc] at hwhole
  exact List.append_cancel_left hwhole

/-! ### One step -/

theorem alike_step (h : Alike e session later) (t : Task) : Alike e session (t.step e later).2 := by
  match t with
  | waiting job =>
    cases hb : (job.bodyIn e).isEmpty <;> simp only [step, hb] <;> exact h
  | walking job body w ahead (d :: pending) => exact h
  | walking job body w (i :: ahead) [] =>
    intro name hname
    rw [← h name hname]
    exact NameCache.answer_foldl Walk.asksThrown_visit.askedNames hname
  | walking job body w [] [] => exact h
  | finished a => exact h

/-- A step in a session that looks alike does not change what the task comes to. -/
theorem result_step (h : Alike e session later) (t : Task) :
    (t.step e later).1.result e session = t.result e session := by
  match t with
  | waiting job =>
    cases hb : (job.bodyIn e).isEmpty <;> simp only [step, result, Analysis.run, hb] <;> rfl
  | walking job body w ahead (d :: pending) => rfl
  | walking job body w (i :: ahead) [] =>
    simp only [step, result, visit_of_alike h, List.foldl_cons]
  | walking job body w [] [] => rfl
  | finished a => rfl

/-- What a step imports and what is left to import after it is what was left before it. -/
theorem imported_step (h : Alike e session later) (t : Task) (assembly : String) :
    (t.step e later).2.imported assembly ∪ (t.step e later).1.gains e session assembly =
      later.imported assembly ∪ t.gains e session assembly := by
  match t with
  | waiting job =>
    cases hb : (job.bodyIn e).isEmpty with
    | true => simp [step, gains, Analysis.imports, hb]
    | false =>
      simp only [step, gains, Analysis.imports, hb, Bool.false_eq_true, if_false,
        Session.imported_openAssembly]
      refine congrArg _ (congrArg _ ?_)
      exact mentionedAll_append_referred (extends_foldl (job.bodyIn e) _)
  | walking job body w ahead (d :: pending) =>
    simp only [step, gains, Session.imported_importType, List.cons_append]
    rw [Set.union_assoc, ← namesIn_cons]
  | walking job body w (i :: ahead) [] =>
    simp only [step, gains, visit_of_alike h, List.foldl_cons, List.nil_append]
    rw [referred_trans (extends_visit w i) (extends_foldl ahead _)]
    rfl
  | walking job body w [] [] => simp [step, gains, referred, Signature.mentionedAll]
  | finished a => rfl

/-! ### To the end -/

/-- A task has come from a session to its analysis and a later session. -/
structure Settles (e : Environment) (session later : Session) (t : Task)
    (r : Analysis × Session) : Prop where
  alike : Alike e session r.2
  result_eq : r.1 = t.result e session
  imported_eq : ∀ assembly,
    r.2.imported assembly = later.imported assembly ∪ t.gains e session assembly

theorem finish_step (e : Environment) (session : Session) (t : Task) :
    (t.step e session).1.finish e (t.step e session).2 = t.finish e session := by
  match t with
  | waiting job => cases hb : (job.bodyIn e).isEmpty <;> simp only [step, finish, hb] <;> rfl
  | walking job body w ahead (d :: pending) => cases ahead <;> rfl
  | walking job body w (i :: ahead) [] => rfl
  | walking job body w [] [] => rfl
  | finished a => rfl

/-- It is enough to look at a task after its next step. -/
theorem settles_of_step (h : Alike e session later)
    (hstep : (t.step e later).1.Settles e session (t.step e later).2
      ((t.step e later).1.finish e (t.step e later).2)) :
    t.Settles e session later (t.finish e later) := by
  rw [finish_step] at hstep
  refine ⟨hstep.alike, hstep.result_eq.trans (result_step h t), fun assembly => ?_⟩
  rw [hstep.imported_eq, imported_step h]

theorem settles_finished (h : Alike e session later) (a : Analysis) :
    (finished a).Settles e session later ((finished a).finish e later) :=
  ⟨h, rfl, fun _ => by simp [finish, gains]⟩

theorem settles_walking (job : Job) (body ahead : List Instruction) (w : Walk)
    (pending : List TypeDefinition) (h : Alike e session later) :
    (walking job body w ahead pending).Settles e session later
      ((walking job body w ahead pending).finish e later) := by
  -- Pending imports come before the next visit, so the inner induction is on them.
  induction ahead generalizing w pending later with
  | nil =>
    induction pending generalizing later with
    | nil => exact settles_of_step h (settles_finished h _)
    | cons d pending ih => exact settles_of_step h (ih (alike_step h _))
  | cons i ahead ih =>
    induction pending generalizing later with
    | nil => exact settles_of_step h (ih _ _ (alike_step h _))
    | cons d pending ih' => exact settles_of_step h (ih' (alike_step h _))

theorem settles_finish (h : Alike e session later) (t : Task) :
    t.Settles e session later (t.finish e later) := by
  cases t with
  | waiting job =>
    refine settles_of_step h ?_
    cases hb : (job.bodyIn e).isEmpty <;> simp only [step, hb]
    · exact settles_walking job _ _ _ _ h
    · exact settles_finished h _
  | walking job body w ahead pending => exact settles_walking job body ahead w pending h
  | finished a => exact settles_finished h a

/-! ### All tasks -/

/-- What the tasks still import into an assembly. -/
def gainsAll (e : Environment) (session : Session) (assembly : String) (ts : List Task) :
    Set String :=
  ⋃ t ∈ ts, t.gains e session assembly

@[simp] theorem gainsAll_cons {assembly : String} {ts : List Task} :
    gainsAll e session assembly (t :: ts) =
      t.gains e session assembly ∪ gainsAll e session assembly ts := by
  simp [gainsAll, Set.iUnion_or, Set.iUnion_union_distrib]

/-- The tasks have moved on without a change to what they come to. -/
structure Keeps (e : Environment) (session later : Session) (ts : List Task)
    (r : List Task × Session) : Prop where
  alike : Alike e session r.2
  result_eq : r.1.map (result e session) = ts.map (result e session)
  imported_eq : ∀ assembly, r.2.imported assembly ∪ gainsAll e session assembly r.1 =
    later.imported assembly ∪ gainsAll e session assembly ts

theorem keeps_stepAt (h : Alike e session later) (n : Nat) (ts : List Task) :
    Keeps e session later ts (stepAt e n later ts) := by
  induction ts generalizing n with
  | nil =>
    simp only [stepAt]
    exact ⟨h, rfl, fun _ => rfl⟩
  | cons t ts ih =>
    cases n with
    | zero =>
      refine ⟨alike_step h t, ?_, fun assembly => ?_⟩
      · simp only [stepAt, List.map_cons, result_step h]
      · simp only [stepAt, gainsAll_cons, ← Set.union_assoc, imported_step h]
    | succ n =>
      obtain ⟨halike, hresult, himported⟩ := ih n
      refine ⟨halike, ?_, fun assembly => ?_⟩
      · simp only [stepAt, List.map_cons, hresult]
      · simp only [stepAt, gainsAll_cons]
        rw [Set.union_left_comm, himported, Set.union_left_comm]

/-- What the tasks come to does not depend on the schedule. -/
theorem keeps_interleave (schedule : List Nat) (h : Alike e session later) (ts : List Task) :
    Keeps e session later ts (interleave e schedule later ts) := by
  induction schedule generalizing later ts with
  | nil => exact ⟨h, rfl, fun _ => rfl⟩
  | cons n schedule ih =>
    obtain ⟨halike, hresult, himported⟩ := keeps_stepAt h n ts
    obtain ⟨halike', hresult', himported'⟩ := ih halike (stepAt e n later ts).1
    exact ⟨halike', hresult'.trans hresult, fun assembly =>
      (himported' assembly).trans (himported assembly)⟩

theorem finishAll_eq (h : Alike e session later) (ts : List Task) :
    (finishAll e later ts).1 = ts.map (result e session) ∧
      ∀ assembly, (finishAll e later ts).2.imported assembly =
        later.imported assembly ∪ gainsAll e session assembly ts := by
  induction ts generalizing later with
  | nil => simp [finishAll, gainsAll]
  | cons t ts ih =>
    obtain ⟨halike, hresult, himported⟩ := settles_finish h t
    obtain ⟨hresults, himports⟩ := ih halike
    refine ⟨?_, fun assembly => ?_⟩
    · simp only [finishAll, List.map_cons, hresult, hresults]
    · simp only [finishAll, himports, himported, gainsAll_cons, Set.union_assoc]

end Task

/-- The reports and imports of a run, whatever its schedule is. -/
theorem analyzeMethods_eq (e : Environment) (session : Session) (jobs : List Job)
    (schedule : List Nat) :
    (analyzeMethods e session jobs false schedule).1 =
        (jobs.filter fun job => job.method.hasBody).map
          (fun job => (Analysis.run e session job).1.report e.options.emitBytecode) ∧
      ∀ assembly, (analyzeMethods e session jobs false schedule).2.imported assembly =
        session.imported assembly ∪
          ⋃ job ∈ jobs.filter fun job => job.method.hasBody,
            Analysis.imports e session job assembly := by
  have hfirst : Alike e session session := fun _ _ => rfl
  generalize htasks : (jobs.filter fun job => job.method.hasBody).map Task.waiting = tasks
  obtain ⟨moved, hmoved, hkeeps⟩ : ∃ moved,
      (if e.options.parallel then Task.interleave e schedule session tasks else (tasks, session)) =
        moved ∧ Task.Keeps e session session tasks moved := by
    refine ⟨_, rfl, ?_⟩
    split
    · exact Task.keeps_interleave schedule hfirst tasks
    · exact ⟨hfirst, rfl, fun _ => rfl⟩
  obtain ⟨hresult, himported⟩ := Task.finishAll_eq hkeeps.alike moved.1
  simp only [analyzeMethods, htasks, hmoved, Bool.false_eq_true, if_false, hresult,
    hkeeps.result_eq, himported, hkeeps.imported_eq]
  subst htasks
  refine ⟨?_, fun assembly => ?_⟩
  · simp only [List.map_map]
    rfl
  · simp only [Task.gainsAll, List.mem_map, Set.iUnion_exists, Set.biUnion_and',
      Set.iUnion_iUnion_eq_right]
    rfl

/-- For every environment and session, and however the tasks of the run are interleaved: a run
reports, in their order, on the jobs whose methods have a body, on each as its analysis alone would
from the session that the run began with. The types that it has imported in the end are those
imported before and those that the analyses alone import. Hence the order of the jobs shows in
nothing but the order of the reports, and the schedule in nothing at all. -/
theorem analyzeMethods_independent (e : Environment) (session : Session) (jobs : List Job)
    (schedule : List Nat) :
    (analyzeMethods e session jobs false schedule).1 =
        (jobs.filter fun job => job.method.hasBody).map
          (fun job => (Analysis.run e session job).1.report e.options.emitBytecode) ∧
      (∀ assembly, (analyzeMethods e session jobs false schedule).2.imported assembly =
        session.imported assembly ∪
          ⋃ job ∈ jobs.filter fun job => job.method.hasBody,
            (Analysis.run e session job).2.imported assembly) ∧
      ∀ reordered schedule', jobs.Perm reordered →
        (analyzeMethods e session jobs false schedule).1.Perm
            (analyzeMethods e session reordered false schedule').1 ∧
          ∀ assembly, (analyzeMethods e session reordered false schedule').2.imported assembly =
            (analyzeMethods e session jobs false schedule).2.imported assembly := by
  obtain ⟨hreports, himports⟩ := analyzeMethods_eq e session jobs schedule
  refine ⟨hreports, fun assembly => ?_, fun reordered schedule' hperm => ?_⟩
  · rw [himports]
    simp only [Analysis.imported_run]
    ext name
    simp only [Set.mem_union, Set.mem_iUnion, exists_prop]
    constructor
    · rintro (h | ⟨job, hjob, h⟩)
      · exact .inl h
      · exact .inr ⟨job, hjob, .inr h⟩
    · rintro (h | ⟨job, hjob, h | h⟩)
      · exact .inl h
      · exact .inl h
      · exact .inr ⟨job, hjob, h⟩
  · obtain ⟨hreports', himports'⟩ := analyzeMethods_eq e session reordered schedule'
    refine ⟨?_, fun assembly => ?_⟩
    · rw [hreports, hreports']
      exact (hperm.filter _).map _
    · rw [himports, himports']
      simp only [(hperm.filter _).mem_iff]

/-- Two bodies that throw, each another exception. -/
def throwingRows : List ListingRow :=
  [⟨0x1000, 5, "call", "0x3000"⟩, ⟨0x1005, 5, "call", "0x4000"⟩]

def throwingEnvironment : Environment where
  backend := .x64 (.ofListing .x64 throwingRows)
  image := .raw .x64 0x1000 (Array.replicate 10 0x90)
  table := ⟨[playerType, nullReferenceType, .topLevel
    { id := .listed 2, space := "System", name := "IndexOutOfRangeException" }], ∅⟩
  helpers :=
    (HelperTable.empty.set .raiseIndexOutOfRange 0x3000).set .raiseNullReference 0x4000

/-- A method for each of the bodies, and an abstract one between them. -/
def throwingJobs : List Job :=
  [{ address := 0x1000, length := some 5, method := integerMethod "Bounds" },
   { address := 0x1000, method := { integerMethod "Open" with implementation := .abstract } },
   { address := 0x1005, length := some 5, method := integerMethod "Null" }]

/-- The two tasks in turns, up to the middle of both. -/
def turns : List Nat := [1, 0, 1, 0, 1, 0]

/-- Both exceptions are looked up and imported, whichever method comes first and whether or not the
tasks take turns. -/
theorem analyzeMethods_independent_throwing :
    throwingJobs.Perm throwingJobs.reverse ∧
      (analyzeMethods throwingEnvironment {} throwingJobs false turns).1.map (·.state) =
        [.emittable, .emittable] ∧
      (∀ name ∈ thrownNames, name ∈ (analyzeMethods throwingEnvironment {} throwingJobs false
        turns).2.imported defaultAssembly) ∧
      (analyzeMethods throwingEnvironment {} throwingJobs false turns).1.Perm
        (analyzeMethods throwingEnvironment {} throwingJobs.reverse false []).1 ∧
      (analyzeMethods throwingEnvironment {} throwingJobs.reverse false []).2.imported
          defaultAssembly =
        (analyzeMethods throwingEnvironment {} throwingJobs false turns).2.imported
          defaultAssembly := by
  have hperm : throwingJobs.Perm throwingJobs.reverse := (List.reverse_perm _).symm
  have hstates : (analyzeMethods throwingEnvironment {} throwingJobs false turns).1.map (·.state) =
      [.emittable, .emittable] := by
    decide +kernel
  have himported : ∀ name ∈ thrownNames, ((analyzeMethods throwingEnvironment {} throwingJobs false
      turns).2.references.references defaultAssembly).isImported name = true := by
    decide +kernel
  obtain ⟨hreports, hsame⟩ :=
    (analyzeMethods_independent throwingEnvironment {} throwingJobs turns).2.2 _ [] hperm
  exact ⟨hperm, hstates, himported, hreports, hsame defaultAssembly⟩

end MethodLift
