import MethodLift.Proofs.EmittedCode
import MethodLift.Report.Tasks

/-!
# A body is emitted as a whole or not at all

The state of an analysis, its bytecode, its diagnostics and its pseudocode are computed apart from
each other. They agree all the same: a body is emittable exactly when it has bytecode, which is when
each of its actions has; if one has none, the bytecode fails with the first such action, the
diagnostics list all of them, and each stands in the pseudocode with its taint behind it.

`Analysis.AllOrNothing` is the agreement, and every analysis ends in it (`run_agrees`).
-/

namespace MethodLift

/-! ## One action -/

theorem Effect.bytecode_of_bookkeeping {e : Effect} (h : e.isImportant = false) (ls : Locals) :
    e.bytecode ls = .ok [] := by
  cases e <;> simp_all [isImportant, bytecode]

namespace Action

variable {ls : Locals} {a : Action} {t : TaintedAction}

theorem taint?_eq_none_iff : a.taint? ls = none ↔ ∃ code, a.bytecode ls = .ok code := by
  unfold taint?
  cases a.bytecode ls <;> simp

theorem taint?_eq_some_iff : a.taint? ls = some t ↔ a.bytecode ls = .error t := by
  unfold taint?
  cases a.bytecode ls <;> simp

/-- Bookkeeping always has code, so only an action that shows can be tainted. -/
theorem isImportant_of_taint? (h : a.taint? ls = some t) : a.isImportant = true := by
  cases hb : a.isImportant with
  | true => rfl
  | false =>
    have hcode : a.bytecode ls = .ok [] :=
      except_mapError_eq_ok.mpr (Effect.bytecode_of_bookkeeping hb ls)
    rw [taint?_eq_some_iff, hcode] at h
    cases h

end Action

/-! ## All actions -/

theorem emitAll_eq_ok_iff {ls : Locals} {as : List Action} {code : List Bytecode} :
    emitAll ls as = .ok code ↔
      ∃ codes : List (List Bytecode),
        as.map (Action.bytecode ls) = codes.map .ok ∧ code = codes.flatten := by
  induction as generalizing code with
  | nil =>
    constructor
    · intro h
      cases h
      exact ⟨[], rfl, rfl⟩
    · rintro ⟨codes, h, rfl⟩
      obtain rfl : codes = [] := by simpa using h.symm
      rfl
  | cons a as ih =>
    simp only [emitAll, except_bind_eq_ok, except_pure_eq_ok, ih]
    constructor
    · rintro ⟨first, hf, _, ⟨codes, hc, rfl⟩, rfl⟩
      exact ⟨first :: codes, by simp [hf, hc], by simp⟩
    · rintro ⟨codes, h, rfl⟩
      cases codes with
      | nil => simp at h
      | cons first codes =>
        simp only [List.map_cons, List.cons.injEq] at h
        exact ⟨first, h.1, codes.flatten, ⟨codes, h.2, rfl⟩, by simp⟩

theorem emitAll_append {ls : Locals} {as bs : List Action} {code : List Bytecode} :
    emitAll ls (as ++ bs) = .ok code ↔
      ∃ c d, emitAll ls as = .ok c ∧ emitAll ls bs = .ok d ∧ code = c ++ d := by
  induction as generalizing code with
  | nil =>
    constructor
    · exact fun h => ⟨[], code, rfl, h, rfl⟩
    · rintro ⟨c, d, hc, hd, rfl⟩
      cases hc
      exact hd
  | cons a as ih =>
    simp only [List.cons_append, emitAll, except_bind_eq_ok, except_pure_eq_ok, ih]
    constructor
    · rintro ⟨first, hf, _, ⟨c, d, hc, hd, rfl⟩, rfl⟩
      exact ⟨first ++ c, d, ⟨first, hf, c, hc, rfl⟩, hd, by simp⟩
    · rintro ⟨_, d, ⟨first, hf, c, hc, rfl⟩, hd, rfl⟩
      exact ⟨first, hf, c ++ d, ⟨c, d, hc, hd, rfl⟩, by simp⟩

theorem emitAll_singleton {ls : Locals} {a : Action} {code : List Bytecode} :
    emitAll ls [a] = .ok code ↔ a.effect.bytecode ls = .ok code := by
  simp only [emitAll, except_bind_eq_ok, except_pure_eq_ok, Action.bytecode, except_mapError_eq_ok]
  constructor
  · rintro ⟨c, hc, _, hnil, rfl⟩
    cases hnil
    simpa using hc
  · exact fun h => ⟨code, h, [], rfl, by simp⟩

/-- All actions have code exactly when none is tainted. -/
theorem emitAll_isOk_iff {ls : Locals} {as : List Action} :
    (∃ code, emitAll ls as = .ok code) ↔ as.filterMap (Action.taint? ls) = [] := by
  simp only [List.filterMap_eq_nil_iff, Action.taint?_eq_none_iff]
  induction as with
  | nil => simp [emitAll]
  | cons a as ih =>
    simp only [emitAll, except_bind_eq_ok, except_pure_eq_ok, List.forall_mem_cons, ← ih]
    constructor
    · rintro ⟨_, first, hf, rest, hr, -⟩
      exact ⟨⟨first, hf⟩, rest, hr⟩
    · rintro ⟨⟨first, hf⟩, rest, hr⟩
      exact ⟨_, first, hf, rest, hr, rfl⟩

/-- The first tainted action decides how the emission of a list fails. -/
theorem first_taint_of_emitAll {ls : Locals} {as : List Action} {t : TaintedAction}
    (h : emitAll ls as = .error t) :
    ∃ before a after, as = before ++ a :: after ∧ (∀ b ∈ before, b.taint? ls = none) ∧
      a.taint? ls = some t := by
  induction as with
  | nil => cases h
  | cons a as ih =>
    cases ha : a.bytecode ls with
    | error u =>
      rw [emitAll, ha] at h
      cases h
      exact ⟨[], a, as, rfl, by simp, Action.taint?_eq_some_iff.mpr ha⟩
    | ok first =>
      have hrest : emitAll ls as = .error t := by
        rw [emitAll, ha] at h
        cases hr : emitAll ls as with
        | ok code => rw [hr] at h; cases h
        | error u => rw [hr] at h; cases h; rfl
      obtain ⟨before, b, after, rfl, hbefore, hb⟩ := ih hrest
      refine ⟨a :: before, b, after, rfl, ?_, hb⟩
      simpa [List.forall_mem_cons, Action.taint?_eq_none_iff, ha] using hbefore

/-! ## Pseudocode -/

namespace Analysis

/-- The pseudocode of a list of actions. -/
def textOf (ls : Locals) (as : List Action) : String :=
  String.join ((as.filter Action.isImportant).map (pseudocodeLine ls))

theorem textOf_append (ls : Locals) (as bs : List Action) :
    textOf ls (as ++ bs) = textOf ls as ++ textOf ls bs := by
  simp [textOf, String.join_append]

theorem textOf_cons {ls : Locals} {a : Action} (h : a.isImportant = true) (as : List Action) :
    textOf ls (a :: as) = pseudocodeLine ls a ++ textOf ls as := by
  simp [textOf, h]

/-- The text is empty or its last line is complete. -/
def EndsLine (text : String) : Prop := text = "" ∨ text.toList.getLast? = some '\n'

theorem endsLine_textOf (ls : Locals) (as : List Action) : EndsLine (textOf ls as) := by
  unfold textOf
  -- The last line is the only one that counts, and every line is complete.
  rcases List.eq_nil_or_concat (as.filter Action.isImportant) with h | ⟨before, a, h⟩
  · left
    simp [h]
  · right
    simp [h, String.join_append, pseudocodeLine]

/-- The line of a tainted action names its taint. -/
theorem pseudocodeLine_of_taint? {ls : Locals} {a : Action} {t : TaintedAction}
    (h : a.taint? ls = some t) :
    ∃ indent, (indent = "" ∨ indent = "    ") ∧ pseudocodeLine ls a =
      indent ++ a.pseudocode ls ++ " // tainted: " ++ t.taint.message ++ "\n" := by
  refine ⟨if (a.pseudocode ls).toList.getLast? == some ':' then "" else "    ", ?_,
    by simp only [pseudocodeLine, h, String.append_assoc]⟩
  split
  · exact .inl rfl
  · exact .inr rfl

end Analysis

/-! ## Diagnostics -/

/-- The taint that a diagnostic reports. -/
def Diagnostic.taint? : Diagnostic → Option TaintedAction
  | tainted t => some t
  | _ => none

theorem Analysis.taints_remark {what : Nat → Diagnostic} (h : ∀ n, (what n).taint? = none)
    (count : Nat) : (remark what count).filterMap Diagnostic.taint? = [] := by
  unfold remark
  split
  · simp [h]
  · rfl

theorem Analysis.taints_graphRemarks (graph : Option Graph) (lowered : List Lowered.Block) :
    (graphRemarks graph lowered).filterMap Diagnostic.taint? = [] := by
  unfold graphRemarks
  split
  · rfl
  · rw [List.filterMap_append, taints_remark (fun _ => rfl), List.nil_append]
    split
    · rfl
    · exact taints_remark (fun _ => rfl) _

/-! ## The analysis -/

/-- State, bytecode, diagnostics and pseudocode of an analysis agree on what is tainted. -/
structure Analysis.AllOrNothing (a : Analysis) : Prop where
  terminal : a.state = .emittable ∨ a.state = .tainted
  emittable_iff : a.state = .emittable ↔
    a.body ≠ [] ∧ ∀ x ∈ a.actions, ∃ code, x.bytecode a.locals = .ok code
  bytecode_iff : a.state = .emittable ↔ ∃ code, a.bytecode = .ok code
  /-- The code of a body is the code of its actions, in order. -/
  bytecode_eq : ∀ code, a.bytecode = .ok code →
    ∃ codes : List (List Bytecode),
      a.actions.map (Action.bytecode a.locals) = codes.map .ok ∧ code = codes.flatten
  /-- A body without code fails with its first tainted action. -/
  first_taint : ∀ t, a.body ≠ [] → a.bytecode = .error t →
    ∃ before x after u, a.actions = before ++ x :: after ∧
      (∀ y ∈ before, y.taint? a.locals = none) ∧ x.taint? a.locals = some u ∧ t = .action u
  diagnostics_eq : a.diagnostics.filterMap Diagnostic.taint? =
    a.actions.filterMap (Action.taint? a.locals)
  important : ∀ x ∈ a.actions, ∀ t, x.taint? a.locals = some t → x.isImportant = true
  /-- A tainted action has a line of its own between those of the actions before and after it. -/
  annotated : ∀ before x after t, a.actions = before ++ x :: after → x.taint? a.locals = some t →
    ∃ indent, (indent = "" ∨ indent = "    ") ∧
      EndsLine (textOf a.locals before) ∧
      a.pseudocode = textOf a.locals before ++
        (indent ++ x.pseudocode a.locals ++ " // tainted: " ++ t.taint.message ++ "\n") ++
        textOf a.locals after

namespace Analysis

/-- An analysis without a body, and so without actions. -/
theorem allOrNothing_of_empty {a : Analysis} (hb : a.body = []) (ha : a.actions = [])
    (hs : a.state = .tainted) (hd : a.diagnostics.filterMap Diagnostic.taint? = []) :
    a.AllOrNothing where
  terminal := .inr hs
  emittable_iff := by simp [hs, hb]
  bytecode_iff := by simp [hs, bytecode, hb]
  bytecode_eq code h := by simp [bytecode, hb] at h
  first_taint t h := absurd hb h
  diagnostics_eq := by simp [hd, ha]
  important x hx := by simp [ha] at hx
  annotated before x after t h := by simp [ha] at h

/-- An analysis of a body whose state and diagnostics are made from the taints of its actions. -/
theorem allOrNothing_of_taints {a : Analysis} (hb : a.body ≠ [])
    (hs : a.state = if (a.actions.filterMap (Action.taint? a.locals)).isEmpty then .emittable
      else .tainted)
    (hd : a.diagnostics.filterMap Diagnostic.taint? =
      a.actions.filterMap (Action.taint? a.locals)) : a.AllOrNothing := by
  have hcode : a.bytecode = (emitAll a.locals a.actions).mapError .action := by
    simp [bytecode, hb]
  have hstate : a.state = .emittable ↔ a.actions.filterMap (Action.taint? a.locals) = [] := by
    rw [hs, ← List.isEmpty_iff]
    split <;> simp_all
  refine ⟨?_, ?_, ?_, ?_, ?_, hd, ?_, ?_⟩
  · rw [hs]
    split
    · exact .inl rfl
    · exact .inr rfl
  · rw [hstate, List.filterMap_eq_nil_iff]
    simp only [Action.taint?_eq_none_iff]
    exact ⟨fun h => ⟨hb, h⟩, fun h => h.2⟩
  · rw [hstate, ← emitAll_isOk_iff, hcode]
    simp only [except_mapError_eq_ok]
  · intro code h
    rw [hcode] at h
    exact emitAll_eq_ok_iff.mp (except_mapError_eq_ok.mp h)
  · intro t _ h
    rw [hcode] at h
    cases he : emitAll a.locals a.actions with
    | ok c => rw [he] at h; cases h
    | error u =>
      rw [he] at h
      cases h
      obtain ⟨before, x, after, hsplit, hbefore, hx⟩ := first_taint_of_emitAll he
      exact ⟨before, x, after, u, hsplit, hbefore, hx, rfl⟩
  · exact fun x _ t h => Action.isImportant_of_taint? h
  · intro before x after t hsplit hx
    obtain ⟨indent, hindent, hline⟩ := pseudocodeLine_of_taint? hx
    refine ⟨indent, hindent, endsLine_textOf _ _, ?_⟩
    have htext : a.pseudocode = textOf a.locals a.actions := rfl
    rw [htext, hsplit, textOf_append, textOf_cons (Action.isImportant_of_taint? hx), ← hline,
      String.append_assoc]

theorem ofNothing_agrees (job : Job) : (ofNothing job).AllOrNothing :=
  allOrNothing_of_empty rfl rfl rfl rfl

/-- What is made of a walk, whatever walk it is, agrees with itself. -/
theorem ofWalk_agrees (e : Environment) (job : Job) {body : List Instruction} (hb : body ≠ [])
    (w : Walk) : (ofWalk e job body w).AllOrNothing := by
  refine allOrNothing_of_taints hb rfl ?_
  unfold ofWalk
  rw [List.filterMap_append, List.filterMap_append, taints_remark (fun _ => rfl),
    taints_graphRemarks, List.nil_append, List.nil_append, List.filterMap_map]
  exact List.filterMap_some

/-- Every analysis ends in agreement with itself. -/
theorem run_agrees (e : Environment) (session : Session) (job : Job) :
    (run e session job).1.AllOrNothing := by
  unfold run
  simp only
  split
  · exact ofNothing_agrees job
  · rename_i hb
    exact ofWalk_agrees e job (by simpa using hb) _

/-- An analysis that found a body holds the walk over it. -/
theorem run_eq_walk {e : Environment} {session : Session} {job : Job}
    (h : (run e session job).1.body ≠ []) :
    (run e session job).1.locals =
        (Walk.run (setting e session.names job.method (run e session job).1.body)).locals ∧
      (run e session job).1.actions =
        (Walk.run (setting e session.names job.method (run e session job).1.body)).actions := by
  unfold run at h ⊢
  simp only at h ⊢
  split
  · rename_i hb
    simp [hb, ofNothing] at h
  · exact ⟨rfl, rfl⟩

end Analysis

/-! ## A run over many methods -/

/-- Reports of finished analyses are emittable or tainted, and nothing else. -/
theorem RunSummary.analysed_eq {reports : List Report}
    (h : ∀ r ∈ reports, r.state = .emittable ∨ r.state = .tainted) :
    (ofReports reports).analysed = (ofReports reports).emittable + (ofReports reports).tainted := by
  induction reports with
  | nil => rfl
  | cons r reports ih =>
    have hrest := ih fun r' hr' => h r' (List.mem_cons_of_mem r hr')
    simp only [ofReports, List.length_cons, List.countP_cons, Report.isTainted] at hrest ⊢
    rcases h r (List.mem_cons_self ..) with hr | hr <;> simp [hr] <;> omega

namespace Task

variable {e : Environment} {session : Session}

/-- An analysis that a task has finished is emittable or tainted. -/
def Terminal : Task → Prop
  | waiting _ | walking .. => True
  | finished a => a.state = .emittable ∨ a.state = .tainted

theorem terminal_step (session : Session) {t : Task} (h : t.Terminal) :
    (t.step e session).1.Terminal := by
  match t with
  | waiting job =>
    simp only [step]
    split
    · exact .inr rfl
    · trivial
  | walking job body w ahead (d :: pending) => trivial
  | walking job body w (i :: ahead) [] => trivial
  | walking job body w [] [] =>
    simp only [step, Terminal, Analysis.ofWalk]
    split
    · exact .inl rfl
    · exact .inr rfl
  | finished a => exact h

theorem terminal_walkOn (job : Job) (body ahead : List Instruction) (session : Session) (w : Walk)
    (pending : List TypeDefinition) :
    (finished (walkOn e job body session w ahead pending).1).Terminal := by
  induction ahead generalizing session w pending with
  | nil => exact terminal_step session (t := walking job body w [] []) trivial
  | cons i ahead ih => exact ih ..

theorem terminal_finish {t : Task} (h : t.Terminal) :
    (finished (t.finish e session).1).Terminal := by
  cases t with
  | waiting job =>
    simp only [finish]
    split
    · exact .inr rfl
    · exact terminal_walkOn ..
  | walking job body w ahead pending => exact terminal_walkOn ..
  | finished a => exact h

theorem terminal_stepAt {ts : List Task} (h : ∀ t ∈ ts, t.Terminal) (n : Nat) :
    ∀ t ∈ (stepAt e n session ts).1, t.Terminal := by
  induction ts generalizing n with
  | nil => simp [stepAt]
  | cons t ts ih =>
    rw [List.forall_mem_cons] at h
    cases n with
    | zero => exact List.forall_mem_cons.mpr ⟨terminal_step session h.1, h.2⟩
    | succ n => exact List.forall_mem_cons.mpr ⟨h.1, ih h.2 n⟩

theorem terminal_interleave (schedule : List Nat) (session : Session) {ts : List Task}
    (h : ∀ t ∈ ts, t.Terminal) : ∀ t ∈ (interleave e schedule session ts).1, t.Terminal := by
  induction schedule generalizing session ts with
  | nil => exact h
  | cons n schedule ih => exact ih _ (terminal_stepAt h n)

theorem terminal_finishAll (session : Session) {ts : List Task} (h : ∀ t ∈ ts, t.Terminal) :
    ∀ a ∈ (finishAll e session ts).1, (finished a).Terminal := by
  induction ts generalizing session with
  | nil => exact fun _ ha => nomatch ha
  | cons t ts ih =>
    rw [List.forall_mem_cons] at h
    exact List.forall_mem_cons.mpr ⟨terminal_finish h.1, ih _ h.2⟩

end Task

/-- Every analysis is emitted as a whole or not at all, and says so in its state, bytecode,
diagnostics and pseudocode alike; a run counts each of its methods as one or the other, whatever its
schedule is. -/
theorem run_allOrNothing (e : Environment) (session : Session) :
    (∀ job, (Analysis.run e session job).1.AllOrNothing) ∧
      ∀ jobs cancelled schedule,
        let summary := RunSummary.ofReports (analyzeMethods e session jobs cancelled schedule).1
        summary.analysed = summary.emittable + summary.tainted := by
  refine ⟨Analysis.run_agrees e session, fun jobs cancelled schedule => RunSummary.analysed_eq ?_⟩
  intro r hr
  rw [analyzeMethods] at hr
  split at hr
  · simp at hr
  · obtain ⟨a, ha, rfl⟩ := List.mem_map.mp hr
    have hwaiting : ∀ t ∈ (jobs.filter fun job => job.method.hasBody).map Task.waiting,
        t.Terminal := by
      intro t ht
      obtain ⟨job, -, rfl⟩ := List.mem_map.mp ht
      trivial
    refine Task.terminal_finishAll _ ?_ a ha
    split
    · exact Task.terminal_interleave schedule session hwaiting
    · exact hwaiting

end MethodLift
