import MethodLift.Report.Basic

/-!
# Runs over many methods

Each method of a run is analysed by a task of its own, and the tasks share the session. A task
decodes its body, visits one instruction after the other and imports the definitions that a visit
refers to one by one. Each of these is a step: what it reads from the session and adds to it, it
does at once, and between two steps of a task any other task may move. In a parallel run a schedule
says which task moves next. Tasks left over by the schedule go on to their end in order, and so do
all tasks of a run that is not parallel.
-/

namespace MethodLift

namespace Session

/-- Make room for an assembly. -/
def openAssembly (session : Session) (assembly : String) : Session :=
  { session with references := session.references.openAssembly assembly }

/-- Record a definition in an assembly. -/
def importType (session : Session) (assembly : String) (d : TypeDefinition) : Session :=
  { session with
    references :=
      session.references.update ((session.references.references assembly).importType d) }

/-- Look up names one after the other, and keep the answers. -/
def lookUp (session : Session) (table : TypeTable) (names : List String) : Session :=
  { session with
    names := names.foldl (fun c n => (c.lookupDefinition table n).2) session.names }

end Session

/-- The analysis of a job under way. -/
inductive Task where
  | waiting (job : Job)
  /-- In the walk over the body, before the instructions ahead, with definitions still to import. -/
  | walking (job : Job) (body : List Instruction) (walk : Walk) (ahead : List Instruction)
      (pending : List TypeDefinition)
  | finished (analysis : Analysis)

namespace Task

/-- The walk at the start of a body. -/
def start (e : Environment) (session : Session) (job : Job) (body : List Instruction) : Walk :=
  Walk.start (Analysis.setting e session.names job.method body)

/-- Visit an instruction with the answers that the session has for it now. -/
def visit (e : Environment) (session : Session) (job : Job) (body : List Instruction) (w : Walk)
    (i : Instruction) : Walk :=
  Walk.visit (Analysis.setting e session.names job.method body) w i

/-- The session after a visit that took the walk from `w` to `w'`. -/
def asked (e : Environment) (session : Session) (w w' : Walk) : Session :=
  session.lookUp e.table (Analysis.askedNames (w'.actions.drop w.actions.length))

/-- The definitions that a visit which took the walk from `w` to `w'` refers to. -/
def referred (w w' : Walk) : List TypeDefinition :=
  Signature.mentionedAll (w'.imports.drop w.imports.length)

/-- Take the next step. -/
def step (e : Environment) (session : Session) : Task → Task × Session
  | waiting job =>
    let body := job.bodyIn e
    if body.isEmpty then (finished (.ofNothing job), session)
    else
      let w := start e session job body
      (walking job body w body (Signature.mentionedAll w.imports), session.openAssembly e.assembly)
  | walking job body w ahead (d :: pending) =>
    (walking job body w ahead pending, session.importType e.assembly d)
  | walking job body w (i :: ahead) [] =>
    let w' := visit e session job body w i
    (walking job body w' ahead (referred w w'), asked e session w w')
  | walking job body w [] [] => (finished (.ofWalk e job body w), session)
  | finished a => (finished a, session)

/-- Import what is pending, visit the instructions ahead, and import what they refer to. -/
def walkOn (e : Environment) (job : Job) (body : List Instruction) :
    Session → Walk → List Instruction → List TypeDefinition → Analysis × Session
  | session, w, [], pending =>
    (.ofWalk e job body w, pending.foldl (·.importType e.assembly ·) session)
  | session, w, i :: ahead, pending =>
    let session := pending.foldl (·.importType e.assembly ·) session
    let w' := visit e session job body w i
    walkOn e job body (asked e session w w') w' ahead (referred w w')

/-- Go on to the end. -/
def finish (e : Environment) (session : Session) : Task → Analysis × Session
  | waiting job =>
    let body := job.bodyIn e
    if body.isEmpty then (.ofNothing job, session)
    else
      let w := start e session job body
      walkOn e job body (session.openAssembly e.assembly) w body (Signature.mentionedAll w.imports)
  | walking job body w ahead pending => walkOn e job body session w ahead pending
  | finished a => (a, session)

/-- The task at a position takes a step. -/
def stepAt (e : Environment) : Nat → Session → List Task → List Task × Session
  | _, session, [] => ([], session)
  | 0, session, t :: ts =>
    let (t, session) := t.step e session
    (t :: ts, session)
  | n + 1, session, t :: ts =>
    let (ts, session) := stepAt e n session ts
    (t :: ts, session)

/-- The tasks take steps as the schedule has it. -/
def interleave (e : Environment) : List Nat → Session → List Task → List Task × Session
  | [], session, ts => (ts, session)
  | n :: schedule, session, ts =>
    let (ts, session) := stepAt e n session ts
    interleave e schedule session ts

/-- All tasks go on to their end, one after the other. -/
def finishAll (e : Environment) : Session → List Task → List Analysis × Session
  | session, [] => ([], session)
  | session, t :: ts =>
    let (a, session) := t.finish e session
    let (as, session) := finishAll e session ts
    (a :: as, session)

end Task

/-- Analyse the jobs whose methods have a body and report on each, in their order. A run that is
cancelled before it starts reports nothing. -/
def analyzeMethods (e : Environment) (session : Session) (jobs : List Job) (cancelled : Bool)
    (schedule : List Nat) : List Report × Session :=
  if cancelled then ([], session)
  else
    let tasks := (jobs.filter fun job => job.method.hasBody).map Task.waiting
    let (tasks, session) :=
      if e.options.parallel then Task.interleave e schedule session tasks else (tasks, session)
    let (analyses, session) := Task.finishAll e session tasks
    (analyses.map fun a => a.report e.options.emitBytecode, session)

end MethodLift
