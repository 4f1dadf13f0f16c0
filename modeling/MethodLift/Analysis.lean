import MethodLift.Action.Emit
import MethodLift.Backend
import MethodLift.Managed.Name
import MethodLift.Managed.References
import MethodLift.Options
import MethodLift.Walk.Run

/-!
# Analysis of one method

A method body is decoded, its control flow graph is built and lowered, and the walk over it gives
the locals and actions of the rebuilt body. The analysis ends emittable, if every action has
bytecode, or tainted. A body in which nothing decodes is tainted too.

`Environment` is what the methods of a run share and none changes; `Session` is what they add to:
the names looked up and the types that the destination assembly refers to.
-/

namespace MethodLift

open MethodLift.Text

/-- How far the analysis of a method came. -/
inductive AnalysisState where
  | unanalyzed | decoding | graphBuilt | actionsSynthesized
  /-- Every action has bytecode. -/
  | emittable
  /-- Some action has none. -/
  | tainted
  deriving DecidableEq, Repr

namespace AnalysisState

def all : List AnalysisState :=
  [unanalyzed, decoding, graphBuilt, actionsSynthesized, emittable, tainted]

def name : AnalysisState → String
  | unanalyzed => "Unanalyzed"
  | decoding => "Decoding"
  | graphBuilt => "GraphBuilt"
  | actionsSynthesized => "ActionsSynthesized"
  | emittable => "Emittable"
  | tainted => "Tainted"

/-- The analysis is over. -/
def isTerminal : AnalysisState → Bool
  | emittable | tainted => true
  | _ => false

end AnalysisState

/-- Something that keeps an analysis from being complete. -/
inductive Diagnostic where
  | emptyBody
  | graphUnavailable
  /-- The backend has no lowered code. -/
  | loweringUnavailable
  /-- Edges whose target is not known. -/
  | unknownSuccessors (count : Nat)
  | decodeGaps (count : Nat)
  /-- Lowered nodes without a meaning. -/
  | opaqueNodes (count : Nat)
  | tainted (action : TaintedAction)
  deriving DecidableEq, Repr

def Diagnostic.message : Diagnostic → String
  | emptyBody => "no instructions decoded"
  | graphUnavailable => "control flow graph unavailable"
  | loweringUnavailable => "ISIL translation unavailable"
  | unknownSuccessors n => toString n ++ " unresolved indirect branch(es)"
  | decodeGaps n => toString n ++ " undecodable instruction(s)"
  | opaqueNodes n => toString n ++ " opaque ISIL node(s)"
  | tainted t => t.message

/-- Why a method has no bytecode. -/
inductive MethodTaint where
  | emptyBody (address : UInt64)
  | action (t : TaintedAction)
  deriving DecidableEq, Repr

def MethodTaint.message : MethodTaint → String
  | emptyBody a => "No instructions could be decoded at 0x" ++ hexUpper a.toNat
  | action t => t.message

/-- The assembly that bodies are written into when the host names none. -/
def defaultAssembly : String := "Assembly-CSharp"

/-- What the methods of a run share. -/
structure Environment where
  backend : Backend
  image : Image
  table : TypeTable
  options : Options := {}
  helpers : HelperTable := .empty
  symbols : Symbols := {}
  assembly : String := defaultAssembly

/-- What the methods of a run add to. -/
structure Session where
  names : NameCache := {}
  references : ReferenceTable := {}
  deriving DecidableEq, Repr

/-- A method to analyse. -/
structure Job where
  address : UInt64
  /-- The length of the body in bytes, if it is known. -/
  length : Option UInt64 := none
  method : Method
  regions : List ExceptionRegion := []
  deriving DecidableEq, Repr

/-- The instructions that a job's body decodes to. -/
def Job.bodyIn (job : Job) (e : Environment) : List Instruction :=
  e.backend.decodeBody e.image job.address job.length e.options.body

/-- The analysis of a method. -/
structure Analysis where
  job : Job
  state : AnalysisState := .unanalyzed
  body : List Instruction := []
  graph : Option Graph := none
  lowered : List Lowered.Block := []
  locals : Locals := []
  actions : List Action := []
  diagnostics : List Diagnostic := []

namespace Analysis

/-- A count worth a remark. -/
def remark (what : Nat → Diagnostic) (count : Nat) : List Diagnostic :=
  if 0 < count then [what count] else []

/-- The setting in which a body is walked. -/
def setting (e : Environment) (names : NameCache) (method : Method) (body : List Instruction) :
    Setting where
  isa := e.backend.toInstructionSet
  convention := e.backend.convention e.options.abi
  helpers := e.helpers
  symbols := e.symbols
  table := e.table
  findType? name := (names.lookupDefinition e.table name).1
  method
  body

/-- The type names that a walk over a body asked for. -/
def askedNames (actions : List Action) : List String :=
  actions.filterMap fun a =>
    match a.effect with
    | .throwNew name _ => some name
    | _ => none

/-- The session after a walk. -/
def record (e : Environment) (session : Session) (w : Walk) : Session where
  names := (askedNames w.actions).foldl (fun c n => (c.lookupDefinition e.table n).2) session.names
  references :=
    let opened := session.references.openAssembly e.assembly
    opened.update ((opened.references e.assembly).importAll w.imports).2

/-- The graph of a body with its exception edges. -/
def graphOf (e : Environment) (job : Job) (body : List Instruction) : Option Graph :=
  (e.backend.graph? e.helpers body).map fun g => g.attachRegions job.regions

/-- What is incomplete about a graph and its lowered code. -/
def graphRemarks (graph : Option Graph) (lowered : List Lowered.Block) : List Diagnostic :=
  match graph with
  | none => [.graphUnavailable]
  | some g =>
    remark .unknownSuccessors g.unknownCount ++
      (if lowered.isEmpty then [.loweringUnavailable]
        else remark .opaqueNodes (Lowered.opaqueCount lowered))

/-- What becomes of a job if nothing was decoded. -/
def ofNothing (job : Job) : Analysis := { job, state := .tainted, diagnostics := [.emptyBody] }

/-- What becomes of a job by the walk over its body. -/
def ofWalk (e : Environment) (job : Job) (body : List Instruction) (w : Walk) : Analysis :=
  let graph := graphOf e job body
  let lowered := (graph.map e.backend.lower).getD []
  let taints := w.actions.filterMap (Action.taint? w.locals)
  let diagnostics :=
    remark .decodeGaps (body.countP Instruction.isInvalid) ++ graphRemarks graph lowered ++
      taints.map .tainted
  { job, body, graph, lowered, diagnostics
    state := if taints.isEmpty then .emittable else .tainted
    locals := w.locals
    actions := w.actions }

/-- Analyse a method. -/
def run (e : Environment) (session : Session) (job : Job) : Analysis × Session :=
  let body := job.bodyIn e
  if body.isEmpty then (ofNothing job, session)
  else
    let w := Walk.run (setting e session.names job.method body)
    (ofWalk e job body w, record e session w)

/-- The bytes of the body. -/
def rawBytes (a : Analysis) : List UInt8 := a.body.flatMap (·.bytes)

/-- The code of the whole body, or the first thing that stands in its way. -/
def bytecode (a : Analysis) : Except MethodTaint (List Bytecode) :=
  if a.body.isEmpty then .error (.emptyBody a.job.address)
  else (emitAll a.locals a.actions).mapError .action

end Analysis

end MethodLift
