import MethodLift.Action.Text
import MethodLift.Analysis

/-!
# Reports

A report is what the analysis of one method leaves behind: its pseudocode, the summaries of its
actions, its bytecode if that was asked for, and what was incomplete. Reports of a run are counted
in a summary.
-/

namespace MethodLift

structure Report where
  address : UInt64
  /-- The method's signature. -/
  method : String
  state : AnalysisState
  instructionCount : Nat
  /-- The number of blocks, if there is a graph. -/
  blockCount : Option Nat
  /-- One summary an action, bookkeeping included. -/
  actions : List String
  pseudocode : String
  /-- The bytecode or why there is none, if it was asked for. -/
  bytecode : Option (Except MethodTaint (List Bytecode))
  diagnostics : List Diagnostic

def Report.isTainted (r : Report) : Bool := r.state == .tainted

namespace Analysis

/-- One line of pseudocode: all but labels are indented, and a taint is noted behind the line. -/
def pseudocodeLine (ls : Locals) (a : Action) : String :=
  let text := a.pseudocode ls
  let indent := if text.toList.getLast? == some ':' then "" else "    "
  let note := match a.taint? ls with
    | some t => " // tainted: " ++ t.taint.message
    | none => ""
  indent ++ text ++ note ++ "\n"

/-- The pseudocode of the actions that matter. -/
def pseudocode (a : Analysis) : String :=
  String.join ((a.actions.filter Action.isImportant).map (pseudocodeLine a.locals))

def report (a : Analysis) (emitBytecode : Bool) : Report where
  address := a.job.address
  method := a.job.method.render
  state := a.state
  instructionCount := a.body.length
  blockCount := a.graph.map fun g => g.blocks.length
  actions := a.actions.map (Action.summary a.locals)
  pseudocode := a.pseudocode
  bytecode := if emitBytecode then some a.bytecode else none
  diagnostics := a.diagnostics

end Analysis

/-- The counts of a run. -/
structure RunSummary where
  analysed : Nat
  emittable : Nat
  tainted : Nat
  deriving DecidableEq, Repr

def RunSummary.ofReports (reports : List Report) : RunSummary where
  analysed := reports.length
  emittable := reports.countP fun r => r.state == .emittable
  tainted := reports.countP Report.isTainted

end MethodLift
