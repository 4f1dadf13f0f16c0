import MethodLift.Json.Writer
import MethodLift.Report.Basic

/-!
# Formats of reports

Reports are written as text for a reader, as one JSON document, or as one JSON object a line.
-/

namespace MethodLift

open MethodLift.Text

/-- The lines of a text. -/
def linesOf (text : String) : List String := (lines text.toList).map String.ofList

/-! ## Text -/

namespace Report

def heading (r : Report) : String :=
  "0x" ++ zeroPad 8 (hex r.address.toNat) ++ ": " ++ r.method ++ " [" ++ r.state.name ++ "]"

def sizeLine (r : Report) : String :=
  match r.blockCount with
  | some n => "  " ++ toString r.instructionCount ++ " instructions in " ++ toString n ++ " blocks"
  | none => "  " ++ toString r.instructionCount ++ " instructions, no control flow graph"

def pseudocodeLines (r : Report) : List String :=
  if r.pseudocode.isEmpty then []
  else "  Pseudocode:" :: (linesOf r.pseudocode).map ("  " ++ ·)

def bytecodeLines (r : Report) : List String :=
  match r.bytecode with
  | some (.ok code) => "  Bytecode:" :: code.map fun b => "      " ++ b.render
  | some (.error t) => ["  No bytecode: " ++ t.message]
  | none => []

/-- A report as text, with an empty line at its end. -/
def text (r : Report) : String :=
  let all := [r.heading, r.sizeLine] ++ r.diagnostics.map (fun d => "  ! " ++ d.message) ++
    r.pseudocodeLines ++ r.bytecodeLines ++ [""]
  String.join (all.map (· ++ "\n"))

/-! ## JSON -/

/-- The members of a report; those without a value are left out. -/
def jsonMembers (r : Report) : List (String × Json) :=
  let bytecode := match r.bytecode with
    | some (.ok code) => [("bytecode", Json.ofStrings (code.map Bytecode.render))]
    | some (.error t) => [("bytecode_error", .string t.message)]
    | none => []
  [("address", .string ("0x" ++ hex r.address.toNat)),
   ("method", .string r.method),
   ("state", .string r.state.name),
   ("instruction_count", .ofNat r.instructionCount)] ++
  (r.blockCount.map fun n => ("block_count", Json.ofNat n)).toList ++
  [("actions", .ofStrings r.actions),
   ("pseudocode",
    .ofStrings ((lines r.pseudocode.toList).map fun l => String.ofList (trimStart l)))] ++
  bytecode ++
  [("diagnostics", .ofStrings (r.diagnostics.map Diagnostic.message))]

/-- A report on one line; its members are sorted and say that it is about a method. -/
def jsonLine (r : Report) : String :=
  let members := r.jsonMembers ++ [("type", .string "method")]
  (Json.object members).sortMembers.compact ++ "\n"

end Report

/-- The reports of a run as one JSON document. -/
def jsonDocument (reports : List Report) : String :=
  let summary := RunSummary.ofReports reports
  Json.pretty <| .object
    [("summary", .object
      [("methods", .ofNat summary.analysed),
       ("emittable", .ofNat summary.emittable),
       ("tainted", .ofNat summary.tainted)]),
     ("methods", .array (reports.map fun r => .object r.jsonMembers))]

/-- The reports of a run in a format. -/
def OutputFormat.write (format : OutputFormat) (reports : List Report) : String :=
  match format with
  | text => String.join (reports.map Report.text)
  | json => jsonDocument reports
  | jsonLines => String.join (reports.map Report.jsonLine)

end MethodLift
