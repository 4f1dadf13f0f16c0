import MethodLift.Action.Basic
import MethodLift.Action.Emit
import MethodLift.Action.Same
import MethodLift.Action.Text
import MethodLift.Action.Value
import MethodLift.Analysis
import MethodLift.Backend
import MethodLift.Backend.Builtin
import MethodLift.Body.Basic
import MethodLift.Body.Decode
import MethodLift.Body.Descent
import MethodLift.Body.Linear
import MethodLift.Bytecode.Basic
import MethodLift.Bytecode.Constant
import MethodLift.Decimal.Shortest
import MethodLift.Encoding.A64
import MethodLift.Encoding.Listing
import MethodLift.Encoding.X64
import MethodLift.FinMap
import MethodLift.Flow.Graph
import MethodLift.Helper
import MethodLift.Image.Basic
import MethodLift.Image.Bytes
import MethodLift.Image.Elf
import MethodLift.Image.File
import MethodLift.Image.MachO
import MethodLift.Image.Pe
import MethodLift.Instruction.Basic
import MethodLift.Instruction.Kind
import MethodLift.Isa.A64
import MethodLift.Isa.Basic
import MethodLift.Isa.X64
import MethodLift.Json.Basic
import MethodLift.Json.Reader
import MethodLift.Json.Writer
import MethodLift.Lowered.Basic
import MethodLift.Lowered.Json
import MethodLift.Lowered.X64
import MethodLift.Managed.Definition
import MethodLift.Managed.Method
import MethodLift.Managed.Name
import MethodLift.Managed.Primitive
import MethodLift.Managed.References
import MethodLift.Managed.Signature
import MethodLift.Managed.Table
import MethodLift.Metadata.Record
import MethodLift.Metadata.Resolve
import MethodLift.Operand.Basic
import MethodLift.Operand.Reader
import MethodLift.Options
import MethodLift.Proofs.AllOrNothing
import MethodLift.Proofs.DefinedBeforeUse
import MethodLift.Proofs.EmittedCode
import MethodLift.Proofs.Scope
import MethodLift.Register.A64
import MethodLift.Register.X64
import MethodLift.Report.Basic
import MethodLift.Report.Format
import MethodLift.Report.Tasks
import MethodLift.Text.Blank
import MethodLift.Text.Lowercase
import MethodLift.Text.Number
import MethodLift.Text.Printable
import MethodLift.Text.Quoted
import MethodLift.Walk.Loop
import MethodLift.Walk.Machine
import MethodLift.Walk.Run
import MethodLift.Walk.Setting
import MethodLift.Walk.Step
import MethodLift.Proofs.Execution
import MethodLift.Proofs.StraightLine
import MethodLift.Proofs.Operands
import MethodLift.Proofs.Recorded
import MethodLift.Proofs.Replay
import MethodLift.Proofs.Blocks
import MethodLift.Proofs.StepForms
import MethodLift.Proofs.Layout
import MethodLift.Proofs.StackDiscipline
import MethodLift.Proofs.Labels
import MethodLift.Proofs.FallThrough
import MethodLift.Proofs.Edges
import MethodLift.Proofs.Coverage
import MethodLift.Proofs.Imports
import MethodLift.Proofs.NameLookup
import MethodLift.Proofs.Interference
import MethodLift.Proofs.NameCase
import MethodLift.Proofs.NameHistory
import MethodLift.Proofs.CallChains
import MethodLift.Proofs.Caches
import MethodLift.Proofs.Support
import MethodLift.Proofs.Depth
import MethodLift.Proofs.Termination
import MethodLift.Proofs.ParameterIdentity
import MethodLift.Proofs.Lockstep
import MethodLift.Proofs.ResolutionHistory
import MethodLift.Proofs.GenericEncoding
import MethodLift.Proofs.FailedInstances
import MethodLift.Proofs.KnownNames
import MethodLift.Proofs.WrittenText
import MethodLift.Proofs.OperandText
import MethodLift.Proofs.Sweeps
import MethodLift.Proofs.DecodingWindow
import MethodLift.Proofs.ByteCoverage
import MethodLift.Proofs.SweepEnds
import MethodLift.Proofs.SearchClosure
import MethodLift.Proofs.VisitOrder
import MethodLift.Proofs.HelperMoves
import MethodLift.Proofs.StackPointer
import MethodLift.Proofs.WrittenRegisters
import MethodLift.Proofs.CallFrames
import MethodLift.Proofs.ExceptionEdges
import MethodLift.Proofs.Joins
import MethodLift.Proofs.LoweredFlow
import MethodLift.Proofs.HeldValues
import MethodLift.Proofs.ImportedLocals
import MethodLift.Proofs.NamedTypes
import MethodLift.Proofs.IntegerWidths
import MethodLift.Proofs.AddressQueries
import MethodLift.Proofs.MemoryView
import MethodLift.Proofs.NameComponents
import MethodLift.Proofs.GenericNames
