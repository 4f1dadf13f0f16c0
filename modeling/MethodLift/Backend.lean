import MethodLift.Body.Decode
import MethodLift.Lowered.X64
import MethodLift.Isa.A64

/-!
# Backends

A backend is an instruction set with a decoder, a graph builder and a lowering. A part that a
backend does not have is stated as such: no graph, or no lowered blocks. `findHelpers` matches the
exports of a binary, looking through an export that starts with a direct jump.
-/

namespace MethodLift

structure Backend extends InstructionSet where
  decoder : Decoder
  graph? : HelperTable → List Instruction → Option Graph
  lower : Graph → List Lowered.Block

namespace Backend

def x64 (decoder : Decoder) : Backend where
  toInstructionSet := X64.isa
  decoder
  graph? helpers body := some (Graph.build X64.isa helpers body)
  lower := Lowered.X64.lowerGraph X64.isa

def a64 (decoder : Decoder) : Backend where
  toInstructionSet := A64.isa
  decoder
  graph? helpers body := some (Graph.build A64.isa helpers body)
  lower _ := []

/-- The backend without a graph builder. -/
def withoutGraph (b : Backend) : Backend := { b with graph? := fun _ _ => none }

/-- The instructions of the body at `address`. A decoder that does not get past an address has no
body there. -/
def decodeBody (b : Backend) (image : Image) (address : UInt64) (length : Option UInt64)
    (options : BodyOptions) : List Instruction :=
  (MethodLift.decodeBody b.toInstructionSet b.decoder image address length options).getD []

/-- Where an export that starts with a direct jump leads, else the export itself. -/
def followThunk (b : Backend) (image : Image) (address : UInt64) : UInt64 :=
  let first := (image.bytesAt? address maxInstructionSize).bind fun code =>
    b.decoder.decode? code address
  match first with
  | some i => if b.kind i = .jump then i.target?.getD address else address
  | none => address

/-- The runtime helpers among the exports of a binary. -/
def findHelpers (b : Backend) (image : Image) (exports : List (String × UInt64)) : HelperTable :=
  HelperTable.ofExports exports (b.followThunk image)

end Backend

end MethodLift
