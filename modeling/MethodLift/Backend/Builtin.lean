import MethodLift.Backend
import MethodLift.Encoding.A64
import MethodLift.Encoding.X64

/-!
# Built-in backends

The backends with a decoder of their own, by architecture.
-/

namespace MethodLift

inductive BackendError where
  | unsupported (architecture : Architecture)
  deriving DecidableEq, Repr

def BackendError.message : BackendError → String
  | unsupported a => "Unsupported architecture: " ++ a.render

/-- The message where the decoder is what could not be set up. -/
def BackendError.decoderMessage (e : BackendError) : String := "Decoder error: " ++ e.message

/-- The backend of an architecture. Its decoder knows the encodings of a small table only and stands
for one that knows them all; what is proved about analyses holds for every decoder. -/
def Backend.builtin : Architecture → Except BackendError Backend
  | .x64 => .ok (x64 Encoding.X64.decoder)
  | .a64 => .ok (a64 Encoding.A64.decoder)
  | a => .error (.unsupported a)

/-- The backend with another decoder in place of its own. -/
def Backend.withDecoder (b : Backend) (decoder : Decoder) : Backend := { b with decoder }

end MethodLift
