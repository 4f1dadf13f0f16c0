import MethodLift.Body.Decode
import MethodLift.Json.Reader
import MethodLift.Text.Lowercase

/-!
# Options of a run

Options are read from a JSON object in which every member may be left out, or from an array of the
same values in declared order. Anything else in the text is an error, and so is a member that is
unknown or given twice. A body size of zero is refused once the text itself is in order.
-/

namespace MethodLift

open MethodLift.Text

/-- The layout of the output. -/
inductive OutputFormat where
  | text | json | jsonLines
  deriving DecidableEq, Repr

namespace OutputFormat

def all : List OutputFormat := [text, json, jsonLines]

def render : OutputFormat → String
  | text => "text"
  | json => "json"
  | jsonLines => "jsonl"

/-- The name in options. -/
def name : OutputFormat → String
  | text => "Text"
  | json => "Json"
  | jsonLines => "JsonLines"

/-- The name on a command line. -/
def flag : OutputFormat → String
  | text => "text"
  | json => "json"
  | jsonLines => "json-lines"

/-- The format a user names, in letters of either case. -/
def ofText? (given : String) : Option OutputFormat :=
  match String.ofList (lowercase given.toList) with
  | "text" => some text
  | "json" => some json
  | "jsonl" | "jsonlines" => some jsonLines
  | _ => none

/-- What to say about a name that is no format. -/
def unknownMessage (given : String) : String := "Unknown output format: " ++ given

end OutputFormat

/-- The name in options. -/
def Boundary.name : Boundary → String
  | linear => "Linear"
  | recursive => "Recursive"

/-- The name on a command line. -/
def Boundary.flag : Boundary → String
  | linear => "linear"
  | recursive => "recursive"

/-- The name in options. -/
def Abi.name : Abi → String
  | microsoft => "Microsoft"
  | systemV => "SystemV"

/-- The name on a command line. -/
def Abi.flag : Abi → String
  | microsoft => "microsoft"
  | systemV => "system-v"

structure Options where
  boundary : Boundary := .linear
  maxBodySize : UInt64 := 0x10000
  abi : Abi := .microsoft
  /-- Reports hold bytecode. -/
  emitBytecode : Bool := true
  /-- Methods may be analysed at the same time. -/
  parallel : Bool := true
  output : OutputFormat := .text
  deriving DecidableEq, Repr

inductive OptionsError where
  /-- There is no text to read. -/
  | unreadable
  /-- The text holds no options. -/
  | malformed
  | zeroBodySize
  deriving DecidableEq, Repr

/-- The message, for errors that have one of their own. -/
def OptionsError.message? : OptionsError → Option String
  | zeroBodySize => some "Invalid configuration: max_body_size must be greater than zero"
  | _ => none

namespace Options

def body (o : Options) : BodyOptions := ⟨o.boundary, o.maxBodySize⟩

/-! ## Values of members -/

/-- The value with a given name; a name may stand alone or as the only key of an object. -/
def readChoice? {α : Type} (choices : List α) (name : α → String) : Json → Option α
  | .string text => choices.find? fun a => name a == text
  | .object [(key, .null)] => choices.find? fun a => name a == key
  | _ => none

def readWord? : Json → Option UInt64
  | .number literal => (readDigits 10 literal.toList).bind fun n =>
    if n < UInt64.size then some n.toUInt64 else none
  | _ => none

def readBool? : Json → Option Bool
  | .bool b => some b
  | _ => none

/-! ## Members -/

/-- Each member by its key, in declared order, with how its value changes the options. -/
def members : List (String × (Options → Json → Option Options)) :=
  [("boundary", fun o v =>
      (readChoice? [.linear, .recursive] Boundary.name v).map fun b => { o with boundary := b }),
   ("max_body_size", fun o v => (readWord? v).map fun n => { o with maxBodySize := n }),
   ("abi", fun o v =>
      (readChoice? [.microsoft, .systemV] Abi.name v).map fun a => { o with abi := a }),
   ("emit_bytecode", fun o v => (readBool? v).map fun b => { o with emitBytecode := b }),
   ("parallel", fun o v => (readBool? v).map fun b => { o with parallel := b }),
   ("output", fun o v =>
      (readChoice? OutputFormat.all OutputFormat.name v).map fun f => { o with output := f })]

/-- Read members of an object; `seen` are the keys before them. -/
def readObject? (o : Options) (seen : List String) : List (String × Json) → Option Options
  | [] => some o
  | (key, v) :: rest =>
    if seen.contains key then none
    else
      match members.lookup key with
      | some set => (set o v).bind fun o => readObject? o (key :: seen) rest
      | none => none

/-- Read values in declared order. -/
def readArray? (o : Options) :
    List (String × (Options → Json → Option Options)) → List Json → Option Options
  | _, [] => some o
  | [], _ :: _ => none
  | (_, set) :: sets, v :: vs => (set o v).bind fun o => readArray? o sets vs

def ofJson? : Json → Option Options
  | .object given => readObject? {} [] given
  | .array values => readArray? {} members values
  | _ => none

/-- Options from JSON text. -/
def read (text : String) : Except OptionsError Options :=
  match (Json.read? text).bind ofJson? with
  | none => .error .malformed
  | some o => if o.maxBodySize = 0 then .error .zeroBodySize else .ok o

/-- Options from the contents of a file, if it could be read. -/
def load : Option String → Except OptionsError Options
  | none => .error .unreadable
  | some text => read text

/-- The options as a JSON object. -/
def toJson (o : Options) : Json :=
  .object
    [("boundary", .string o.boundary.name),
     ("max_body_size", .ofNat o.maxBodySize.toNat),
     ("abi", .string o.abi.name),
     ("emit_bytecode", .bool o.emitBytecode),
     ("parallel", .bool o.parallel),
     ("output", .string o.output.name)]

end Options

end MethodLift
