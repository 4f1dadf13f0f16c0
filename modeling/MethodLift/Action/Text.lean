import MethodLift.Action.Basic

/-!
# Actions as text

Pseudocode, one line an action, and a short summary for reports.
-/

namespace MethodLift

open MethodLift.Text

namespace Effect

/-- What a call names. -/
def calleeName (target : UInt64) : Option Method → String
  | some m => m.fullName
  | none => "sub_" ++ hexUpper target.toNat

/-- The text of a value that may be missing. -/
def renderOr (missing : String) (ls : Locals) : Option Value → String
  | some v => v.render ls
  | none => missing

/-- An assignment to a new local. -/
def assignment (ls : Locals) (result : Option Nat) (source : String) : String :=
  (match result with
    | some id => ls.declaration id
    | none => "<unknown>") ++ " = " ++ source

/-- The test of a conditional branch. -/
def testText (ls : Locals) (condition : Condition) : Option Comparison → String
  | some c =>
    if c.modeled then c.left.render ls ++ " " ++ condition.symbol ++ " " ++ c.right.render ls
    else "<flags> " ++ condition.symbol
  | none => "<flags> " ++ condition.symbol

def pseudocode (ls : Locals) : Effect → String
  | arithmetic op left right result =>
    assignment ls (some result) (left.render ls ++ " " ++ op.symbol ++ " " ++ right.render ls)
  | convert source _ result =>
    let type := match ls[result]? with
      | some l => l.type.render
      | none => ""
    assignment ls (some result) ("(" ++ type ++ ")" ++ source.render ls)
  | loadConstant register value => register ++ " = " ++ value.render
  | copyRegister destination source => destination ++ " = " ++ source.render ls
  | spill register slot _ => slot ++ " = " ++ register
  | restore register slot _ => register ++ " = " ++ slot
  | loadGlobal register _ value => register ++ " = " ++ renderOr "<unknown global>" ls value
  | readField field result => assignment ls result (field.render ls)
  | writeField field value => field.render ls ++ " = " ++ value.render ls
  | branch condition comparison target _ =>
    "if (" ++ testText ls condition comparison ++ ") goto " ++ labelName target
  | jump target _ => "goto " ++ labelName target
  | label target => labelName target ++ ":"
  | call target method arguments _ result =>
    let text := calleeName target method ++ "(" ++
      ", ".intercalate (arguments.map (Input.render ls)) ++ ")"
    if result.isSome then assignment ls result text else text
  | allocate ⟨_, some (.classPointer d)⟩ (some result) =>
    assignment ls (some result) ("new " ++ d.fullName ++ "()")
  | allocate type _ => assignment ls none ("new " ++ type.render ls ++ "()")
  | allocateArray element length result =>
    let name := match element.value with
      | some (.classPointer d) => d.fullName
      | _ => element.render ls
    assignment ls result ("new " ++ name ++ "[" ++ length.render ls ++ "]")
  | throw exception => "throw " ++ exception.render ls
  | throwNew typeName _ => "throw new " ++ typeName ++ "()"
  | ret none => "return"
  | ret (some value) => "return " ++ value.render ls
  | helper h argument => h.exportNames.headD "helper" ++ "(" ++ renderOr "" ls argument ++ ")"
  | unmodeled instruction _ => "// " ++ instruction

def summary (ls : Locals) (e : Effect) : String :=
  match e with
  | arithmetic op left right result =>
    op.name ++ " " ++ left.render ls ++ " by " ++ right.render ls ++ " into " ++ ls.nameOf result
  | convert source _ result => "Converts " ++ source.render ls ++ " into " ++ ls.nameOf result
  | loadConstant register value => "Loads constant " ++ value.render ++ " into " ++ register
  | copyRegister destination source => "Copies " ++ source.render ls ++ " into " ++ destination
  | spill register slot value =>
    "Spills " ++ register ++ " (" ++ renderOr "an unknown value" ls value ++ ") to " ++ slot
  | restore register slot value =>
    "Restores " ++ register ++ " (" ++ renderOr "an unknown value" ls value ++ ") from " ++ slot
  | loadGlobal register address _ =>
    let place := match address with
      | some a => " @ 0x" ++ hexUpper a.toNat
      | none => ""
    "Loads global" ++ place ++ " into " ++ register ++ ": " ++ e.pseudocode ls
  | readField field _ => "Reads field " ++ field.render ls
  | writeField field value => "Writes " ++ value.render ls ++ " to field " ++ field.render ls
  | branch _ _ target _ => "Branches to 0x" ++ hexUpper target.toNat ++ ": " ++ e.pseudocode ls
  | jump target _ => "Jumps to 0x" ++ hexUpper target.toNat
  | label target => "Branch target 0x" ++ hexUpper target.toNat
  | call target method _ _ _ =>
    "Calls " ++ calleeName target method ++ " @ 0x" ++ hexUpper target.toNat
  | allocate type _ => "Allocates an instance of " ++ type.render ls
  | allocateArray _ length _ => "Allocates an array of " ++ length.render ls ++ " elements"
  | throw exception => "Throws " ++ exception.render ls
  | throwNew typeName _ => "Throws a new " ++ typeName
  | ret none => "Returns"
  | ret (some value) => "Returns " ++ value.render ls
  | helper .. => "Runtime bookkeeping: " ++ e.pseudocode ls
  | unmodeled instruction _ => "Unmodeled: " ++ instruction

end Effect

namespace Action

def pseudocode (ls : Locals) (a : Action) : String := a.effect.pseudocode ls

def summary (ls : Locals) (a : Action) : String := a.effect.summary ls

end Action

end MethodLift
