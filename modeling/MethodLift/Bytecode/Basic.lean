import MethodLift.Bytecode.Constant
import MethodLift.Instruction.Kind
import MethodLift.Managed.Method

/-!
# Bytecode

The instructions of the stack machine that rebuilt bodies are written for. A branch names the native
address it goes to, and a label marks the place where the code of that address begins.
-/

namespace MethodLift

open MethodLift.Text

/-- A field and the type that declares it. -/
structure FieldRef where
  owner : TypeDefinition
  field : Field
  deriving DecidableEq, Repr

namespace FieldRef

def name (f : FieldRef) : String := f.field.name

def render (f : FieldRef) : String :=
  f.field.type.render ++ " " ++ f.owner.fullName ++ "::" ++ f.field.name

/-- Two references to one field: owner, name and offset tell fields apart. -/
def same (f g : FieldRef) : Bool :=
  f.owner == g.owner && f.field.name == g.field.name && f.field.offset == g.field.offset

end FieldRef

/-- The sizes an integer can be extended from. -/
inductive IntegerSize where
  | i1 | i2 | i4 | i8
  deriving DecidableEq, Repr

namespace IntegerSize

/-- The smallest size that holds this many bits, or the largest there is. -/
def ofBits (bits : Nat) : IntegerSize :=
  if bits ≤ 8 then i1 else if bits ≤ 16 then i2 else if bits ≤ 32 then i4 else i8

/-- The number of bytes. -/
def bytes : IntegerSize → Nat
  | i1 => 1
  | i2 => 2
  | i4 => 4
  | i8 => 8

end IntegerSize

/-- The comparisons a branch on two values can make; `lt`, `le`, `gt` and `ge` are signed. -/
inductive BranchTest where
  | eq | ne | lt | le | gt | ge | ltUnsigned | leUnsigned | gtUnsigned | geUnsigned
  deriving DecidableEq, Repr

/-- The comparison that a native condition asks for. -/
def Condition.test? : Condition → Option BranchTest
  | equal => some .eq
  | notEqual => some .ne
  | less => some .lt
  | lessOrEqual => some .le
  | greater => some .gt
  | greaterOrEqual => some .ge
  | below => some .ltUnsigned
  | belowOrEqual => some .leUnsigned
  | above => some .gtUnsigned
  | aboveOrEqual => some .geUnsigned
  | unmodeled => none

def BranchTest.mnemonic : BranchTest → String
  | eq => "beq"
  | ne => "bne.un"
  | lt => "blt"
  | le => "ble"
  | gt => "bgt"
  | ge => "bge"
  | ltUnsigned => "blt.un"
  | leUnsigned => "ble.un"
  | gtUnsigned => "bgt.un"
  | geUnsigned => "bge.un"

def ArithmeticOp.mnemonic : ArithmeticOp → String
  | add => "add"
  | subtract => "sub"
  | multiply => "mul"
  | divide => "div"
  | and => "and"
  | or => "or"
  | xor => "xor"
  | shiftLeft => "shl"
  | shiftRight => "shr.un"
  | shiftRightArithmetic => "shr"

inductive Bytecode where
  /-- Push or pop an argument or a local variable. -/
  | ldarg (slot : UInt16)
  | starg (slot : UInt16)
  | ldloc (slot : UInt16)
  | stloc (slot : UInt16)
  /-- Push a constant. -/
  | ldcI4 (value : Int32)
  | ldcI8 (value : Int64)
  | ldcR4 (bits : UInt32)
  | ldcR8 (bits : UInt64)
  | ldstr (text : String)
  | ldnull
  /-- Read or write a field, of an object on the stack or a static one. -/
  | ldfld (field : FieldRef)
  | stfld (field : FieldRef)
  | ldsfld (field : FieldRef)
  | stsfld (field : FieldRef)
  | arithmetic (op : ArithmeticOp)
  /-- Extend an integer of the given size. -/
  | conv (size : IntegerSize) (signed : Bool)
  /-- Branch on a comparison of two values. -/
  | branch (test : BranchTest) (target : UInt64)
  | br (target : UInt64)
  | brtrue (target : UInt64)
  | brfalse (target : UInt64)
  | call (method : Method)
  | newobj (type : Signature)
  | newarr (type : Signature)
  | throw
  | ret
  | label (address : UInt64)
  deriving DecidableEq, Repr

/-- The name of the place of an address. -/
def labelName (address : UInt64) : String := "loc_" ++ hexUpper address.toNat

namespace Bytecode

/-- Push a constant; a truth value is pushed as an integer. -/
def ofConstant : Constant → Bytecode
  | .null => ldnull
  | .boolean b => ldcI4 (if b then 1 else 0)
  | .int32 v => ldcI4 v
  | .int64 v => ldcI8 v
  | .single bits => ldcR4 bits
  | .double bits => ldcR8 bits
  | .string text => ldstr text

/-- Sign or zero extension of a value that many bits wide. -/
def extend (bits : Nat) (signed : Bool) : Bytecode := conv (.ofBits bits) signed

/-- Where a branch goes. -/
def target? : Bytecode → Option UInt64
  | branch _ t | br t | brtrue t | brfalse t => some t
  | _ => none

def render : Bytecode → String
  | ldarg i => "ldarg " ++ toString i
  | starg i => "starg " ++ toString i
  | ldloc i => "ldloc " ++ toString i
  | stloc i => "stloc " ++ toString i
  | ldcI4 v => "ldc.i4 " ++ toString v.toInt
  | ldcI8 v => "ldc.i8 " ++ toString v.toInt
  | ldcR4 bits => "ldc.r4 " ++ Decimal.binary32.render bits.toNat
  | ldcR8 bits => "ldc.r8 " ++ Decimal.binary64.render bits.toNat
  | ldstr text => "ldstr " ++ quoted text
  | ldnull => "ldnull"
  | ldfld f => "ldfld " ++ f.render
  | stfld f => "stfld " ++ f.render
  | ldsfld f => "ldsfld " ++ f.render
  | stsfld f => "stsfld " ++ f.render
  | arithmetic op => op.mnemonic
  | conv size signed => (if signed then "conv.i" else "conv.u") ++ toString size.bytes
  | branch test t => test.mnemonic ++ " " ++ labelName t
  | br t => "br " ++ labelName t
  | brtrue t => "brtrue " ++ labelName t
  | brfalse t => "brfalse " ++ labelName t
  | call m => "call " ++ m.render
  | newobj type => "newobj " ++ type.render
  | newarr type => "newarr " ++ type.render
  | throw => "throw"
  | ret => "ret"
  | label a => labelName a ++ ":"

/-- Equality up to how numbers and fields compare; methods are told apart by their tokens. -/
def same : Bytecode → Bytecode → Bool
  | ldcR4 a, ldcR4 b => Decimal.binary32.equal a.toNat b.toNat
  | ldcR8 a, ldcR8 b => Decimal.binary64.equal a.toNat b.toNat
  | ldfld f, ldfld g | stfld f, stfld g | ldsfld f, ldsfld g | stsfld f, stsfld g => f.same g
  | call m, call n => m.token == n.token
  | a, b => a == b

end Bytecode

end MethodLift
