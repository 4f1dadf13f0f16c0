import MethodLift.Text.Lowercase

/-!
# Built-in types

The eighteen types that every program has. Each has a name in the namespace `System`, matched
without regard to ASCII case, and all but one have a keyword, matched exactly.
-/

namespace MethodLift

open MethodLift.Text

inductive Primitive where
  | void | boolean | char | sbyte | byte | int16 | uint16 | int32 | uint32 | int64 | uint64
  | single | double | string | intPtr | uintPtr | object | typedReference
  deriving DecidableEq, Repr

namespace Primitive

def all : List Primitive :=
  [void, boolean, char, sbyte, byte, int16, uint16, int32, uint32, int64, uint64, single, double,
   string, intPtr, uintPtr, object, typedReference]

/-- The name inside the namespace `System`. -/
def name : Primitive → String
  | void => "Void"
  | boolean => "Boolean"
  | char => "Char"
  | sbyte => "SByte"
  | byte => "Byte"
  | int16 => "Int16"
  | uint16 => "UInt16"
  | int32 => "Int32"
  | uint32 => "UInt32"
  | int64 => "Int64"
  | uint64 => "UInt64"
  | single => "Single"
  | double => "Double"
  | string => "String"
  | intPtr => "IntPtr"
  | uintPtr => "UIntPtr"
  | object => "Object"
  | typedReference => "TypedReference"

/-- The C# keyword for the type. -/
def keyword? : Primitive → Option String
  | void => some "void"
  | boolean => some "bool"
  | char => some "char"
  | sbyte => some "sbyte"
  | byte => some "byte"
  | int16 => some "short"
  | uint16 => some "ushort"
  | int32 => some "int"
  | uint32 => some "uint"
  | int64 => some "long"
  | uint64 => some "ulong"
  | single => some "float"
  | double => some "double"
  | string => some "string"
  | intPtr => some "nint"
  | uintPtr => some "nuint"
  | object => some "object"
  | typedReference => none

def isValueType : Primitive → Bool
  | string | object => false
  | _ => true

/-- The type a keyword stands for. -/
def ofKeyword? (keyword : List Char) : Option Primitive :=
  all.find? fun p => p.keyword? == some (String.ofList keyword)

/-- The name without `System.` in front, of any ASCII case. -/
def simpleName (name : List Char) : List Char :=
  if sameIgnoringCase (name.take 7) "System.".toList then name.drop 7 else name

/-- The type of a name, which may stand after `System.`, or of a keyword. -/
def ofName? (name : List Char) : Option Primitive :=
  (all.find? fun p => sameIgnoringCase p.name.toList (simpleName name)) <|> ofKeyword? name

end Primitive

end MethodLift
