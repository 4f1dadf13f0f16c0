import MethodLift.FinMap
import MethodLift.Managed.Definition

/-!
# Metadata records

A type in the metadata is a kind and one word, whose meaning depends on the kind: the index of a
definition or of a generic parameter, or a pointer to another record. `Metadata` holds the records a
word can lead to.
-/

namespace MethodLift

/-- The kind of a type record. -/
inductive TypeKind where
  | stop | void | boolean | char | i1 | u1 | i2 | u2 | i4 | u4 | i8 | u8 | r4 | r8 | string | ptr
  | byRef | valueType | classType | var | array | genericInst | typedByRef | i | u | fnPtr | object
  | szArray | mvar | cmodReqd | cmodOpt | internal | modifier | sentinel | pinned | enum
  deriving DecidableEq, Repr

namespace TypeKind

/-- Every kind with the byte that stands for it and its name. -/
def entries : List (TypeKind × UInt8 × String) :=
  [(stop, 0x00, "End"), (void, 0x01, "Void"), (boolean, 0x02, "Boolean"), (char, 0x03, "Char"),
   (i1, 0x04, "I1"), (u1, 0x05, "U1"), (i2, 0x06, "I2"), (u2, 0x07, "U2"), (i4, 0x08, "I4"),
   (u4, 0x09, "U4"), (i8, 0x0A, "I8"), (u8, 0x0B, "U8"), (r4, 0x0C, "R4"), (r8, 0x0D, "R8"),
   (string, 0x0E, "String"), (ptr, 0x0F, "Ptr"), (byRef, 0x10, "ByRef"),
   (valueType, 0x11, "ValueType"), (classType, 0x12, "Class"), (var, 0x13, "Var"),
   (array, 0x14, "Array"), (genericInst, 0x15, "GenericInst"), (typedByRef, 0x16, "TypedByRef"),
   (i, 0x18, "I"), (u, 0x19, "U"), (fnPtr, 0x1B, "FnPtr"), (object, 0x1C, "Object"),
   (szArray, 0x1D, "SzArray"), (mvar, 0x1E, "MVar"), (cmodReqd, 0x1F, "CModReqd"),
   (cmodOpt, 0x20, "CModOpt"), (internal, 0x21, "Internal"), (modifier, 0x40, "Modifier"),
   (sentinel, 0x41, "Sentinel"), (pinned, 0x45, "Pinned"), (enum, 0x55, "Enum")]

def ofByte? (byte : UInt8) : Option TypeKind := (entries.find? fun e => e.2.1 == byte).map (·.1)

def ofName? (name : String) : Option TypeKind := (entries.find? fun e => e.2.2 == name).map (·.1)

def name (k : TypeKind) : String := ((entries.lookup k).map (·.2)).getD ""

/-- The built-in type of a kind that needs no word. -/
def primitive? : TypeKind → Option Primitive
  | object => some .object
  | void => some .void
  | boolean => some .boolean
  | char => some .char
  | i1 => some .sbyte
  | u1 => some .byte
  | i2 => some .int16
  | u2 => some .uint16
  | i4 => some .int32
  | u4 => some .uint32
  | i => some .intPtr
  | u => some .uintPtr
  | i8 => some .int64
  | u8 => some .uint64
  | r4 => some .single
  | r8 => some .double
  | string => some .string
  | typedByRef => some .typedReference
  | _ => none

/-- The owner of the generic parameter that a kind stands for. -/
def owner? : TypeKind → Option GenericOwner
  | var => some .type
  | mvar => some .method
  | _ => none

def isGenericParameter (k : TypeKind) : Bool := k.owner?.isSome

end TypeKind

/-- A type record. -/
structure Descriptor where
  kind : TypeKind
  data : UInt64 := 0
  byRef : Bool := false
  deriving DecidableEq, Repr

/-- An array of several dimensions. -/
structure ArrayRecord where
  /-- Pointer to the descriptor of the element. -/
  element : UInt64
  rank : Nat
  deriving DecidableEq, Repr

/-- A generic type with its arguments. -/
structure GenericClassRecord where
  /-- Index of the definition, or from version 27 on a pointer to its descriptor. -/
  definition : UInt64
  /-- Pointer to the list of arguments. -/
  arguments : UInt64
  deriving DecidableEq, Repr

/-- A row of the table of generic parameters. -/
structure GenericRow where
  name : String
  flags : Nat
  /-- Position in the owner's parameter list. -/
  index : Nat
  constraints : List Descriptor
  deriving DecidableEq, Repr

structure Metadata where
  version : Float32
  types : FinMap UInt64 Descriptor := ∅
  arrays : FinMap UInt64 ArrayRecord := ∅
  classes : FinMap UInt64 GenericClassRecord := ∅
  /-- Lists of generic arguments, each a pointer to a descriptor. -/
  arguments : FinMap UInt64 (List UInt64) := ∅
  parameters : FinMap UInt32 GenericRow := ∅

/-- From version 27 on generic types point to the descriptor of their definition. -/
def Metadata.pointsToDefinition (m : Metadata) : Bool := !(m.version < 27)

end MethodLift
