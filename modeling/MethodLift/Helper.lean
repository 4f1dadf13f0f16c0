import MethodLift.FinMap

/-!
# Runtime helpers

Compiled code calls a few helpers of its runtime by address: to initialise a method or a class, to
allocate, to raise an exception. A `HelperTable` holds the address of each helper that was found and
answers which helper lives at an address. Three helpers never return.
-/

namespace MethodLift

inductive Helper where
  | initializeMethod | runtimeClassInit | objectNew | arrayNew
  | raiseException | raiseIndexOutOfRange | raiseNullReference
  deriving DecidableEq, Repr

namespace Helper

def all : List Helper :=
  [initializeMethod, runtimeClassInit, objectNew, arrayNew, raiseException, raiseIndexOutOfRange,
   raiseNullReference]

def name : Helper → String
  | initializeMethod => "InitializeMethod"
  | runtimeClassInit => "RuntimeClassInit"
  | objectNew => "ObjectNew"
  | arrayNew => "ArrayNew"
  | raiseException => "RaiseException"
  | raiseIndexOutOfRange => "RaiseIndexOutOfRange"
  | raiseNullReference => "RaiseNullReference"

/-- The names a binary may export the helper under. -/
def exportNames : Helper → List String
  | initializeMethod =>
    ["il2cpp_codegen_initialize_method", "il2cpp_codegen_initialize_runtime_metadata"]
  | runtimeClassInit => ["il2cpp_runtime_class_init"]
  | objectNew => ["il2cpp_object_new", "il2cpp_codegen_object_new"]
  | arrayNew => ["il2cpp_array_new_specific", "il2cpp_array_new"]
  | raiseException => ["il2cpp_raise_exception", "il2cpp_codegen_raise_exception"]
  | raiseIndexOutOfRange =>
    ["il2cpp_codegen_raise_index_out_of_range_exception", "ThrowIndexOutOfRangeException"]
  | raiseNullReference =>
    ["il2cpp_codegen_raise_null_reference_exception", "ThrowNullReferenceException"]

/-- Control does not come back from the helper. -/
def neverReturns : Helper → Bool
  | raiseException | raiseIndexOutOfRange | raiseNullReference => true
  | _ => false

/-- An export is the helper's, whatever underscores stand in front of its name. -/
def hasExport (h : Helper) (name : String) : Bool :=
  h.exportNames.contains (String.ofList (name.toList.dropWhile (· == '_')))

end Helper

/-- Where each helper lives, in both directions. -/
structure HelperTable where
  addresses : FinMap Helper UInt64 := ∅
  helpers : FinMap UInt64 Helper := ∅
  deriving DecidableEq, Repr

namespace HelperTable

def empty : HelperTable := {}

/-- Record the address of a helper. A helper that moves leaves its old address without a helper. -/
def set (t : HelperTable) (h : Helper) (address : UInt64) : HelperTable where
  addresses := t.addresses.insert h address
  helpers :=
    let freed := match t.addresses.get? h with
      | some old => t.helpers.erase old
      | none => t.helpers
    freed.insert address h

def address? (t : HelperTable) (h : Helper) : Option UInt64 := t.addresses.get? h

def helperAt? (t : HelperTable) (address : UInt64) : Option Helper := t.helpers.get? address

/-- A call to this address never comes back. -/
def neverReturns (t : HelperTable) (address : UInt64) : Bool :=
  (t.helperAt? address).any Helper.neverReturns

/-- The number of helpers that were found. -/
def size (t : HelperTable) : Nat := t.addresses.size

/-- The helpers among the exports of a binary: for each the first export under one of its names,
followed by `resolve` to where its code is. -/
def ofExports (exports : List (String × UInt64)) (resolve : UInt64 → UInt64) : HelperTable :=
  Helper.all.foldl (fun t h =>
    match exports.find? fun e => h.hasExport e.1 with
    | some (_, address) => t.set h (resolve address)
    | none => t) empty

end HelperTable

end MethodLift
