import MethodLift.Managed.Definition

/-!
# Type signatures

A signature refers to a type as it appears in fields, parameters and generic arguments. Equality of
signatures is decidable, and two signatures are equal only if they mention the same definitions and
the same generic parameters, not just equally named ones.
-/

namespace MethodLift

inductive Signature where
  | definition (d : TypeDefinition)
  /-- An array of one dimension. -/
  | vector (element : Signature)
  | array (element : Signature) (rank : Nat)
  | pointer (pointee : Signature)
  /-- A generic type with its arguments. -/
  | applied (d : TypeDefinition) (arguments : List Signature)
  | parameter (p : GenericParameter)
  /-- A reference to a generic parameter by position. -/
  | position (owner : GenericOwner) (index : Nat)
  deriving Repr

namespace Signature

mutual

/-- Equality of signatures, decided part by part. -/
def decideEq : (a b : Signature) → Decidable (a = b)
  | definition d, definition e => decidable_of_iff (d = e) (by simp)
  | vector a, vector b =>
    match decideEq a b with
    | isTrue h => isTrue (by rw [h])
    | isFalse h => isFalse (by simpa using h)
  | array a r, array b s =>
    match decideEq a b with
    | isTrue h => decidable_of_iff (r = s) (by simp [h])
    | isFalse h => isFalse (by simp [h])
  | pointer a, pointer b =>
    match decideEq a b with
    | isTrue h => isTrue (by rw [h])
    | isFalse h => isFalse (by simpa using h)
  | applied d as, applied e bs =>
    match decideEqList as bs with
    | isTrue h => decidable_of_iff (d = e) (by simp [h])
    | isFalse h => isFalse (by simp [h])
  | parameter p, parameter q => decidable_of_iff (p = q) (by simp)
  | position o i, position u j => decidable_of_iff (o = u ∧ i = j) (by simp)
  | definition _, vector _ | definition _, array _ _ | definition _, pointer _
  | definition _, applied _ _ | definition _, parameter _ | definition _, position _ _
  | vector _, definition _ | vector _, array _ _ | vector _, pointer _
  | vector _, applied _ _ | vector _, parameter _ | vector _, position _ _
  | array _ _, definition _ | array _ _, vector _ | array _ _, pointer _
  | array _ _, applied _ _ | array _ _, parameter _ | array _ _, position _ _
  | pointer _, definition _ | pointer _, vector _ | pointer _, array _ _
  | pointer _, applied _ _ | pointer _, parameter _ | pointer _, position _ _
  | applied _ _, definition _ | applied _ _, vector _ | applied _ _, array _ _
  | applied _ _, pointer _ | applied _ _, parameter _ | applied _ _, position _ _
  | parameter _, definition _ | parameter _, vector _ | parameter _, array _ _
  | parameter _, pointer _ | parameter _, applied _ _ | parameter _, position _ _
  | position _ _, definition _ | position _ _, vector _ | position _ _, array _ _
  | position _ _, pointer _ | position _ _, applied _ _ | position _ _, parameter _ =>
    isFalse (by simp)

def decideEqList : (as bs : List Signature) → Decidable (as = bs)
  | [], [] => isTrue rfl
  | a :: as, b :: bs =>
    match decideEq a b, decideEqList as bs with
    | isTrue h, isTrue k => isTrue (by rw [h, k])
    | isFalse h, _ => isFalse (by simp [h])
    | _, isFalse k => isFalse (by simp [k])
  | [], _ :: _ | _ :: _, [] => isFalse (by simp)

end

instance : DecidableEq Signature := decideEq

/-- The definition a signature is rooted at. -/
def root? : Signature → Option TypeDefinition
  | definition d | applied d _ => some d
  | _ => none

def isValueType (s : Signature) : Bool := s.root?.any TypeDefinition.isValueType

/-- The element in `depth` arrays of one dimension. -/
def inVectors (s : Signature) : Nat → Signature
  | 0 => s
  | depth + 1 => vector (s.inVectors depth)

/-- The signature names a floating point type of the runtime. -/
def isFloatingPoint : Signature → Bool
  | definition d => d.isSystem "Single" || d.isSystem "Double"
  | _ => false

def isVoid : Signature → Bool
  | definition d => d.isSystem "Void"
  | _ => false

mutual

/-- The definitions that a signature mentions, outermost first. -/
def mentioned : Signature → List TypeDefinition
  | definition d => [d]
  | vector e | array e _ | pointer e => e.mentioned
  | applied d args => d :: mentionedAll args
  | parameter _ | position _ _ => []

def mentionedAll : List Signature → List TypeDefinition
  | [] => []
  | s :: ss => s.mentioned ++ mentionedAll ss

end

mutual

def render : Signature → String
  | definition d => d.fullName
  | vector e => e.render ++ "[]"
  | array e rank => e.render ++ "[" ++ String.ofList (List.replicate (rank - 1) ',') ++ "]"
  | pointer e => e.render ++ "*"
  | applied d args => d.fullName ++ "<" ++ ", ".intercalate (renderAll args) ++ ">"
  | parameter p => p.name
  | position .type i => "!" ++ toString i
  | position .method i => "!!" ++ toString i

def renderAll : List Signature → List String
  | [] => []
  | s :: ss => s.render :: renderAll ss

end

end Signature

/-- A field; the offset counts from the object or, for a static field, from the static block. -/
structure Field where
  name : String
  type : Signature
  offset : UInt32
  isStatic : Bool := false
  deriving DecidableEq, Repr

end MethodLift
