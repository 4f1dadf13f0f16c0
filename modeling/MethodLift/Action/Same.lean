import MethodLift.Action.Basic

/-!
# Sameness of actions

Two actions are the same if they do the same to the same values: floating point constants compare as
numbers, fields by owner, name and offset, and methods by their tokens.
-/

namespace MethodLift

/-- Two lists of the same length with related elements. -/
def sameList {α : Type} (same : α → α → Bool) : List α → List α → Bool
  | [], [] => true
  | a :: as, b :: bs => same a b && sameList same as bs
  | _, _ => false

/-- Both missing, or both there and related. -/
def sameOption {α : Type} (same : α → α → Bool) : Option α → Option α → Bool
  | some a, some b => same a b
  | none, none => true
  | _, _ => false

def Input.same (i j : Input) : Bool :=
  i.origin == j.origin && sameOption Value.same i.value j.value

def Comparison.same (c d : Comparison) : Bool :=
  c.left.same d.left && c.right.same d.right && c.modeled == d.modeled

def Method.same (m n : Method) : Bool := m.token == n.token

def Effect.same : Effect → Effect → Bool
  | arithmetic op a b r, arithmetic op' a' b' r' =>
    op == op' && a.same a' && b.same b' && r == r'
  | convert s cs r, convert s' cs' r' => s.same s' && sameList Bytecode.same cs cs' && r == r'
  | loadConstant g c, loadConstant g' c' => g == g' && c.same c'
  | copyRegister d s, copyRegister d' s' => d == d' && s.same s'
  | spill g s v, spill g' s' v' | restore g s v, restore g' s' v' =>
    g == g' && s == s' && sameOption Value.same v v'
  | loadGlobal g a v, loadGlobal g' a' v' => g == g' && a == a' && sameOption Value.same v v'
  | readField f r, readField f' r' => f.same f' && r == r'
  | writeField f v, writeField f' v' => f.same f' && v.same v'
  | branch c k t i, branch c' k' t' i' =>
    c == c' && sameOption Comparison.same k k' && t == t' && i == i'
  | call t m as n r, call t' m' as' n' r' =>
    t == t' && sameOption Method.same m m' && sameList Input.same as as' && n == n' && r == r'
  | allocate c r, allocate c' r' => c.same c' && r == r'
  | allocateArray e n r, allocateArray e' n' r' => e.same e' && n.same n' && r == r'
  | throw e, throw e' => e.same e'
  | ret v, ret v' => sameOption Input.same v v'
  | helper h v, helper h' v' => h == h' && sameOption Value.same v v'
  | a, b => a == b

def Action.same (a b : Action) : Bool := a.address == b.address && a.effect.same b.effect

end MethodLift
