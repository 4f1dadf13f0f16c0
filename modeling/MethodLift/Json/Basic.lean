/-!
# JSON values

A JSON value keeps what its text says: members of an object in order, also repeated ones, and a
number as its literal.
-/

namespace MethodLift

inductive Json where
  | null
  | bool (value : Bool)
  /-- A number by its literal. -/
  | number (literal : String)
  | string (text : String)
  | array (items : List Json)
  | object (members : List (String × Json))
  deriving Repr

namespace Json

instance : Inhabited Json := ⟨null⟩

def ofNat (n : Nat) : Json := number (toString n)

def ofInt (n : Int) : Json := number (toString n)

/-- The value, or null if there is none. -/
def ofOption {α : Type} (f : α → Json) : Option α → Json
  | some a => f a
  | none => null

def ofStrings (texts : List String) : Json := array (texts.map string)

/-- The members of an object in the order of their keys. -/
def sortMembers : Json → Json
  | object members => object (members.mergeSort fun a b => a.1 ≤ b.1)
  | v => v

end Json

end MethodLift
