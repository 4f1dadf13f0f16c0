import MethodLift.Managed.Table

/-!
# Types by name

A type is looked up by a written name: a built-in type, a full name, an array of a named type, a
generic type with its arguments, a type of the namespace `System`, a simple name or a dotted suffix
of a full name that fits just one type. Every answer, "none" included, is remembered under the name
in lower case; keywords, which are matched exactly, are remembered apart.

`find` answers without any memory. `NameCache.lookup` goes through the cache.
-/

namespace MethodLift

open MethodLift.Text

/-- The answer to a name. -/
structure NamedType where
  definition : TypeDefinition
  /-- The generic arguments written in the name. -/
  arguments : List String := []
  /-- The number of array brackets at the end of the name, modulo 256. -/
  depth : UInt8 := 0
  deriving DecidableEq, Repr

namespace NamedType

/-- The definition in as many arrays as the depth says. -/
def signature (n : NamedType) : Signature :=
  (Signature.definition n.definition).inVectors n.depth.toNat

/-- One array more. -/
def inArray (n : NamedType) : NamedType := { n with depth := n.depth + 1 }

end NamedType

/-- A list of generic arguments cut at the commas outside brackets, from depth `depth`. -/
def cutArguments (depth : Nat) : List Char → List (List Char)
  | [] => [[]]
  | c :: cs =>
    if c = ',' ∧ depth = 0 then [] :: cutArguments depth cs
    else
      let depth :=
        if c = '<' ∨ c = '[' then depth + 1 else if c = '>' ∨ c = ']' then depth - 1 else depth
      consFirst c (cutArguments depth cs)

/-- The generic arguments in a list, trimmed; a blank last one does not count. -/
def splitArguments (list : List Char) : List (List Char) :=
  let cut := (cutArguments 0 list).map trim
  if cut.getLast? = some [] then cut.dropLast else cut

/-- What stands before the number of generic parameters in a name. -/
def arityMark : Char := '\x60'

/-- The base name and the generic arguments of `Base<A, B>`. A base without an arity gets the number
of its arguments. -/
def splitGeneric (name : List Char) : List Char × List (List Char) :=
  let base := name.takeWhile (· != '<')
  let inner := (name.dropWhile (· != '<')).drop 1
  let arguments := splitArguments ((before? ['>'] inner).getD inner)
  let arity := arityMark :: (toString arguments.length).toList
  let base := if base.contains arityMark then base else base ++ arity
  (base, arguments)

namespace TypeTable

/-- The first type whose full name is `name`, up to ASCII case. -/
def findFullName? (t : TypeTable) (name : List Char) : Option TypeDefinition :=
  t.types.find? fun d => sameIgnoringCase d.fullName.toList name

/-- The only type that satisfies `p`. -/
def unique? (t : TypeTable) (p : TypeDefinition → Bool) : Option TypeDefinition :=
  match t.types.filter p with
  | [d] => some d
  | _ => none

/-- The full name with dots for nesting, in lower case. -/
def dottedName (d : TypeDefinition) : List Char :=
  lowercase (d.fullName.toList.map fun c => if c = '/' then '.' else c)

/-- The looser matches for a name that is no full name. -/
def findLoosely? (t : TypeTable) (name : List Char) : Option TypeDefinition :=
  t.findFullName? ("System.".toList ++ name) <|>
  t.unique? (fun d => sameIgnoringCase d.name.toList name) <|>
  (if name.contains '.' then
    let suffix := lowercase name
    t.unique? fun d => suffix.isSuffixOf (dottedName d)
  else none)

/-- A name that is neither a built-in type nor an array: as it stands, or as a generic type. -/
def findPlain? (t : TypeTable) (name : List Char) : Option NamedType :=
  match t.findFullName? name with
  | some d => some { definition := d }
  | none =>
    let (name, arguments) := if name.contains '<' then splitGeneric name else (name, [])
    (t.findFullName? name <|> t.findLoosely? name).map fun d =>
      { definition := d, arguments := arguments.map String.ofList }

/-- What is an array of what: the element name of a name in brackets that is no full name. -/
def elementName? (t : TypeTable) (name : List Char) : Option (List Char) :=
  match t.findFullName? name with
  | some _ => none
  | none => before? ['[', ']'] name

theorem length_of_elementName? {t : TypeTable} {name element : List Char}
    (h : t.elementName? name = some element) : element.length < name.length := by
  unfold elementName? at h
  split at h
  · cases h
  · have := length_of_before? h
    simp at this
    omega

/-- The type of a name, found without any memory. -/
def find? (t : TypeTable) (name : List Char) : Option NamedType :=
  match Primitive.ofName? name with
  | some kind => some { definition := t.primitive kind }
  | none =>
    match _h : t.elementName? name with
    | some element => (t.find? element).map NamedType.inArray
    | none => t.findPlain? name
termination_by name.length
decreasing_by exact length_of_elementName? _h

end TypeTable

/-- The answers given so far, by key. -/
structure NameCache where
  answers : FinMap (List Char) (Option NamedType) := ∅
  deriving DecidableEq, Repr

namespace NameCache

/-- The key of a name: a keyword as it stands, anything else in lower case. -/
def key (name : List Char) : List Char :=
  if (Primitive.ofKeyword? name).isSome then "keyword:".toList ++ name else lowercase name

/-- The number of names on record. -/
def size (c : NameCache) : Nat := c.answers.size

/-- The type of a name, from the cache or found and put there. -/
def lookup (c : NameCache) (t : TypeTable) (name : List Char) : Option NamedType × NameCache :=
  match c.answers.get? (key name) with
  | some answer => (answer, c)
  | none =>
    let (answer, c) : Option NamedType × NameCache :=
      match Primitive.ofName? name with
      | some kind => (some { definition := t.primitive kind }, c)
      | none =>
        match _h : t.elementName? name with
        | some element =>
          let (found, c) := c.lookup t element
          (found.map NamedType.inArray, c)
        | none => (t.findPlain? name, c)
    (answer, ⟨c.answers.insert (key name) answer⟩)
termination_by name.length
decreasing_by exact TypeTable.length_of_elementName? _h

/-- The definition alone. -/
def lookupDefinition (c : NameCache) (t : TypeTable) (name : String) :
    Option TypeDefinition × NameCache :=
  let (found, c) := c.lookup t name.toList
  (found.map (·.definition), c)

end NameCache

end MethodLift
