import MethodLift.Managed.Name

/-!
# Looking up a name, step by step

A name is answered as a whole, or as an array of the name that `TypeTable.part?` cuts off it. The
cache follows the same cut, and it asks itself for the part: what it then keeps under the key of the
whole name is made from what it has, or finds, for the part. `lookup_of_kept`, `lookup_of_whole` and
`lookup_of_part` are the three things that a look-up can do.
-/

namespace MethodLift

namespace TypeTable

variable {t : TypeTable} {name part : List Char}

/-- The name that a name in brackets is an array of, unless that is a type's name as it stands. -/
def part? (t : TypeTable) (name : List Char) : Option (List Char) :=
  match Primitive.ofName? name with
  | some _ => none
  | none => t.elementName? name

theorem ofName?_of_part? (h : t.part? name = some part) : Primitive.ofName? name = none := by
  unfold part? at h
  split at h
  · cases h
  · assumption

theorem elementName?_of_part? (h : t.part? name = some part) :
    t.elementName? name = some part := by
  rwa [part?, ofName?_of_part? h] at h

theorem eq_of_part? (h : t.part? name = some part) : name = part ++ ['[', ']'] := by
  have he := elementName?_of_part? h
  unfold elementName? at he
  split at he
  · cases he
  · exact Text.before?_eq_some_iff.mp he

theorem find?_of_part? (h : t.part? name = some part) :
    t.find? name = (t.find? part).map NamedType.inArray := by
  rw [find?, ofName?_of_part? h]
  simp only
  split
  · rename_i element he
    rw [elementName?_of_part? h] at he
    cases he
    rfl
  · rename_i he
    rw [elementName?_of_part? h] at he
    cases he

theorem elementName?_of_whole (h : t.part? name = none) (hname : Primitive.ofName? name = none) :
    t.elementName? name = none := by
  rwa [part?, hname] at h

/-- A whole name is that of a built-in type, or is looked for among the others. -/
theorem find?_of_whole (h : t.part? name = none) :
    t.find? name = match Primitive.ofName? name with
      | some kind => some { definition := t.primitive kind }
      | none => t.findPlain? name := by
  rw [find?]
  cases hname : Primitive.ofName? name with
  | some kind => rfl
  | none =>
    dsimp only
    split
    · rename_i element he
      rw [elementName?_of_whole h hname] at he
      cases he
    · rfl

/-- Names are built up from whole ones by brackets. -/
theorem part_induction {motive : List Char → Prop} (t : TypeTable)
    (whole : ∀ name, t.part? name = none → motive name)
    (array : ∀ name part, t.part? name = some part → motive part → motive name)
    (name : List Char) : motive name := by
  cases h : t.part? name with
  | none => exact whole name h
  | some part => exact array name part h (part_induction t whole array part)
termination_by name.length
decreasing_by exact length_of_elementName? (elementName?_of_part? h)

end TypeTable

namespace NameCache

variable {c : NameCache} {t : TypeTable} {name part : List Char} {answer : Option NamedType}

theorem lookup_of_kept (h : c.answers.get? (key name) = some answer) :
    c.lookup t name = (answer, c) := by
  rw [lookup, h]

/-- A whole name is found without regard to the cache and then kept. -/
theorem lookup_of_whole (hmiss : c.answers.get? (key name) = none) (h : t.part? name = none) :
    c.lookup t name = (t.find? name, ⟨c.answers.insert (key name) (t.find? name)⟩) := by
  rw [lookup, hmiss, TypeTable.find?_of_whole h]
  cases hname : Primitive.ofName? name with
  | some kind => rfl
  | none =>
    dsimp only
    split
    · rename_i element he
      rw [TypeTable.elementName?_of_whole h hname] at he
      cases he
    · rfl

theorem answer_of_whole (h : t.part? name = none) :
    (c.lookup t name).1 = (c.answers.get? (key name)).getD (t.find? name) := by
  cases hc : c.answers.get? (key name) with
  | some answer => rw [lookup_of_kept hc, Option.getD_some]
  | none => rw [lookup_of_whole hc h, Option.getD_none]

/-- For an array, the cache is asked for the part. -/
theorem lookup_of_part (hmiss : c.answers.get? (key name) = none) (h : t.part? name = some part) :
    c.lookup t name =
      ((c.lookup t part).1.map NamedType.inArray,
        ⟨(c.lookup t part).2.answers.insert (key name)
          ((c.lookup t part).1.map NamedType.inArray)⟩) := by
  rw [lookup, hmiss, TypeTable.ofName?_of_part? h]
  simp only
  split
  · rename_i element he
    rw [TypeTable.elementName?_of_part? h] at he
    cases he
    rfl
  · rename_i he
    rw [TypeTable.elementName?_of_part? h] at he
    cases he

/-- A cache that knows nothing answers as the table does. -/
theorem lookup_empty (t : TypeTable) (name : List Char) :
    (({} : NameCache).lookup t name).1 = t.find? name := by
  induction name using t.part_induction with
  | whole name h => rw [lookup_of_whole rfl h]
  | array name part h ih => rw [lookup_of_part rfl h, TypeTable.find?_of_part? h, ih]

end NameCache

end MethodLift
