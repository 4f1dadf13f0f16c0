import Mathlib.Data.Set.Insert
import MethodLift.Analysis

/-!
# What an analysis adds to the references

Importing a signature hands it back and records the definitions that occur in it, however deep; the
first definition of a name stays (`importSignature_eq`, `records_importSignature`). So the names on
record after a list of signatures are those of all definitions that occur in them, and neither order
nor repetition matters (`isImported_importAll`). An analysis imports the types that its walk refers
to into the destination assembly and leaves the other assemblies alone (`imported_record`).
-/

namespace MethodLift

namespace Signature

/-- The definition occurs in the signature: as the whole of it, in an element or a pointee, as a
generic type or in an argument of one. In a generic parameter there is none. -/
inductive Occurs (d : TypeDefinition) : Signature → Prop
  | definition : Occurs d (.definition d)
  | vector {e : Signature} : Occurs d e → Occurs d (.vector e)
  | array {e : Signature} {rank : Nat} : Occurs d e → Occurs d (.array e rank)
  | pointer {e : Signature} : Occurs d e → Occurs d (.pointer e)
  | generic {args : List Signature} : Occurs d (.applied d args)
  | argument {g : TypeDefinition} {args : List Signature} {a : Signature} :
      a ∈ args → Occurs d a → Occurs d (.applied g args)

variable {d : TypeDefinition}

@[simp] theorem occurs_definition {g : TypeDefinition} : (definition g).Occurs d ↔ d = g :=
  ⟨fun h => by cases h; rfl, fun h => h ▸ .definition⟩

@[simp] theorem occurs_vector {e : Signature} : (vector e).Occurs d ↔ e.Occurs d :=
  ⟨fun h => by cases h; assumption, .vector⟩

@[simp] theorem occurs_array {e : Signature} {rank : Nat} : (array e rank).Occurs d ↔ e.Occurs d :=
  ⟨fun h => by cases h; assumption, .array⟩

@[simp] theorem occurs_pointer {e : Signature} : (pointer e).Occurs d ↔ e.Occurs d :=
  ⟨fun h => by cases h; assumption, .pointer⟩

@[simp] theorem occurs_applied {g : TypeDefinition} {args : List Signature} :
    (applied g args).Occurs d ↔ d = g ∨ ∃ a ∈ args, a.Occurs d := by
  constructor
  · intro h
    cases h with
    | generic => exact .inl rfl
    | argument ha h => exact .inr ⟨_, ha, h⟩
  · rintro (rfl | ⟨a, ha, h⟩)
    · exact .generic
    · exact .argument ha h

@[simp] theorem not_occurs_parameter {p : GenericParameter} : ¬ (parameter p).Occurs d := nofun

@[simp] theorem not_occurs_position {o : GenericOwner} {i : Nat} : ¬ (position o i).Occurs d :=
  nofun

/-- The root of a signature occurs in it. -/
theorem occurs_root {s : Signature} (h : s.root? = some d) : s.Occurs d := by
  cases s with
  | definition g => cases h; exact .definition
  | applied g args => cases h; exact .generic
  | vector _ | array _ _ | pointer _ | parameter _ | position _ _ => cases h

mutual

theorem mem_mentioned : ∀ s : Signature, d ∈ s.mentioned ↔ s.Occurs d
  | definition _ => by simp [mentioned]
  | vector e => by simp [mentioned, mem_mentioned e]
  | array e _ => by simp [mentioned, mem_mentioned e]
  | pointer e => by simp [mentioned, mem_mentioned e]
  | applied _ args => by simp [mentioned, mem_mentionedAll args]
  | parameter _ => by simp [mentioned]
  | position _ _ => by simp [mentioned]

theorem mem_mentionedAll : ∀ ss : List Signature, d ∈ mentionedAll ss ↔ ∃ s ∈ ss, s.Occurs d
  | [] => by simp [mentionedAll]
  | s :: ss => by simp [mentionedAll, mem_mentioned s, mem_mentionedAll ss]

end

theorem mentionedAll_append (ss ts : List Signature) :
    mentionedAll (ss ++ ts) = mentionedAll ss ++ mentionedAll ts := by
  induction ss with
  | nil => rfl
  | cons s ss ih => simp [mentionedAll, ih]

end Signature

namespace References

variable {r : References} {name : String}

theorem isImported_importType {d : TypeDefinition} :
    (r.importType d).isImported name = true ↔ r.isImported name = true ∨ d.fullName = name := by
  simp only [isImported, importType, FinMap.contains, FinMap.get?_insertNew]
  by_cases h : name = d.fullName
  · simp [h]
  · simp [h, Ne.symm h]

theorem isImported_foldl {ds : List TypeDefinition} :
    (ds.foldl importType r).isImported name = true ↔
      r.isImported name = true ∨ ∃ d ∈ ds, d.fullName = name := by
  induction ds generalizing r with
  | nil => simp
  | cons d ds ih => simp [ih, isImported_importType, or_assoc]

/-- The definition on record for a name is the one from before, or else the first of that name. -/
theorem get?_foldl {ds : List TypeDefinition} :
    (ds.foldl importType r).imported.get? name =
      (r.imported.get? name).or (ds.find? fun d => d.fullName == name) := by
  induction ds generalizing r with
  | nil => simp
  | cons d ds ih =>
    rw [List.foldl_cons, ih, importType, FinMap.get?_insertNew, List.find?_cons]
    by_cases h : name = d.fullName
    · subst h
      cases r.imported.get? d.fullName <;> simp
    · have hb : (d.fullName == name) = false := by simpa using Ne.symm h
      simp [h, hb]

theorem assembly_foldl {ds : List TypeDefinition} :
    (ds.foldl importType r).assembly = r.assembly := by
  induction ds generalizing r with
  | nil => rfl
  | cons d ds ih => exact ih

mutual

theorem importSignature_eq (r : References) :
    ∀ s : Signature, r.importSignature s = (s, s.mentioned.foldl importType r)
  | .definition d => rfl
  | .vector e => by simp [importSignature, importSignature_eq r e, Signature.mentioned]
  | .array e _ => by simp [importSignature, importSignature_eq r e, Signature.mentioned]
  | .pointer e => by simp [importSignature, importSignature_eq r e, Signature.mentioned]
  | .applied d args => by
    simp [importSignature, importAll_eq (r.importType d) args, Signature.mentioned]
  | .parameter _ => rfl
  | .position _ _ => rfl

theorem importAll_eq (r : References) : ∀ ss : List Signature,
    r.importAll ss = (ss, (Signature.mentionedAll ss).foldl importType r)
  | [] => rfl
  | s :: ss => by
    simp [importAll, importSignature_eq r s, importAll_eq _ ss, Signature.mentionedAll]

end

/-- `after` is `r` with what occurs in a signature. -/
structure Records (r after : References) (s : Signature) : Prop where
  assembly : after.assembly = r.assembly
  isImported_iff : ∀ name, after.isImported name = true ↔
    r.isImported name = true ∨ ∃ d, s.Occurs d ∧ d.fullName = name
  /-- A name on record keeps its definition. -/
  kept : ∀ name d, r.imported.get? name = some d → after.imported.get? name = some d
  /-- A new name gets a definition of the signature. -/
  found : ∀ name d, after.imported.get? name = some d →
    r.imported.get? name = some d ∨ (s.Occurs d ∧ d.fullName = name)

theorem records_importSignature (r : References) (s : Signature) :
    r.Records (r.importSignature s).2 s := by
  rw [importSignature_eq]
  refine ⟨assembly_foldl, fun name => ?_, fun name d h => ?_, fun name d h => ?_⟩
  · simp only [isImported_foldl, Signature.mem_mentioned]
  · rw [get?_foldl, h, Option.some_or]
  · rw [get?_foldl, Option.or_eq_some_iff] at h
    rcases h with h | ⟨-, h⟩
    · exact .inl h
    · exact .inr ⟨(Signature.mem_mentioned s).mp (List.mem_of_find?_eq_some h),
        by simpa using List.find?_some h⟩

theorem isImported_importAll (r : References) (ss : List Signature) (name : String) :
    (r.importAll ss).2.isImported name = true ↔
      r.isImported name = true ∨ ∃ s ∈ ss, ∃ d, s.Occurs d ∧ d.fullName = name := by
  simp only [importAll_eq, isImported_foldl, Signature.mem_mentionedAll]
  constructor
  · rintro (h | ⟨d, ⟨s, hs, hd⟩, hname⟩)
    · exact .inl h
    · exact .inr ⟨s, hs, d, hd, hname⟩
  · rintro (h | ⟨s, hs, d, hd, hname⟩)
    · exact .inl h
    · exact .inr ⟨d, ⟨s, hs, hd⟩, hname⟩

/-- For all references: importing a signature hands back that signature; afterwards a name is on
record exactly if it was before or a definition of that name occurs in the signature, and the names
from before keep their definitions. After a list of signatures the names on record depend on what is
in the list and not on order or repetition. -/
theorem importSignature_records_exactly (r : References) :
    (∀ s, (r.importSignature s).1 = s ∧ r.Records (r.importSignature s).2 s) ∧
      ∀ ss ts : List Signature, (∀ s, s ∈ ss ↔ s ∈ ts) →
        ∀ name, (r.importAll ss).2.isImported name = (r.importAll ts).2.isImported name := by
  refine ⟨fun s => ⟨?_, records_importSignature r s⟩, fun ss ts h name => ?_⟩
  · rw [importSignature_eq]
  · rw [Bool.eq_iff_iff, isImported_importAll, isImported_importAll]
    simp only [h]

/-- References that have an integer type of their own under the name of the built-in one. -/
def ownInteger : References :=
  References.importType { assembly := "Assembly-CSharp" }
    (.topLevel { id := .listed 0, space := "System", name := "Int64" })

/-- An array of lists of 64-bit integers. -/
def listArray : Signature :=
  .vector (.applied
    (.topLevel
      { id := .listed 1, space := "System.Collections.Generic", name := "List`1"
        generics := ["T"] })
    [.definition (TypeTable.supplied .int64)])

/-- The list type is new, the integer type stays the one that was there; an array that comes twice
adds nothing the second time. -/
theorem importSignature_records_exactly_lists :
    (ownInteger.importSignature listArray).1 = listArray ∧
      (ownInteger.imported.get? "System.Int64").map TypeDefinition.id = some (.listed 0) ∧
      (ownInteger.importSignature listArray).2.imported.get? "System.Int64" =
        ownInteger.imported.get? "System.Int64" ∧
      ownInteger.isImported "System.Collections.Generic.List`1" = false ∧
      (ownInteger.importSignature listArray).2.isImported
        "System.Collections.Generic.List`1" = true ∧
      ∀ name, (ownInteger.importAll [listArray, .pointer listArray, listArray]).2.isImported name =
        (ownInteger.importAll [.pointer listArray, listArray]).2.isImported name := by
  obtain ⟨hsignature, hlist⟩ := importSignature_records_exactly ownInteger
  obtain ⟨hsame, hrecords⟩ := hsignature listArray
  have hlists : ∀ s, s ∈ [listArray, .pointer listArray, listArray] ↔
      s ∈ [.pointer listArray, listArray] := fun s => by simp [or_comm]
  refine ⟨hsame, by decide, ?_, by decide, ?_, hlist _ _ hlists⟩
  · exact hrecords.kept _ _ (by decide)
  · exact (hrecords.isImported_iff _).mpr (.inr ⟨_, .vector .generic, by decide⟩)

end References

/-- The type names on record in an assembly. -/
def Session.imported (session : Session) (assembly : String) : Set String :=
  { name | (session.references.references assembly).isImported name = true }

namespace Analysis

variable {e : Environment} {session : Session}

/-- The names of the types that a walk refers to. -/
def referredNames (w : Walk) : Set String :=
  { name | ∃ d ∈ Signature.mentionedAll w.imports, d.fullName = name }

/-- After a walk, the destination assembly has the names that the walk refers to besides its own. -/
theorem imported_record (w : Walk) (assembly : String) :
    (record e session w).imported assembly =
      session.imported assembly ∪ { name | assembly = e.assembly ∧ name ∈ referredNames w } := by
  ext name
  have hown : (session.references.openAssembly e.assembly).references e.assembly =
      session.references.references e.assembly :=
    ReferenceTable.references_openAssembly ..
  simp only [Session.imported, record, References.importAll_eq, hown,
    ReferenceTable.references_update, References.assembly_foldl,
    ReferenceTable.assembly_references, ReferenceTable.references_openAssembly, Set.mem_union,
    Set.mem_ofPred_eq, referredNames]
  split
  · subst assembly
    simp [References.isImported_foldl]
  · simp [*]

end Analysis

end MethodLift
