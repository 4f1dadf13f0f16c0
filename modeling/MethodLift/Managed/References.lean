import MethodLift.FinMap
import MethodLift.Managed.Signature

/-!
# References of an assembly

A destination assembly records by full name every type definition that the code written into it
mentions. The first definition of a name stays. `importSignature` records all definitions that a
signature mentions and hands the signature back; generic parameters belong to the assembly already
and are passed through.
-/

namespace MethodLift

structure References where
  assembly : String
  imported : FinMap String TypeDefinition := ∅
  deriving DecidableEq, Repr

namespace References

def importType (r : References) (d : TypeDefinition) : References :=
  { r with imported := r.imported.insertNew d.fullName d }

def isImported (r : References) (fullName : String) : Bool := r.imported.contains fullName

/-- The number of names on record. -/
def size (r : References) : Nat := r.imported.size

mutual

/-- Record every definition of a signature, outermost first, and rebuild the signature. -/
def importSignature (r : References) : Signature → Signature × References
  | .definition d => (.definition d, r.importType d)
  | .vector e =>
    let (e, r) := r.importSignature e
    (.vector e, r)
  | .array e rank =>
    let (e, r) := r.importSignature e
    (.array e rank, r)
  | .pointer e =>
    let (e, r) := r.importSignature e
    (.pointer e, r)
  | .applied d args =>
    let (args, r) := (r.importType d).importAll args
    (.applied d args, r)
  | .parameter p => (.parameter p, r)
  | .position o i => (.position o i, r)

def importAll (r : References) : List Signature → List Signature × References
  | [] => ([], r)
  | s :: ss =>
    let (s, r) := r.importSignature s
    let (ss, r) := r.importAll ss
    (s :: ss, r)

end

end References

/-- The references of every destination assembly, by name. -/
structure ReferenceTable where
  assemblies : FinMap String References := ∅
  /-- References are kept under the name of their own assembly. -/
  filed : ∀ name r, assemblies.get? name = some r → r.assembly = name := by intro _ _ h; cases h
  deriving DecidableEq, Repr

namespace ReferenceTable

/-- The references of an assembly; an assembly not met before has none. -/
def references (t : ReferenceTable) (assembly : String) : References :=
  (t.assemblies.get? assembly).getD { assembly }

/-- Make room for an assembly. -/
def openAssembly (t : ReferenceTable) (assembly : String) : ReferenceTable where
  assemblies := t.assemblies.insertNew assembly { assembly }
  filed name r h := by
    rw [FinMap.get?_insertNew] at h
    split at h
    · subst name
      cases hr : t.assemblies.get? assembly with
      | none =>
        rw [hr] at h
        cases h
        rfl
      | some old =>
        rw [hr] at h
        cases h
        exact t.filed assembly old hr
    · exact t.filed name r h

/-- Put back the references of an assembly. -/
def update (t : ReferenceTable) (r : References) : ReferenceTable where
  assemblies := t.assemblies.insert r.assembly r
  filed name q h := by
    rw [FinMap.get?_insert] at h
    split at h
    · cases h
      exact Eq.symm ‹name = r.assembly›
    · exact t.filed name q h

def size (t : ReferenceTable) : Nat := t.assemblies.size

theorem assembly_references (t : ReferenceTable) (assembly : String) :
    (t.references assembly).assembly = assembly := by
  unfold references
  cases h : t.assemblies.get? assembly with
  | none => rfl
  | some r => exact t.filed assembly r h

theorem references_openAssembly (t : ReferenceTable) (assembly other : String) :
    (t.openAssembly assembly).references other = t.references other := by
  simp only [references, openAssembly, FinMap.get?_insertNew]
  split
  · subst other
    simp
  · rfl

theorem references_update (t : ReferenceTable) (r : References) (assembly : String) :
    (t.update r).references assembly =
      if assembly = r.assembly then r else t.references assembly := by
  simp only [references, update, FinMap.get?_insert]
  split <;> rfl

end ReferenceTable

end MethodLift
