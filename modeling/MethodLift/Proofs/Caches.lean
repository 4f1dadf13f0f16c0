import MethodLift.Proofs.CallChains

/-!
# What a resolution leaves alone

Whatever becomes of a resolution, the parameters that were in the cache stay there and keep their
constraints, and serial numbers are not given out twice (`keeps_within`). So the rows in the cache
only grow, and fewer rows of the metadata remain (`remaining`) with each parameter that is made.
-/

namespace MethodLift

/-- Parameters stay, and constraints that were set stay as they are. -/
structure Resolver.Keeps (r r' : Resolver) : Prop where
  parameters : ∀ i p, r.parameters.get? i = some p → r'.parameters.get? i = some p
  serial : r.nextSerial ≤ r'.nextSerial
  constraints : ∀ id, (∀ k, id = .resolved k → k < r.nextSerial) →
    r'.constraints.get? id = r.constraints.get? id

namespace Resolver.Keeps

variable {r r' r'' : Resolver}

theorem refl (r : Resolver) : r.Keeps r :=
  ⟨fun _ _ h => h, Nat.le_refl _, fun _ _ => rfl⟩

theorem trans (h : r.Keeps r') (h' : r'.Keeps r'') : r.Keeps r'' where
  parameters i p hp := h'.parameters i p (h.parameters i p hp)
  serial := Nat.le_trans h.serial h'.serial
  constraints id hid := by
    rw [h'.constraints id fun k hk => Nat.lt_of_lt_of_le (hid k hk) h.serial, h.constraints id hid]

end Resolver.Keeps

/-- The rows whose parameters are in the cache. -/
def ResolveState.rows (s : ResolveState) : Set UInt32 :=
  {i | ∃ p, s.resolver.parameters.get? i = some p}

namespace ResolveState

variable {s : ResolveState} {i : UInt32} {p : GenericParameter}

theorem notMem_rows : i ∉ s.rows ↔ s.resolver.parameters.get? i = none := by
  simp [rows, Option.eq_none_iff_forall_ne_some]

@[simp] theorem rows_importRoot (a : Signature) : (s.importRoot a).rows = s.rows := by
  simp [rows]

@[simp] theorem rows_setConstraints (as : List Signature) :
    (s.setConstraints p as).rows = s.rows := rfl

theorem rows_addParameter : (s.addParameter i p).rows = insert i s.rows := by
  ext j
  simp only [rows, addParameter, FinMap.get?_insert, Set.mem_ofPred_eq, Set.mem_insert_iff]
  by_cases h : j = i <;> simp [h]

theorem rows_forget : (s.forget i).rows = s.rows \ {i} := by
  ext j
  simp only [rows, forget, FinMap.get?_erase, Set.mem_ofPred_eq, Set.mem_sdiff,
    Set.mem_singleton_iff]
  by_cases h : j = i <;> simp [h]

theorem rows_subset {t : ResolveState} (h : s.resolver.Keeps t.resolver) : s.rows ⊆ t.rows :=
  fun i ⟨p, hp⟩ => ⟨p, h.parameters i p hp⟩

end ResolveState

/-- The number of entries whose rows have no parameter in the cache yet. -/
def Metadata.remaining (m : Metadata) (s : ResolveState) : Nat :=
  m.parameters.entries.countP fun e => (s.resolver.parameters.get? e.1).isNone

theorem FinMap.mem_entries {κ ν : Type} [DecidableEq κ] {m : FinMap κ ν} {k : κ} {v : ν}
    (h : m.get? k = some v) : (k, v) ∈ m.entries := by
  obtain ⟨before, after, heq, -⟩ := List.lookup_eq_some_iff.mp h
  simp [heq]

/-- Fewer entries count if one of them no longer does. -/
theorem FinMap.countP_lt {κ ν : Type} [DecidableEq κ] {m : FinMap κ ν} {k : κ} {v : ν}
    {f g : κ × ν → Bool} (h : m.get? k = some v) (hfg : ∀ e, f e = true → g e = true)
    (hf : f (k, v) = false) (hg : g (k, v) = true) :
    m.entries.countP f < m.entries.countP g := by
  obtain ⟨before, after, heq⟩ := List.append_of_mem (FinMap.mem_entries h)
  have hbefore : before.countP f ≤ before.countP g := List.countP_mono_left fun e _ => hfg e
  have hafter : after.countP f ≤ after.countP g := List.countP_mono_left fun e _ => hfg e
  simp only [heq, List.countP_append, List.countP_cons, hf, hg, if_true, Bool.false_eq_true,
    if_false]
  omega

namespace Metadata

variable {m : Metadata} {s t : ResolveState} {i : UInt32} {row : GenericRow}

theorem remaining_le : m.remaining s ≤ m.parameters.size := List.countP_le_length

theorem isNone_of_rows_subset (h : s.rows ⊆ t.rows) (e : UInt32 × GenericRow)
    (he : (t.resolver.parameters.get? e.1).isNone = true) :
    (s.resolver.parameters.get? e.1).isNone = true := by
  rw [Option.isNone_iff_eq_none, ← ResolveState.notMem_rows] at he ⊢
  exact fun hs => he (h hs)

theorem remaining_anti (h : s.rows ⊆ t.rows) : m.remaining t ≤ m.remaining s :=
  List.countP_mono_left fun e _ => isNone_of_rows_subset h e

/-- A row of the metadata that enters the cache remains no longer. -/
theorem remaining_lt (hget : m.parameters.get? i = some row) (hs : i ∉ s.rows) (ht : i ∈ t.rows)
    (h : s.rows ⊆ t.rows) : m.remaining t < m.remaining s := by
  have hnone : s.resolver.parameters.get? i = none := ResolveState.notMem_rows.mp hs
  obtain ⟨p, hp⟩ := ht
  exact FinMap.countP_lt hget (isNone_of_rows_subset h) (by simp [hp]) (by simp [hnone])

end Metadata

namespace Resolve

variable {table : TypeTable} {metadata : Metadata} {below : Descriptor → ResolveM Signature}
  {d : Descriptor} {s t : ResolveState} {o : Opening} {n : Nat}

theorem keeps_enter (h : Opens table metadata d s o) : s.resolver.Keeps (o.enter s).resolver := by
  cases h with
  | follow => exact .refl _
  | known => exact .refl _
  | @populate owner index row _ hnew _ =>
    refine ⟨fun i p hp => ?_, Nat.le_succ _, fun _ _ => rfl⟩
    simp only [Opening.enter, ResolveState.addParameter, FinMap.get?_insert]
    split
    · subst i
      rw [hnew] at hp
      cases hp
    · exact hp

/-- Closing a resolution touches nothing that was there before it was opened. -/
theorem keeps_close (h : Opens table metadata d s o)
    {r : Except ResolveError (List Signature) × ResolveState}
    (hr : (o.enter s).resolver.Keeps r.2.resolver) : s.resolver.Keeps (o.close r).2.resolver := by
  have hs := (keeps_enter h).trans hr
  obtain ⟨_ | as, t⟩ := r
  · cases h with
    | follow => exact hs
    | known => exact hs
    | @populate owner index row _ hnew _ =>
      refine ⟨fun i p hp => ?_, hs.serial, hs.constraints⟩
      simp only [Opening.close, Opening.abandon, ResolveState.forget, FinMap.get?_erase]
      split
      · subst i
        rw [hnew] at hp
        cases hp
      · exact hs.parameters i p hp
  · cases h with
    | follow => simpa [Opening.close, Opening.settle] using hs
    | known => exact hs
    | @populate owner index row _ _ _ =>
      refine ⟨hs.parameters, hs.serial, fun id hid => ?_⟩
      simp only [Opening.close, Opening.settle, ResolveState.setConstraints, FinMap.get?_insert]
      split
      · exact absurd (hid _ ‹_›) (Nat.lt_irrefl _)
      · exact hs.constraints id hid

theorem keeps_answerAll {qs : List Demand}
    (h : ∀ d (s : ResolveState), s.resolver.Keeps (outcome (below d) s).2.resolver) :
    s.resolver.Keeps (answerAll below qs s).2.resolver :=
  answerAll_invariant (I := fun t => s.resolver.Keeps t.resolver)
    (fun _ _ d _ t ht => ht.trans (h d t)) (.refl _)

/-- A resolution keeps what the cache holds, whether it succeeds or fails. -/
theorem keeps_within :
    s.resolver.Keeps (outcome (resolveWithin table metadata n d) s).2.resolver := by
  induction n generalizing d s with
  | zero => exact .refl _
  | succ n ih =>
    rw [outcome_within_succ]
    exact keeps_close (opens table metadata d s) (keeps_answerAll fun _ _ => ih)

theorem keeps_of_answerAll {qs : List Demand} {r : Except ResolveError (List Signature)}
    (h : answerAll (resolveWithin table metadata n) qs s = (r, t)) :
    s.resolver.Keeps t.resolver := by
  have hkeeps : s.resolver.Keeps (answerAll (resolveWithin table metadata n) qs s).2.resolver :=
    keeps_answerAll fun _ _ => keeps_within
  rwa [h] at hkeeps

theorem keeps_of_answer {q : Demand} {a : Signature}
    (h : outcome (answer (resolveWithin table metadata n) q) s = (.ok a, t)) :
    s.resolver.Keeps t.resolver :=
  keeps_of_answerAll (answerAll_cons_of_ok h : answerAll _ [q] s = _)

end Resolve

end MethodLift
