import Mathlib.Logic.Relation
import MethodLift.Proofs.Demands

/-!
# Chains of nested resolutions

More layers never change an answer (`refines_within`), so an answer does not depend on their number.
A resolution within `n` layers fails to end exactly if there is a chain of `n` resolutions, each of
which is asked for while the one before it is under way (`not_ends_iff_chain`).
-/

namespace MethodLift

namespace Resolve

variable {α : Type} {table : TypeTable} {metadata : Metadata}
  {f g below : Descriptor → ResolveM Signature} {d : Descriptor} {s t u : ResolveState}
  {q : Demand} {qs : List Demand} {o : Opening} {m n : Nat}

/-! ## Answers one by one -/

theorem outcome_answer_base :
    outcome (answer below (.base d)) s = match outcome (below d) s with
      | (.ok a, t) =>
        match a.root? with
        | some x => (.ok (.definition x), t)
        | none => (.error .noGenericBase, t)
      | (.error e, t) => (.error e, t) := by
  rw [answer, outcome_bind]
  rcases outcome (below d) s with ⟨_ | a, t⟩
  · rfl
  · simp only
    cases a.root? <;> rfl

theorem answerAll_cons_eq_ok {as : List Signature}
    (h : answerAll below (q :: qs) s = (.ok as, u)) :
    ∃ a bs t, as = a :: bs ∧ outcome (answer below q) s = (.ok a, t) ∧
      answerAll below qs t = (.ok bs, u) := by
  rcases hq : outcome (answer below q) s with ⟨_ | a, t⟩
  · rw [answerAll_cons_of_error hq] at h
    cases h
  · rw [answerAll_cons_of_ok hq] at h
    rcases hqs : answerAll below qs t with ⟨_ | bs, v⟩ <;> rw [hqs] at h <;> cases h
    exact ⟨a, bs, t, rfl, rfl, hqs⟩

/-- An invariant that the resolution of each target keeps is kept by all answers. -/
theorem answerAll_invariant {I : ResolveState → Prop}
    (h : ∀ q ∈ qs, ∀ d, q.target? = some d → ∀ s, I s → I (outcome (below d) s).2) (hs : I s) :
    I (answerAll below qs s).2 := by
  induction qs generalizing s with
  | nil => exact hs
  | cons q qs ih =>
    have hq : I (outcome (answer below q) s).2 := by
      cases q with
      | refused e => exact hs
      | given a => exact hs
      | type d => exact h (.type d) (by simp) d rfl s hs
      | base d =>
        have hd := h (.base d) (by simp) d rfl s hs
        rw [outcome_answer_base]
        rcases hout : outcome (below d) s with ⟨_ | a, t⟩ <;> rw [hout] at hd
        · exact hd
        · simp only
          cases a.root? <;> exact hd
    rcases hout : outcome (answer below q) s with ⟨_ | a, t⟩ <;> rw [hout] at hq
    · rwa [answerAll_cons_of_error hout]
    · rw [answerAll_cons_of_ok hout]
      exact ih (fun q' hq' => h q' (by simp [hq'])) hq

/-! ## More layers -/

/-- The resolution came to an end, be it with an error. -/
def Ends (r : Except ResolveError α × ResolveState) : Prop := r.1 ≠ .error .endless

theorem ends_ok {a : α} : Ends (.ok a, s) := by simp [Ends]

theorem ends_close {r : Except ResolveError (List Signature) × ResolveState} :
    Ends (o.close r) ↔ Ends r := by
  obtain ⟨_ | as, t⟩ := r <;> simp [Ends, Opening.close]

theorem ends_answer :
    Ends (outcome (answer below q) s) ↔
      q ≠ .refused .endless ∧ ∀ d, q.target? = some d → Ends (outcome (below d) s) := by
  cases q with
  | refused e => simp [answer, Ends, Demand.target?]
  | given a => simp [answer, Ends, Demand.target?]
  | type d => simp [answer, Demand.target?]
  | base d =>
    rw [outcome_answer_base]
    rcases hout : outcome (below d) s with ⟨_ | a, t⟩
    · simp [Demand.target?, hout, Ends]
    · simp only
      cases a.root? <;> simp [Demand.target?, hout, Ends]

theorem ends_answerAll_cons :
    Ends (answerAll below (q :: qs) s) ↔ Ends (outcome (answer below q) s) ∧
      ∀ a t, outcome (answer below q) s = (.ok a, t) → Ends (answerAll below qs t) := by
  rcases hq : outcome (answer below q) s with ⟨_ | a, t⟩
  · simp [answerAll_cons_of_error hq, Ends]
  · rw [answerAll_cons_of_ok hq]
    rcases hqs : answerAll below qs t with ⟨_ | as, u⟩ <;> simp [Ends, Except.map, hqs]

/-- What `f` has an answer for, `g` answers in the same way. -/
def Refines (f g : Descriptor → ResolveM Signature) : Prop :=
  ∀ d s, Ends (outcome (f d) s) → outcome (g d) s = outcome (f d) s

theorem Refines.answer (h : Refines f g) (hends : Ends (outcome (answer f q) s)) :
    outcome (Resolve.answer g q) s = outcome (Resolve.answer f q) s := by
  have htarget := (ends_answer.mp hends).2
  cases q with
  | refused e => rfl
  | given a => rfl
  | type d => exact h d s (htarget d rfl)
  | base d => rw [outcome_answer_base, outcome_answer_base, h d s (htarget d rfl)]

theorem Refines.answerAll (h : Refines f g) (hends : Ends (answerAll f qs s)) :
    Resolve.answerAll g qs s = Resolve.answerAll f qs s := by
  induction qs generalizing s with
  | nil => rfl
  | cons q qs ih =>
    obtain ⟨hq, hqs⟩ := ends_answerAll_cons.mp hends
    rcases hout : outcome (Resolve.answer f q) s with ⟨_ | a, t⟩
    · rw [answerAll_cons_of_error hout, answerAll_cons_of_error ((h.answer hq).trans hout)]
    · rw [answerAll_cons_of_ok hout, answerAll_cons_of_ok ((h.answer hq).trans hout),
        ih (hqs a t hout)]

theorem Refines.layer (h : Refines f g) :
    Refines (resolveLayer table metadata f) (resolveLayer table metadata g) := by
  intro d s hends
  rw [outcome_resolveLayer] at hends ⊢
  rw [outcome_resolveLayer, h.answerAll (ends_close.mp hends)]

/-- More layers give the same answers. -/
theorem refines_within (h : m ≤ n) :
    Refines (resolveWithin table metadata m) (resolveWithin table metadata n) := by
  induction m generalizing n with
  | zero => exact fun d s hends => absurd rfl hends
  | succ m ih =>
    obtain ⟨n, rfl⟩ : ∃ k, n = k + 1 := ⟨n - 1, by omega⟩
    exact (ih (by omega)).layer

theorem outcome_answer_of_le {a : Signature} (hmn : m ≤ n)
    (h : outcome (answer (resolveWithin table metadata m) q) s = (.ok a, t)) :
    outcome (answer (resolveWithin table metadata n) q) s = (.ok a, t) := by
  rw [(refines_within hmn).answer (by rw [h]; exact ends_ok), h]

theorem answerAll_of_le {as : List Signature} (hmn : m ≤ n)
    (h : answerAll (resolveWithin table metadata m) qs s = (.ok as, t)) :
    answerAll (resolveWithin table metadata n) qs s = (.ok as, t) := by
  rw [(refines_within hmn).answerAll (by rw [h]; exact ends_ok), h]

theorem outcome_within_succ :
    outcome (resolveWithin table metadata (n + 1) d) s =
      (opening table metadata d s).close
        (answerAll (resolveWithin table metadata n) (opening table metadata d s).demands
          ((opening table metadata d s).enter s)) :=
  outcome_resolveLayer

/-! ## Chains -/

/-- While the demands are answered from a state on, `d` is to be resolved in state `t`. -/
inductive Asks (below : Descriptor → ResolveM Signature) (d : Descriptor) (t : ResolveState) :
    List Demand → ResolveState → Prop
  | here {q : Demand} {qs : List Demand} (hq : q.target? = some d) : Asks below d t (q :: qs) t
  | later {q : Demand} {qs : List Demand} {s u : ResolveState} {a : Signature}
      (hq : outcome (answer below q) s = (.ok a, u)) (hqs : Asks below d t qs u) :
      Asks below d t (q :: qs) s

/-- Answers that do not end have not ended at some descriptor that was asked for. -/
theorem exists_asks_of_not_ends (hqs : Demand.refused .endless ∉ qs)
    (h : ¬Ends (answerAll below qs s)) :
    ∃ d t, Asks below d t qs s ∧ ¬Ends (outcome (below d) t) := by
  induction qs generalizing s with
  | nil => exact absurd ends_ok h
  | cons q qs ih =>
    simp only [List.mem_cons, not_or] at hqs
    by_cases hq : Ends (outcome (answer below q) s)
    · rw [ends_answerAll_cons] at h
      push Not at h
      obtain ⟨a, t, hout, hrest⟩ := h hq
      obtain ⟨d, u, hasks, hd⟩ := ih hqs.2 hrest
      exact ⟨d, u, .later hout hasks, hd⟩
    · rw [ends_answer] at hq
      push Not at hq
      obtain ⟨d, htarget, hd⟩ := hq (Ne.symm hqs.1)
      exact ⟨d, s, .here htarget, hd⟩

/-- If the answers end, what is asked for within some number of layers is asked for within another,
and ends there. -/
theorem Asks.of_ends (hagree : Refines f g ∨ Refines g f) (h : Asks f d t qs s)
    (hends : Ends (answerAll g qs s)) : Asks g d t qs s ∧ Ends (outcome (g d) t) := by
  induction h with
  | here hq => exact ⟨.here hq, (ends_answer.mp (ends_answerAll_cons.mp hends).1).2 d hq⟩
  | @later q qs s u a hq _ ih =>
    obtain ⟨hg, hrest⟩ := ends_answerAll_cons.mp hends
    have hsame : outcome (answer g q) s = (.ok a, u) := by
      rcases hagree with hfg | hgf
      · rw [hfg.answer (by rw [hq]; exact ends_ok), hq]
      · rw [← hgf.answer hg, hq]
    obtain ⟨hasks, hd⟩ := ih (hrest a u hsame)
    exact ⟨.later hsame hasks, hd⟩

theorem refines_within_total (m n : Nat) :
    Refines (resolveWithin table metadata m) (resolveWithin table metadata n) ∨
      Refines (resolveWithin table metadata n) (resolveWithin table metadata m) := by
  rcases Nat.le_total m n with h | h
  · exact .inl (refines_within h)
  · exact .inr (refines_within h)

/-- A descriptor that is to be resolved, in the state at that time. -/
abbrev Site := Descriptor × ResolveState

/-- The resolution at the first site asks for the one at the second. -/
def Calls (table : TypeTable) (metadata : Metadata) (c c' : Site) : Prop :=
  ∃ n, Asks (resolveWithin table metadata n) c'.1 c'.2 (opening table metadata c.1 c.2).demands
    ((opening table metadata c.1 c.2).enter c.2)

/-- From the site on, `n` resolutions can be nested in each other. -/
def Chain (table : TypeTable) (metadata : Metadata) : Nat → Site → Prop
  | 0, _ => True
  | n + 1, c => ∃ c', Calls table metadata c c' ∧ Chain table metadata n c'

theorem refused_endless_notMem :
    Demand.refused .endless ∉ (opening table metadata d s).demands := by
  have ho := opens table metadata d s
  generalize opening table metadata d s = o at ho
  cases ho with
  | follow => exact fun h => (aimsAt_of_mem_recipe h).1 rfl
  | known => simp [Opening.demands]
  | populate => simp [Opening.demands]

/-- A resolution does not end within `n` layers exactly if `n` resolutions can be nested. -/
theorem not_ends_iff_chain :
    ¬Ends (outcome (resolveWithin table metadata n d) s) ↔ Chain table metadata n (d, s) := by
  induction n generalizing d s with
  | zero => simp [Chain, resolveWithin, Ends]
  | succ n ih =>
    rw [outcome_within_succ, ends_close]
    constructor
    · intro h
      obtain ⟨e, t, hasks, he⟩ := exists_asks_of_not_ends refused_endless_notMem h
      exact ⟨(e, t), ⟨n, hasks⟩, ih.mp he⟩
    · rintro ⟨⟨e, t⟩, ⟨m, hasks⟩, hchain⟩ hends
      exact ih.mpr hchain (hasks.of_ends (refines_within_total m n) hends).2

end Resolve

end MethodLift
