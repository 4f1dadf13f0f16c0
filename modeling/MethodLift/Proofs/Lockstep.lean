import Mathlib.Data.List.Forall2
import MethodLift.Proofs.Depth

/-!
# Two resolutions side by side

Two resolutions run in lockstep if they both succeed, with related signatures, or both fail with the
same error. If the resolutions of the targets do, so do the answers to the same demands
(`related_answerAll`). One of the two sides is known to end, and the other is found to end with it.

The second resolution may be `resolve` itself, which answers whatever its demands have answers for
(`outcome_resolve_of_demands`); then nothing has to be said about layers.
-/

namespace MethodLift

namespace Resolve

/-- Both results are answers that `A` relates, in states that `S` relates, or the same error, in
states that `E` relates. -/
inductive Related {α β : Type} (A : α → β → Prop) (S E : ResolveState → ResolveState → Prop) :
    Except ResolveError α × ResolveState → Except ResolveError β × ResolveState → Prop
  | ok {a : α} {b : β} {s s' : ResolveState} (ha : A a b) (hs : S s s') :
      Related A S E (.ok a, s) (.ok b, s')
  | error {e : ResolveError} {s s' : ResolveState} (hs : E s s') :
      Related A S E (.error e, s) (.error e, s')

/-- Related signatures are rooted at related definitions, or at none. -/
def KeepsRoots (A : Signature → Signature → Prop) : Prop :=
  ∀ a b, A a b → a.root? = none ∧ b.root? = none ∨
    ∃ x y, a.root? = some x ∧ b.root? = some y ∧ A (.definition x) (.definition y)

/-- One of two resolutions. -/
inductive Side where
  | first
  | second

/-- The resolution on this side comes to an end. -/
def Side.Ends {α β : Type} (side : Side) (r : Except ResolveError α × ResolveState)
    (r' : Except ResolveError β × ResolveState) : Prop :=
  match side with
  | first => Resolve.Ends r
  | second => Resolve.Ends r'

variable {α β : Type} {table : TypeTable} {metadata : Metadata}
  {A : Signature → Signature → Prop} {S E : ResolveState → ResolveState → Prop} {side : Side}
  {f g : Descriptor → ResolveM Signature} {d : Descriptor} {s s' : ResolveState} {q : Demand}
  {qs : List Demand}

section Related

variable {A : α → β → Prop} {r : Except ResolveError α × ResolveState}
  {r' : Except ResolveError β × ResolveState}

theorem Related.ends_iff (h : Related A S E r r') : Ends r ↔ Ends r' := by
  cases h <;> simp [Ends]

theorem Related.states (h : Related A S S r r') : S r.2 r'.2 := by
  cases h with
  | ok _ hs => exact hs
  | error hs => exact hs

end Related

theorem Related.close {A : List Signature → List Signature → Prop}
    {B : Signature → Signature → Prop} {o o' : Opening} {T : ResolveState → ResolveState → Prop}
    {r r' : Except ResolveError (List Signature) × ResolveState} (h : Related A S E r r')
    (hok : ∀ as bs t t', A as bs → S t t' →
      B (o.made as) (o'.made bs) ∧ T (o.settle t as) (o'.settle t' bs))
    (herror : ∀ t t', E t t' → E (o.abandon t) (o'.abandon t')) :
    Related B T E (o.close r) (o'.close r') := by
  cases h with
  | ok ha hs => exact .ok (hok _ _ _ _ ha hs).1 (hok _ _ _ _ ha hs).2
  | error hs => exact .error (herror _ _ hs)

/-! ## Answers in lockstep -/

/-- The resolutions of a descriptor by `f` and `g` run in lockstep from related states, as far as
the one on the given side comes to an end. -/
def Tracks (side : Side) (A : Signature → Signature → Prop)
    (S E : ResolveState → ResolveState → Prop) (f g : Descriptor → ResolveM Signature)
    (d : Descriptor) : Prop :=
  ∀ s s', S s s' → side.Ends (outcome (f d) s) (outcome (g d) s') →
    Related A S E (outcome (f d) s) (outcome (g d) s')

theorem ends_target {e : Descriptor} (hq : q.target? = some e)
    (h : side.Ends (outcome (answer f q) s) (outcome (answer g q) s')) :
    side.Ends (outcome (f e) s) (outcome (g e) s') := by
  cases side <;> exact (ends_answer.mp h).2 e hq

theorem ends_head (h : side.Ends (answerAll f (q :: qs) s) (answerAll g (q :: qs) s')) :
    side.Ends (outcome (answer f q) s) (outcome (answer g q) s') := by
  cases side <;> exact (ends_answerAll_cons.mp h).1

theorem ends_tail {q' : Demand} {a b : Signature} {t t' : ResolveState}
    (hf : outcome (answer f q) s = (.ok a, t)) (hg : outcome (answer g q') s' = (.ok b, t'))
    (h : side.Ends (answerAll f (q :: qs) s) (answerAll g (q' :: qs) s')) :
    side.Ends (answerAll f qs t) (answerAll g qs t') := by
  cases side with
  | first => exact (ends_answerAll_cons.mp h).2 a t hf
  | second => exact (ends_answerAll_cons.mp h).2 b t' hg

theorem related_answer (hrefl : ∀ a, A a a) (hroots : KeepsRoots A)
    (hSE : ∀ t t', S t t' → E t t')
    (h : ∀ e, q.target? = some e → Tracks side A S E f g e) (hs : S s s')
    (hends : side.Ends (outcome (answer f q) s) (outcome (answer g q) s')) :
    Related A S E (outcome (answer f q) s) (outcome (answer g q) s') := by
  cases q with
  | refused e => exact .error (hSE s s' hs)
  | given a => exact .ok (hrefl a) hs
  | type e => exact h e rfl s s' hs hends
  | base e =>
    have hrelated := h e rfl s s' hs (ends_target rfl hends)
    rw [outcome_answer_base, outcome_answer_base]
    generalize outcome (f e) s = r at hrelated
    generalize outcome (g e) s' = r' at hrelated
    cases hrelated with
    | error hs' => exact .error hs'
    | @ok a b _ _ ha hs' =>
      rcases hroots a b ha with ⟨hx, hy⟩ | ⟨x, y, hx, hy, hxy⟩
      · simp only [hx, hy]
        exact .error (hSE _ _ hs')
      · simp only [hx, hy]
        exact .ok hxy hs'

/-- Results of the first answer and of the rest make a result of all. -/
theorem Related.cons
    (hq : Related A S E (outcome (answer f q) s) (outcome (answer g q) s'))
    (hqs : ∀ a b t t', outcome (answer f q) s = (.ok a, t) →
      outcome (answer g q) s' = (.ok b, t') → S t t' →
      Related (List.Forall₂ A) S E (answerAll f qs t) (answerAll g qs t')) :
    Related (List.Forall₂ A) S E (answerAll f (q :: qs) s) (answerAll g (q :: qs) s') := by
  rcases hf : outcome (answer f q) s with ⟨e | a, t⟩ <;>
    rcases hg : outcome (answer g q) s' with ⟨e' | b, t'⟩ <;> rw [hf, hg] at hq
  · rw [answerAll_cons_of_error hf, answerAll_cons_of_error hg]
    cases hq with
    | error hs => exact .error hs
  · cases hq
  · cases hq
  · rw [answerAll_cons_of_ok hf, answerAll_cons_of_ok hg]
    cases hq with
    | ok ha hs =>
      have hrest := hqs a b t t' hf hg hs
      generalize answerAll f qs t = r at hrest
      generalize answerAll g qs t' = r' at hrest
      cases hrest with
      | ok has hs' => exact .ok (.cons ha has) hs'
      | error hs' => exact .error hs'

/-- Demands whose targets run in lockstep are answered in lockstep. -/
theorem related_answerAll (side : Side) (hrefl : ∀ a, A a a) (hroots : KeepsRoots A)
    (hSE : ∀ t t', S t t' → E t t')
    (h : ∀ q ∈ qs, ∀ e, q.target? = some e → Tracks side A S E f g e) (hs : S s s')
    (hends : side.Ends (answerAll f qs s) (answerAll g qs s')) :
    Related (List.Forall₂ A) S E (answerAll f qs s) (answerAll g qs s') := by
  induction qs generalizing s s' with
  | nil => exact .ok .nil hs
  | cons q qs ih =>
    refine (related_answer hrefl hroots hSE (h q (by simp)) hs (ends_head hends)).cons ?_
    intro a b t t' hf hg ht
    exact ih (fun p hp => h p (by simp [hp])) ht (ends_tail hf hg hends)

/-- A descriptor whose demands are all answered, or refused, is resolved with the answers. -/
theorem outcome_resolve_of_demands
    (h : Ends (answerAll (resolve table metadata) (opening table metadata d s).demands
      ((opening table metadata d s).enter s))) :
    outcome (resolve table metadata d) s =
      (opening table metadata d s).close (answerAll (resolve table metadata)
        (opening table metadata d s).demands ((opening table metadata d s).enter s)) := by
  have hends : Ends (outcome (resolveWithin table metadata (metadata.depth + 1) d) s) := by
    rw [outcome_within_succ, ends_close]
    exact h
  rw [outcome_resolve_of_ends hends, outcome_within_succ]
  rfl

end Resolve

end MethodLift
