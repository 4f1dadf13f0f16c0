import MethodLift.Proofs.Support

/-!
# How deep a resolution goes

A chain of nested resolutions can be longer than `Metadata.depth` only if it runs along a pointer
cycle, and then it has no end: with the rows that are cached once the cycle is closed, it can be run
through again and again (`chain_of_cycle`). So `Metadata.depth` layers are enough for every
resolution that ends (`outcome_resolve_of_ends`), and without a pointer cycle all of them end
(`chain_cases`).
-/

namespace MethodLift

/-- The number of entries of the type table whose descriptors are not in the list. -/
def Metadata.unseen (m : Metadata) (seen : List Descriptor) : Nat :=
  m.types.entries.countP fun e => e.2 ∉ seen

namespace Metadata

variable {m : Metadata} {seen : List Descriptor} {d : Descriptor} {p : UInt64}

theorem unseen_le (m : Metadata) (seen : List Descriptor) : m.unseen seen ≤ m.types.size :=
  List.countP_le_length

theorem unseen_cons_lt (hget : m.types.get? p = some d) (hd : d ∉ seen) :
    m.unseen (d :: seen) < m.unseen seen :=
  FinMap.countP_lt hget (fun e he => by simp_all) (by simp) (by simpa using hd)

end Metadata

namespace Resolve

variable {table : TypeTable} {metadata : Metadata} {f g : Descriptor → ResolveM Signature}
  {d e v : Descriptor} {s s' t : ResolveState} {qs : List Demand} {m n : Nat} {K L : Set UInt32}

/-! ## Asking again -/

theorem Asks.refines (h : Asks f e t qs s) (hfg : Refines f g) : Asks g e t qs s := by
  induction h with
  | here hq => exact .here hq
  | later hq _ ih => exact .later (by rw [hfg.answer (by rw [hq]; exact ends_ok), hq]) ih

theorem Asks.exists_mem (h : Asks f e t qs s) : ∃ q ∈ qs, q.target? = some e := by
  induction h with
  | here hq => exact ⟨_, by simp, hq⟩
  | later _ _ ih =>
    obtain ⟨q, hmem, hq⟩ := ih
    exact ⟨q, by simp [hmem], hq⟩

theorem Asks.rows_subset (h : Asks (resolveWithin table metadata n) e t qs s) :
    s.rows ⊆ t.rows := by
  induction h with
  | here => exact subset_rfl
  | later hq _ ih => exact (ResolveState.rows_subset (keeps_of_answer hq)).trans ih

/-- What is asked for over some cache is asked for over every cache with more rows than there are
at the end. -/
theorem Asks.lift (h : Asks (resolveWithin table metadata n) e t qs s) (hK : t.rows ⊆ K)
    (hs' : K ⊆ s'.rows) :
    ∃ m t', Asks (resolveWithin table metadata m) e t' qs s' ∧ K ⊆ t'.rows := by
  induction h generalizing s' with
  | here hq => exact ⟨0, s', .here hq, hs'⟩
  | @later q qs s u a hq hasks ih =>
    have hsu := ResolveState.rows_subset (keeps_of_answer hq)
    obtain ⟨m₁, b, u', hq'⟩ := answer_of_rows_subset hq
      ((hsu.trans hasks.rows_subset).trans (hK.trans hs'))
    obtain ⟨m₂, t', hasks', ht'⟩ :=
      ih (hs'.trans (ResolveState.rows_subset (keeps_of_answer hq')))
    refine ⟨max m₁ m₂, t', ?_, ht'⟩
    exact .later (outcome_answer_of_le (Nat.le_max_left _ _) hq')
      (hasks'.refines (refines_within (Nat.le_max_right _ _)))

/-! ## Pointer cycles -/

/-- Over some cache the recipe of the first descriptor asks for the second, with rows of `K` in the
cache at that time. -/
def LeadsTo (table : TypeTable) (metadata : Metadata) (K : Set UInt32) (d e : Descriptor) : Prop :=
  ∃ n s t, Asks (resolveWithin table metadata n) e t (recipe table metadata d).demands s ∧
    t.rows ⊆ K

theorem LeadsTo.mono (h : LeadsTo table metadata K d e) (hKL : K ⊆ L) :
    LeadsTo table metadata L d e := by
  obtain ⟨n, s, t, hasks, ht⟩ := h
  exact ⟨n, s, t, hasks, ht.trans hKL⟩

theorem LeadsTo.pointsTo (h : LeadsTo table metadata K d e) : metadata.PointsTo d e := by
  obtain ⟨n, s, t, hasks, -⟩ := h
  obtain ⟨q, hmem, hq⟩ := hasks.exists_mem
  exact (aimsAt_of_mem_recipe hmem).2 e hq

theorem opening_of_target? {q : Demand} (hmem : q ∈ (recipe table metadata d).demands)
    (hq : q.target? = some e) : opening table metadata d s = .follow (recipe table metadata d) := by
  cases ho : d.kind.owner? with
  | none => exact opening_of_owner? ho
  | some owner =>
    rw [recipe_of_owner ho] at hmem
    rw [List.mem_singleton.mp hmem] at hq
    cases hq

theorem LeadsTo.calls (h : LeadsTo table metadata K d e) (hs : K ⊆ s.rows) :
    ∃ t, Calls table metadata (d, s) (e, t) ∧ K ⊆ t.rows := by
  obtain ⟨n, s₀, t₀, hasks, ht₀⟩ := h
  obtain ⟨q, hmem, hq⟩ := hasks.exists_mem
  obtain ⟨m, t, hasks', ht⟩ := hasks.lift ht₀ hs
  refine ⟨t, ⟨m, ?_⟩, ht⟩
  rw [opening_of_target? hmem hq]
  exact hasks'

/-- A cycle can be run through as often as one likes, once the rows along it are cached. -/
theorem chain_of_cycle (h : Relation.TransGen (LeadsTo table metadata K) v v)
    (hd : Relation.ReflTransGen (LeadsTo table metadata K) d v) (hs : K ⊆ s.rows) :
    Chain table metadata n (d, s) := by
  induction n generalizing d s with
  | zero => trivial
  | succ n ih =>
    obtain ⟨e, hde, hev⟩ : ∃ e, LeadsTo table metadata K d e ∧
        Relation.ReflTransGen (LeadsTo table metadata K) e v := by
      rcases Relation.ReflTransGen.cases_head hd with rfl | hstep
      · exact Relation.TransGen.head'_iff.mp h
      · exact hstep
    obtain ⟨t, hcalls, ht⟩ := hde.calls hs
    exact ⟨(e, t), hcalls, ih hev ht⟩

/-! ## Long chains -/

/-- There is a pointer cycle, and resolutions can be nested without end. -/
def Cycles (table : TypeTable) (metadata : Metadata) (c : Site) : Prop :=
  (∃ v, Relation.TransGen metadata.PointsTo v v) ∧ ∀ n, Chain table metadata n c

theorem Cycles.of_calls {c c' : Site} (h : Cycles table metadata c')
    (hcalls : Calls table metadata c c') : Cycles table metadata c := by
  refine ⟨h.1, fun n => ?_⟩
  cases n with
  | zero => trivial
  | succ n => exact ⟨c', hcalls, h.2 n⟩

/-- A chain without a cycle sees a new descriptor with each pointer and a new row with each
parameter. The descriptors since the last parameter are those in `seen`. -/
theorem chain_bound {seen : List Descriptor} (h : Chain table metadata n (d, s))
    (hseen : ∀ v ∈ seen, Relation.ReflTransGen (LeadsTo table metadata s.rows) v d) :
    Cycles table metadata (d, s) ∨
      n ≤ metadata.unseen seen + (metadata.types.size + 1) * metadata.remaining s := by
  induction n generalizing d s seen with
  | zero => exact .inr (Nat.zero_le _)
  | succ n ih =>
    obtain ⟨⟨e, t⟩, hcalls, hchain⟩ := h
    obtain ⟨k, hasks⟩ := hcalls
    have hrest := hasks
    have ho := opens table metadata d s
    generalize opening table metadata d s = o at hrest ho
    cases ho with
    | follow =>
      have hst : s.rows ⊆ t.rows := hrest.rows_subset
      have hde : LeadsTo table metadata t.rows d e := ⟨k, s, t, hrest, subset_rfl⟩
      have hreach : ∀ v ∈ seen, Relation.ReflTransGen (LeadsTo table metadata t.rows) v d :=
        fun v hv => Relation.ReflTransGen.mono (fun _ _ h => LeadsTo.mono h hst) v d (hseen v hv)
      by_cases he : e ∈ seen
      · have hcycle := Relation.TransGen.tail' (hreach e he) hde
        have hcycles : Cycles table metadata (e, t) :=
          ⟨⟨e, Relation.TransGen.mono (fun _ _ => LeadsTo.pointsTo) e e hcycle⟩,
            fun n => chain_of_cycle hcycle .refl subset_rfl⟩
        exact .inl (hcycles.of_calls ⟨k, hasks⟩)
      · have hseen' : ∀ v ∈ e :: seen,
            Relation.ReflTransGen (LeadsTo table metadata t.rows) v e := by
          intro v hv
          rcases List.mem_cons.mp hv with rfl | hv
          · exact .refl
          · exact (hreach v hv).tail hde
        rcases ih hchain hseen' with hcycles | hle
        · exact .inl (hcycles.of_calls ⟨k, hasks⟩)
        · obtain ⟨p, hp⟩ := hde.pointsTo.exists_pointer
          have hunseen := Metadata.unseen_cons_lt hp he
          have hremaining := Nat.mul_le_mul_left (metadata.types.size + 1)
            (Metadata.remaining_anti (m := metadata) hst)
          exact .inr (by omega)
    | known => cases hrest
    | @populate owner i row hrow hnew hget =>
      -- The run of pointers ends here, and the next one starts at the constraint.
      have hrows : (s.addParameter i (s.nextParameter owner row)).rows = insert i s.rows :=
        ResolveState.rows_addParameter
      have hsub : insert i s.rows ⊆ t.rows := hrows ▸ hrest.rows_subset
      rcases ih hchain (List.forall_mem_nil _) with hcycles | hle
      · exact .inl (hcycles.of_calls ⟨k, hasks⟩)
      · have hunseen := metadata.unseen_le []
        have hremaining : metadata.remaining t + 1 ≤ metadata.remaining s :=
          Metadata.remaining_lt hget (ResolveState.notMem_rows.mpr hnew)
            (hsub (Set.mem_insert _ _)) ((Set.subset_insert _ _).trans hsub)
        have hmul := Nat.mul_le_mul_left (metadata.types.size + 1) hremaining
        rw [Nat.mul_add, Nat.mul_one] at hmul
        exact .inr (by omega)

/-- A chain is shorter than `Metadata.depth`, or it goes along a cycle and has no end. -/
theorem chain_cases (h : Chain table metadata n (d, s)) :
    Cycles table metadata (d, s) ∨ n < metadata.depth := by
  rcases chain_bound h (List.forall_mem_nil _) with hcycles | hle
  · exact .inl hcycles
  · have hunseen := metadata.unseen_le []
    have hremaining := Nat.mul_le_mul_left (metadata.types.size + 1)
      (Metadata.remaining_le (m := metadata) (s := s))
    refine .inr ?_
    rw [Metadata.depth, Nat.mul_add, Nat.mul_one]
    omega

theorem ends_resolve_of_ends (h : Ends (outcome (resolveWithin table metadata n d) s)) :
    Ends (outcome (resolve table metadata d) s) := by
  by_contra hends
  rcases chain_cases (not_ends_iff_chain.mp hends) with hcycles | hlt
  · exact not_ends_iff_chain.mpr (hcycles.2 n) h
  · exact absurd hlt (Nat.lt_irrefl _)

/-- What is answered within any number of layers is answered in the same way by `resolve`. -/
theorem outcome_resolve_of_ends (h : Ends (outcome (resolveWithin table metadata n d) s)) :
    outcome (resolve table metadata d) s = outcome (resolveWithin table metadata n d) s := by
  rcases Nat.le_total n metadata.depth with hle | hle
  · exact refines_within hle d s h
  · exact (refines_within hle d s (ends_resolve_of_ends h)).symm

end Resolve

end MethodLift
