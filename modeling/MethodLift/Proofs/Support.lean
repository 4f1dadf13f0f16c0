import MethodLift.Proofs.Caches

/-!
# When a resolution succeeds

Whether a descriptor can be resolved depends on the rows in the cache only. It succeeds exactly if
there is a set of rows that contains the cached ones and supports itself: the constraints of its
other rows are fine, which means that all records on the way are there and that it leads to rows of
the set only (`fine_of_ok`, `ok_of_fine`). A row may thus be supported by itself. It follows that
a larger cache never makes a resolution fail (`ok_of_rows_subset`).
-/

namespace MethodLift

/-- The signature of the descriptor is rooted at a definition. -/
def Descriptor.rooted (d : Descriptor) : Bool :=
  match d.kind with
  | .array | .szArray | .ptr | .var | .mvar => false
  | _ => true

/-- The metadata have what the demand is for. -/
def Demand.Granted : Demand → Prop
  | refused _ => False
  | given _ | type _ => True
  | base d => d.rooted = true

namespace Resolve

variable {table : TypeTable} {metadata : Metadata} {below : Descriptor → ResolveM Signature}
  {d e : Descriptor} {s t : ResolveState} {qs : List Demand} {as : List Signature}
  {a : Signature} {n : Nat} {K L C : Set UInt32}

/-! ## Roots -/

theorem exists_definition_of_baseDemand {record : GenericClassRecord}
    (h : outcome (answer below (baseDemand table metadata record)) s = (.ok a, t)) :
    ∃ x, a = .definition x := by
  unfold baseDemand at h
  split at h
  · cases hp : metadata.types.get? record.definition with
    | none =>
      rw [hp] at h
      cases h
    | some e =>
      rw [hp] at h
      simp only [outcome_answer_base] at h
      rcases hout : outcome (below e) s with ⟨_ | b, u⟩ <;> simp only [hout] at h
      · cases h
      · cases hb : b.root? with
        | none => simp [hb] at h
        | some x =>
          simp only [hb, Prod.mk.injEq, Except.ok.injEq] at h
          exact ⟨x, h.1.symm⟩
  · cases hx : table.types[record.definition.toNat]? with
    | none =>
      rw [hx] at h
      cases h
    | some x =>
      rw [hx] at h
      cases h
      exact ⟨x, rfl⟩

theorem isSome_root_make
    (h : answerAll below (recipe table metadata d).demands s = (.ok as, t)) :
    ((recipe table metadata d).make as).root?.isSome = d.rooted := by
  have hrefused : ∀ e, answerAll below (Recipe.refused e).demands s ≠ (.ok as, t) := by
    intro e he
    cases he
  obtain ⟨kind, data, byRef⟩ := d
  cases kind
  case classType | valueType =>
    simp only [recipe, TypeKind.primitive?] at h ⊢
    cases hx : table.types[data.toNat]? with
    | none => exact absurd (hx ▸ h) (hrefused _)
    | some x => rfl
  case array =>
    simp only [recipe, TypeKind.primitive?] at h ⊢
    cases hr : metadata.arrays.get? data with
    | none => exact absurd (hr ▸ h) (hrefused _)
    | some record => rfl
  case genericInst =>
    simp only [recipe, TypeKind.primitive?] at h ⊢
    cases hr : metadata.classes.get? data with
    | none => exact absurd (hr ▸ h) (hrefused _)
    | some record =>
      simp only [hr, Recipe.applied] at h ⊢
      obtain ⟨a, bs, u, rfl, ha, -⟩ := answerAll_cons_eq_ok h
      obtain ⟨x, rfl⟩ := exists_definition_of_baseDemand ha
      rfl
  case var | mvar => exact absurd h (hrefused _)
  all_goals rfl

theorem rooted_of_row? {owner : GenericOwner} {i : UInt32} (h : d.row? = some (owner, i)) :
    d.rooted = false := by
  obtain ⟨kind, data, byRef⟩ := d
  cases kind
  case var | mvar => rfl
  all_goals cases h

/-- Whether a signature has a root can be told from the descriptor. -/
theorem isSome_root_of_ok (h : outcome (resolveLayer table metadata below d) s = (.ok a, t)) :
    a.root?.isSome = d.rooted := by
  rw [outcome_resolveLayer] at h
  have ho := opens table metadata d s
  generalize opening table metadata d s = o at h ho
  rcases hall : answerAll below o.demands (o.enter s) with ⟨_ | as, u⟩ <;> rw [hall] at h
  · cases h
  · cases h
    cases ho with
    | follow => exact isSome_root_make hall
    | known hrow _ => exact (rooted_of_row? hrow).symm
    | populate hrow _ _ => exact (rooted_of_row? hrow).symm

theorem isSome_root_within (h : outcome (resolveWithin table metadata n d) s = (.ok a, t)) :
    a.root?.isSome = d.rooted := by
  cases n with
  | zero => cases h
  | succ n => exact isSome_root_of_ok h

/-! ## Support -/

/-- All records are there that the descriptor leads to, and it leads to rows of `K` only. -/
inductive Fine (table : TypeTable) (metadata : Metadata) (K : Set UInt32) : Descriptor → Prop
  | parameter {d : Descriptor} {owner : GenericOwner} {i : UInt32}
      (hrow : d.row? = some (owner, i)) (hi : i ∈ K) : Fine table metadata K d
  | follow {d : Descriptor}
      (hgranted : ∀ q ∈ (recipe table metadata d).demands, q.Granted)
      (htargets : ∀ q ∈ (recipe table metadata d).demands, ∀ e, q.target? = some e →
        Fine table metadata K e) : Fine table metadata K d

/-- The demands are granted, and their targets are fine. -/
def FineAll (table : TypeTable) (metadata : Metadata) (K : Set UInt32) (qs : List Demand) : Prop :=
  ∀ q ∈ qs, q.Granted ∧ ∀ e, q.target? = some e → Fine table metadata K e

/-- The rows of `K` outside `C` are there, and their constraints are fine. -/
def Supported (table : TypeTable) (metadata : Metadata) (K C : Set UInt32) : Prop :=
  ∀ i ∈ K, i ∉ C → ∃ row, metadata.parameters.get? i = some row ∧
    ∀ c ∈ row.constraints, Fine table metadata K c

theorem Fine.mono (h : Fine table metadata K d) (hKL : K ⊆ L) : Fine table metadata L d := by
  induction h with
  | parameter hrow hi => exact .parameter hrow (hKL hi)
  | follow hgranted _ ih => exact .follow hgranted ih

theorem FineAll.mono (h : FineAll table metadata K qs) (hKL : K ⊆ L) :
    FineAll table metadata L qs :=
  fun q hq => ⟨(h q hq).1, fun e he => ((h q hq).2 e he).mono hKL⟩

theorem fineAll_constraints {row : GenericRow} :
    FineAll table metadata K (row.constraints.map .type) ↔
      ∀ c ∈ row.constraints, Fine table metadata K c := by
  simp [FineAll, Demand.Granted, Demand.target?]

theorem Supported.mono {C' : Set UInt32} (h : Supported table metadata K C) (hC : C ⊆ C') :
    Supported table metadata K C' :=
  fun i hi hi' => h i hi fun hc => hi' (hC hc)

/-- Rows that are in the cache anyway do no harm to a support. -/
theorem Supported.union (h : Supported table metadata K C) (hC : C ⊆ L) :
    Supported table metadata (K ∪ L) L := by
  intro i hi hi'
  obtain ⟨row, hget, hfine⟩ := h i (hi.resolve_right hi') fun hc => hi' (hC hc)
  exact ⟨row, hget, fun c hc => (hfine c hc).mono Set.subset_union_left⟩

theorem Supported.trans (h : Supported table metadata K C) (h' : Supported table metadata L K)
    (hKL : K ⊆ L) : Supported table metadata L C := by
  intro i hi hi'
  by_cases hK : i ∈ K
  · obtain ⟨row, hget, hfine⟩ := h i hK hi'
    exact ⟨row, hget, fun c hc => (hfine c hc).mono hKL⟩
  · exact h' i hi hK

/-! ## From success to support -/

theorem granted_of_ok {q : Demand}
    (h : outcome (answer (resolveWithin table metadata n) q) s = (.ok a, t)) :
    q.Granted ∧ ∀ e, q.target? = some e →
      ∃ b, outcome (resolveWithin table metadata n e) s = (.ok b, t) := by
  cases q with
  | refused e => cases h
  | given b => simp [Demand.Granted, Demand.target?]
  | type e => exact ⟨trivial, fun e' he' => by cases he'; exact ⟨a, h⟩⟩
  | base e =>
    rw [outcome_answer_base] at h
    rcases hout : outcome (resolveWithin table metadata n e) s with ⟨_ | b, u⟩ <;>
      simp only [hout] at h
    · cases h
    · cases hb : b.root? with
      | none => simp [hb] at h
      | some x =>
        simp only [hb, Prod.mk.injEq] at h
        refine ⟨?_, fun e' he' => by cases he'; exact ⟨b, by rw [hout, h.2]⟩⟩
        rw [Demand.Granted, ← isSome_root_within hout, hb, Option.isSome_some]

theorem fineAll_of_ok
    (hbelow : ∀ e s a t, outcome (resolveWithin table metadata n e) s = (.ok a, t) →
      Fine table metadata t.rows e ∧ Supported table metadata t.rows s.rows)
    (h : answerAll (resolveWithin table metadata n) qs s = (.ok as, t)) :
    FineAll table metadata t.rows qs ∧ Supported table metadata t.rows s.rows := by
  induction qs generalizing s as with
  | nil =>
    cases h
    exact ⟨by simp [FineAll], fun i hi hi' => absurd hi hi'⟩
  | cons q qs ih =>
    obtain ⟨a, bs, u, rfl, hq, hqs⟩ := answerAll_cons_eq_ok h
    obtain ⟨hfine, hsupported⟩ := ih hqs
    have hut : u.rows ⊆ t.rows := ResolveState.rows_subset (keeps_of_answerAll hqs)
    obtain ⟨hgranted, htarget⟩ := granted_of_ok hq
    cases hq' : q.target? with
    | none =>
      have hus : u.rows = s.rows := by
        cases q with
        | refused e => cases hq
        | given b => cases hq; rfl
        | type e => cases hq'
        | base e => cases hq'
      refine ⟨fun p hp => ?_, hus ▸ hsupported⟩
      rcases List.mem_cons.mp hp with rfl | hp
      · exact ⟨hgranted, by simp [hq']⟩
      · exact hfine p hp
    | some e =>
      obtain ⟨b, hb⟩ := htarget e hq'
      obtain ⟨he, hsu⟩ := hbelow e s b u hb
      refine ⟨fun p hp => ?_, hsu.trans hsupported hut⟩
      rcases List.mem_cons.mp hp with rfl | hp
      · refine ⟨hgranted, fun e' he' => ?_⟩
        rw [hq'] at he'
        cases he'
        exact he.mono hut
      · exact hfine p hp

/-- After a success the cached rows support themselves, and the descriptor is fine with them. -/
theorem fine_of_ok (h : outcome (resolveWithin table metadata n d) s = (.ok a, t)) :
    Fine table metadata t.rows d ∧ Supported table metadata t.rows s.rows := by
  induction n generalizing d s a t with
  | zero => cases h
  | succ n ih =>
    rw [outcome_within_succ] at h
    have ho := opens table metadata d s
    generalize opening table metadata d s = o at h ho
    rcases hall : answerAll (resolveWithin table metadata n) o.demands (o.enter s) with
      ⟨_ | as, u⟩ <;> rw [hall] at h
    · cases h
    cases h
    obtain ⟨hfine, hsupported⟩ := fineAll_of_ok (fun e s a t => ih) hall
    cases ho with
    | follow =>
      simp only [Opening.settle, ResolveState.rows_importRoot]
      exact ⟨.follow (fun q hq => (hfine q hq).1) fun q hq => (hfine q hq).2, hsupported⟩
    | known hrow hp =>
      cases hall
      exact ⟨.parameter hrow ⟨_, hp⟩, fun i hi hi' => absurd hi hi'⟩
    | @populate owner i row hrow hnew hget =>
      have hi : i ∈ u.rows := by
        refine ResolveState.rows_subset (keeps_of_answerAll hall) ?_
        rw [Opening.enter, ResolveState.rows_addParameter]
        exact Set.mem_insert _ _
      simp only [Opening.settle, ResolveState.rows_setConstraints]
      refine ⟨.parameter hrow hi, fun j hj hj' => ?_⟩
      by_cases hji : j = i
      · subst j
        exact ⟨row, hget, fineAll_constraints.mp hfine⟩
      · refine hsupported j hj ?_
        simp only [Opening.enter, ResolveState.rows_addParameter, Set.mem_insert_iff, not_or]
        exact ⟨hji, hj'⟩

/-! ## From support to success -/

/-- The cache holds only rows of `K`, which supports the others, and at most `k` rows remain. -/
structure Ready (table : TypeTable) (metadata : Metadata) (K : Set UInt32) (k : Nat)
    (s : ResolveState) : Prop where
  rows : s.rows ⊆ K
  supported : Supported table metadata K s.rows
  remaining : metadata.remaining s ≤ k

theorem Ready.keep {k : Nat} (h : Ready table metadata K k s) (hkeeps : s.resolver.Keeps t.resolver)
    (ht : t.rows ⊆ K) : Ready table metadata K k t where
  rows := ht
  supported := h.supported.mono (ResolveState.rows_subset hkeeps)
  remaining := Nat.le_trans (Metadata.remaining_anti (ResolveState.rows_subset hkeeps)) h.remaining

/-- The descriptor is resolved in every state that is ready. -/
def Resolves (table : TypeTable) (metadata : Metadata) (K : Set UInt32) (k : Nat)
    (d : Descriptor) : Prop :=
  ∀ s, Ready table metadata K k s →
    ∃ n a t, outcome (resolveWithin table metadata n d) s = (.ok a, t) ∧ t.rows ⊆ K

theorem answer_of_resolves {k : Nat} {q : Demand} (hgranted : q.Granted)
    (htarget : ∀ e, q.target? = some e → Resolves table metadata K k e)
    (hs : Ready table metadata K k s) :
    ∃ n a t, outcome (answer (resolveWithin table metadata n) q) s = (.ok a, t) ∧ t.rows ⊆ K := by
  cases q with
  | refused e => exact hgranted.elim
  | given a => exact ⟨0, a, s, rfl, hs.rows⟩
  | type e => exact htarget e rfl s hs
  | base e =>
    obtain ⟨n, a, t, hout, ht⟩ := htarget e rfl s hs
    have hroot := isSome_root_within hout
    rw [show e.rooted = true from hgranted] at hroot
    obtain ⟨x, hx⟩ := Option.isSome_iff_exists.mp hroot
    exact ⟨n, .definition x, t, by rw [outcome_answer_base, hout]; simp [hx], ht⟩

theorem answerAll_of_resolves {k : Nat}
    (h : ∀ q ∈ qs, q.Granted ∧ ∀ e, q.target? = some e → Resolves table metadata K k e)
    (hs : Ready table metadata K k s) :
    ∃ n as t, answerAll (resolveWithin table metadata n) qs s = (.ok as, t) ∧ t.rows ⊆ K := by
  induction qs generalizing s with
  | nil => exact ⟨0, [], s, rfl, hs.rows⟩
  | cons q qs ih =>
    obtain ⟨m, a, u, hq, hu⟩ := answer_of_resolves (h q (by simp)).1 (h q (by simp)).2 hs
    obtain ⟨n, as, t, hqs, ht⟩ :=
      ih (fun p hp => h p (by simp [hp])) (hs.keep (keeps_of_answer hq) hu)
    -- Both parts are answered within the larger number of layers.
    refine ⟨max m n, a :: as, t, ?_, ht⟩
    rw [answerAll_cons_of_ok (outcome_answer_of_le (Nat.le_max_left m n) hq),
      answerAll_of_le (Nat.le_max_right m n) hqs]
    rfl

theorem within_of_answerAll {o : Opening} (ho : opening table metadata d s = o)
    (h : answerAll (resolveWithin table metadata n) o.demands (o.enter s) = (.ok as, t)) :
    outcome (resolveWithin table metadata (n + 1) d) s = (.ok (o.made as), o.settle t as) := by
  rw [outcome_within_succ, ho, h]
  rfl

theorem opening_of_owner? (h : d.kind.owner? = none) :
    opening table metadata d s = .follow (recipe table metadata d) := by
  simp [opening, Descriptor.row?, h]

theorem opening_of_granted (h : ∀ q ∈ (recipe table metadata d).demands, q.Granted) :
    opening table metadata d s = .follow (recipe table metadata d) := by
  cases ho : d.kind.owner? with
  | none => exact opening_of_owner? ho
  | some owner =>
    rw [recipe_of_owner ho] at h
    exact (h _ (List.mem_singleton_self _)).elim

/-- A fine descriptor is resolved, however its constraints lead back to rows that are under way. -/
theorem resolves_of_fine {k : Nat} (h : Fine table metadata K d) :
    Resolves table metadata K k d := by
  induction k using Nat.strong_induction_on generalizing d with
  | _ k ihk =>
    induction h with
    | @parameter d owner i hrow hi =>
      intro s hs
      cases hp : s.resolver.parameters.get? i with
      | some p =>
        have ho : opening table metadata d s = .known p := by simp [opening, hrow, hp]
        exact ⟨1, _, _, within_of_answerAll (n := 0) ho rfl, hs.rows⟩
      | none =>
        have hnew : i ∉ s.rows := ResolveState.notMem_rows.mpr hp
        obtain ⟨row, hget, hfine⟩ := hs.supported i hi hnew
        have ho : opening table metadata d s = .populate i row (s.nextParameter owner row) := by
          simp [opening, hrow, hp, hget]
        have henter := ResolveState.rows_addParameter (s := s) (i := i)
          (p := s.nextParameter owner row)
        have hlt : metadata.remaining (s.addParameter i (s.nextParameter owner row)) < k :=
          Nat.lt_of_lt_of_le (Metadata.remaining_lt hget hnew (by simp [henter])
            (by simp [henter])) hs.remaining
        have hready : Ready table metadata K
            (metadata.remaining (s.addParameter i (s.nextParameter owner row)))
            (s.addParameter i (s.nextParameter owner row)) :=
          ⟨henter ▸ Set.insert_subset hi hs.rows,
            hs.supported.mono (henter ▸ Set.subset_insert _ _), Nat.le_refl _⟩
        have hconstraints := fineAll_constraints.mpr hfine
        obtain ⟨n, as, t, hall, ht⟩ := answerAll_of_resolves (fun q hq =>
          ⟨(hconstraints q hq).1, fun e he => ihk _ hlt ((hconstraints q hq).2 e he)⟩) hready
        exact ⟨n + 1, _, _, within_of_answerAll ho hall, ht⟩
    | follow hgranted _ ih =>
      intro s hs
      obtain ⟨n, as, t, hall, ht⟩ :=
        answerAll_of_resolves (fun q hq => ⟨hgranted q hq, ih q hq⟩) hs
      refine ⟨n + 1, _, _, within_of_answerAll (opening_of_granted hgranted) hall, ?_⟩
      simpa [Opening.settle] using ht

/-- Over a cache in a set of rows that supports itself, a fine descriptor is resolved, and only rows
of the set enter the cache. -/
theorem ok_of_fine (h : Fine table metadata K d) (hK : Supported table metadata K s.rows)
    (hs : s.rows ⊆ K) :
    ∃ n a t, outcome (resolveWithin table metadata n d) s = (.ok a, t) ∧ t.rows ⊆ K :=
  resolves_of_fine h s ⟨hs, hK, Nat.le_refl _⟩

theorem answerAll_of_fineAll (h : FineAll table metadata K qs)
    (hK : Supported table metadata K s.rows) (hs : s.rows ⊆ K) :
    ∃ n as t, answerAll (resolveWithin table metadata n) qs s = (.ok as, t) ∧ t.rows ⊆ K :=
  answerAll_of_resolves (fun q hq => ⟨(h q hq).1, fun e he => resolves_of_fine ((h q hq).2 e he)⟩)
    ⟨hs, hK, Nat.le_refl _⟩

/-! ## Larger caches -/

/-- What is resolved over a cache is resolved over every cache with more rows. -/
theorem ok_of_rows_subset (h : outcome (resolveWithin table metadata n d) s = (.ok a, t))
    {s' : ResolveState} (hs : s.rows ⊆ s'.rows) :
    ∃ m b t', outcome (resolveWithin table metadata m d) s' = (.ok b, t') := by
  obtain ⟨hfine, hsupported⟩ := fine_of_ok h
  obtain ⟨m, b, t', hout, -⟩ := ok_of_fine (hfine.mono Set.subset_union_left)
    (hsupported.union hs) Set.subset_union_right
  exact ⟨m, b, t', hout⟩

theorem answerAll_of_rows_subset
    (h : answerAll (resolveWithin table metadata n) qs s = (.ok as, t)) {s' : ResolveState}
    (hs : s.rows ⊆ s'.rows) :
    ∃ m bs t', answerAll (resolveWithin table metadata m) qs s' = (.ok bs, t') := by
  obtain ⟨hfine, hsupported⟩ := fineAll_of_ok (fun e s a t => fine_of_ok) h
  obtain ⟨m, bs, t', hall, -⟩ := answerAll_of_fineAll (hfine.mono Set.subset_union_left)
    (hsupported.union hs) Set.subset_union_right
  exact ⟨m, bs, t', hall⟩

theorem answer_of_rows_subset {q : Demand}
    (h : outcome (answer (resolveWithin table metadata n) q) s = (.ok a, t)) {s' : ResolveState}
    (hs : s.rows ⊆ s'.rows) :
    ∃ m b t', outcome (answer (resolveWithin table metadata m) q) s' = (.ok b, t') := by
  have hall : answerAll (resolveWithin table metadata n) [q] s = (.ok [a], t) :=
    answerAll_cons_of_ok h
  obtain ⟨m, bs, t', hall'⟩ := answerAll_of_rows_subset hall hs
  obtain ⟨b, _, u, -, hq, -⟩ := answerAll_cons_eq_ok hall'
  exact ⟨m, b, u, hq⟩

end Resolve

end MethodLift
