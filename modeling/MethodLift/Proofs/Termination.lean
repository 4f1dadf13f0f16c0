import MethodLift.Proofs.Requests

/-!
# Resolution terminates

Constraints of generic parameters may lead back to the parameters themselves, in whatever way. As
long as the pointers between descriptors form no cycle, every resolution comes to an end, and it
populates no row twice (`resolution_terminates`). A parameter is in the cache while its constraints
are resolved, so they do not populate it again; it leaves the cache only on a failure, and with a
failure the whole resolution is over.

`populated` is the list of the rows that a resolution populates, in their order. It is read off the
nested resolutions one by one, and counted by the serial numbers that are given out.
-/

namespace MethodLift

/-- No descriptor is reached from itself along pointers. Constraints do not count. -/
def Metadata.Acyclic (m : Metadata) : Prop := ∀ d, ¬Relation.TransGen m.PointsTo d d

/-- Pointers that lead down in some order form no cycle. -/
theorem Metadata.acyclic_of_rank {m : Metadata} (rank : Descriptor → Nat)
    (h : ∀ d e, m.PointsTo d e → rank e < rank d) : m.Acyclic := by
  intro d hd
  have hlt : ∀ e, Relation.TransGen m.PointsTo d e → rank e < rank d := by
    intro e he
    induction he with
    | single hstep => exact h _ _ hstep
    | tail _ hstep ih => exact Nat.lt_trans (h _ _ hstep) ih
  exact Nat.lt_irrefl _ (hlt d hd)

namespace Resolve

variable {α β : Type} {table : TypeTable} {metadata : Metadata}
  {below : Descriptor → ResolveM Signature} {log : Descriptor → ResolveState → List UInt32}
  {d e : Descriptor} {s t u : ResolveState} {qs : List Demand} {c : Site} {i : UInt32} {n : Nat}

/-! ## The rows that are populated -/

/-- The row that is populated as the descriptor is opened. -/
def Opening.populated : Opening → List UInt32
  | populate i _ _ => [i]
  | follow _ | known _ => []

/-- The rows that are populated while demands are answered, up to the first that fails. -/
def populatedAll (below : Descriptor → ResolveM Signature)
    (log : Descriptor → ResolveState → List UInt32) : List Demand → ResolveState → List UInt32
  | [], _ => []
  | q :: qs, s =>
    (q.target?.elim [] fun e => log e s) ++
      match outcome (answer below q) s with
      | (.ok _, t) => populatedAll below log qs t
      | (.error _, _) => []

def populatedWithin (table : TypeTable) (metadata : Metadata) :
    Nat → Descriptor → ResolveState → List UInt32
  | 0, _, _ => []
  | n + 1, d, s =>
    (opening table metadata d s).populated ++
      populatedAll (resolveWithin table metadata n) (populatedWithin table metadata n)
        (opening table metadata d s).demands ((opening table metadata d s).enter s)

/-- The rows that the resolution of a descriptor populates. -/
def populated (table : TypeTable) (metadata : Metadata) (d : Descriptor) (s : ResolveState) :
    List UInt32 :=
  populatedWithin table metadata metadata.depth d s

/-- What a list of populated rows has to do with the state before and the result: no row is in it
twice or was in the cache, each has cost a serial number, and after a success each is in the
cache. -/
structure Logged (s : ResolveState) (r : Except ResolveError α × ResolveState)
    (l : List UInt32) : Prop where
  nodup : l.Nodup
  fresh : ∀ i ∈ l, i ∉ s.rows
  serial : r.2.resolver.nextSerial = s.resolver.nextSerial + l.length
  cached : ∀ a, r.1 = .ok a → ∀ i ∈ l, i ∈ r.2.rows

theorem Logged.nil {r : Except ResolveError α} : Logged s (r, s) [] :=
  ⟨List.nodup_nil, by simp, rfl, by simp⟩

/-- A result with the same state that succeeds no more often. -/
theorem Logged.congr {r : Except ResolveError α × ResolveState}
    {r' : Except ResolveError β × ResolveState} {l : List UInt32} (h : Logged s r l)
    (hstate : r'.2 = r.2) (hok : ∀ b, r'.1 = .ok b → ∃ a, r.1 = .ok a) : Logged s r' l := by
  refine ⟨h.nodup, h.fresh, hstate ▸ h.serial, fun b hb => ?_⟩
  obtain ⟨a, ha⟩ := hok b hb
  exact hstate ▸ h.cached a ha

/-- Rows that are populated after a success are new. -/
theorem Logged.append {a : α} {r : Except ResolveError β × ResolveState} {l l' : List UInt32}
    (h : Logged s (.ok a, u) l) (h' : Logged u r l') (hs : s.rows ⊆ u.rows)
    (hr : u.rows ⊆ r.2.rows) : Logged s r (l ++ l') where
  nodup := List.nodup_append.mpr ⟨h.nodup, h'.nodup, fun i hi j hj hij =>
    h'.fresh j hj (hij ▸ h.cached a rfl i hi)⟩
  fresh i hi := by
    rcases List.mem_append.mp hi with hi | hi
    · exact h.fresh i hi
    · exact fun hmem => h'.fresh i hi (hs hmem)
  serial := by
    have hserial : u.resolver.nextSerial = s.resolver.nextSerial + l.length := h.serial
    rw [h'.serial, hserial, List.length_append, Nat.add_assoc]
  cached b hb i hi := by
    rcases List.mem_append.mp hi with hi | hi
    · exact hr (h.cached a rfl i hi)
    · exact h'.cached b hb i hi

theorem logged_answer {q : Demand}
    (h : ∀ e, q.target? = some e → Logged s (outcome (below e) s) (log e s)) :
    Logged s (outcome (answer below q) s) (q.target?.elim [] fun e => log e s) := by
  cases q with
  | refused e => exact .nil
  | given a => exact .nil
  | type e => exact h e rfl
  | base e =>
    refine (h e rfl).congr ?_ ?_ <;> rw [outcome_answer_base] <;>
      rcases outcome (below e) s with ⟨_ | a, t⟩
    · rfl
    · simp only
      cases a.root? <;> rfl
    · simp
    · simp

theorem logged_answerAll
    (h : ∀ e s, Logged s (outcome (below e) s) (log e s))
    (hrows : ∀ e (s : ResolveState), s.resolver.Keeps (outcome (below e) s).2.resolver) :
    Logged s (answerAll below qs s) (populatedAll below log qs s) := by
  induction qs generalizing s with
  | nil => exact .nil
  | cons q qs ih =>
    have hq := logged_answer (q := q) fun e _ => h e s
    rw [populatedAll]
    rcases hout : outcome (answer below q) s with ⟨_ | a, u⟩ <;> rw [hout] at hq
    · rw [answerAll_cons_of_error hout, List.append_nil]
      exact hq.congr rfl (by simp)
    · have hone : s.resolver.Keeps (answerAll below [q] s).2.resolver := keeps_answerAll hrows
      rw [answerAll_cons_of_ok hout] at hone ⊢
      refine (hq.append ih (ResolveState.rows_subset hone)
        (ResolveState.rows_subset (keeps_answerAll hrows))).congr rfl fun as has => ?_
      rcases hqs : (answerAll below qs u).1 with _ | bs
      · rw [hqs] at has
        cases has
      · exact ⟨bs, rfl⟩

/-- A row enters the cache when it is populated, before its constraints are resolved. -/
theorem logged_close {o : Opening} (ho : Opens table metadata d s o)
    {r : Except ResolveError (List Signature) × ResolveState} {l : List UInt32}
    (hr : (o.enter s).rows ⊆ r.2.rows) (h : Logged (o.enter s) r l) :
    Logged s (o.close r) (o.populated ++ l) := by
  cases ho with
  | follow =>
    obtain ⟨_ | as, t⟩ := r
    · exact h.congr rfl (by simp [Opening.close])
    · refine ⟨h.nodup, h.fresh, ?_, fun a _ i hi => ?_⟩
      · simpa [Opening.close, Opening.settle, Opening.populated, Opening.enter] using h.serial
      · simpa [Opening.close, Opening.settle] using h.cached as rfl i hi
  | known =>
    obtain ⟨_ | as, t⟩ := r
    · exact h.congr rfl (by simp [Opening.close])
    · exact h.congr rfl (by simp)
  | @populate owner i row hrow hnew hget =>
    have henter : ((Opening.populate i row (s.nextParameter owner row)).enter s).rows =
        insert i s.rows := ResolveState.rows_addParameter
    have hi : i ∉ l := fun hmem => h.fresh i hmem (henter ▸ Set.mem_insert i _)
    refine ⟨List.nodup_cons.mpr ⟨hi, h.nodup⟩, fun j hj => ?_, ?_, fun a ha j hj => ?_⟩
    · rcases List.mem_cons.mp hj with rfl | hj
      · exact ResolveState.notMem_rows.mpr hnew
      · exact fun hmem => h.fresh j hj (henter ▸ Set.mem_insert_of_mem i hmem)
    · have hserial : r.2.resolver.nextSerial = s.resolver.nextSerial + 1 + l.length := h.serial
      simp only [Opening.populated, List.singleton_append, List.length_cons]
      obtain ⟨_ | as, t⟩ := r
      · exact hserial.trans (by omega)
      · exact hserial.trans (by omega)
    · obtain ⟨_ | as, t⟩ := r
      · cases ha
      · rcases List.mem_cons.mp hj with rfl | hj
        · exact hr (henter ▸ Set.mem_insert j _)
        · exact h.cached as rfl j hj

theorem logged_within : Logged s (outcome (resolveWithin table metadata n d) s)
    (populatedWithin table metadata n d s) := by
  induction n generalizing d s with
  | zero => exact .nil
  | succ n ih =>
    rw [outcome_within_succ, populatedWithin]
    exact logged_close (opens table metadata d s)
      (ResolveState.rows_subset (keeps_answerAll fun _ _ => keeps_within))
      (logged_answerAll (fun _ _ => ih) fun _ _ => keeps_within)

/-! ## Nested resolutions -/

/-- The resolution at the site starts by populating the row. -/
def Populates (table : TypeTable) (metadata : Metadata) (c : Site) (i : UInt32) : Prop :=
  ∃ row p, opening table metadata c.1 c.2 = .populate i row p

theorem mem_populated_opening :
    i ∈ (opening table metadata d s).populated ↔ Populates table metadata (d, s) i := by
  unfold Populates
  cases opening table metadata d s <;> simp [Opening.populated, eq_comm]

theorem mem_populatedAll :
    i ∈ populatedAll below log qs s ↔ ∃ e t, Asks below e t qs s ∧ i ∈ log e t := by
  induction qs generalizing s with
  | nil =>
    simp only [populatedAll, List.not_mem_nil, false_iff, not_exists, not_and]
    exact fun e t hasks => nomatch hasks
  | cons q qs ih =>
    rw [populatedAll, List.mem_append]
    constructor
    · rintro (hi | hi)
      · cases hq : q.target? with
        | none => simp [hq] at hi
        | some e => exact ⟨e, s, .here hq, by simpa [hq] using hi⟩
      · rcases hout : outcome (answer below q) s with ⟨_ | a, u⟩ <;> rw [hout] at hi
        · simp at hi
        · obtain ⟨e, t, hasks, hmem⟩ := ih.mp hi
          exact ⟨e, t, .later hout hasks, hmem⟩
    · rintro ⟨e, t, hasks, hmem⟩
      cases hasks with
      | here hq => exact .inl (by simpa [hq] using hmem)
      | later hout hrest =>
        rw [hout]
        exact .inr (ih.mpr ⟨e, t, hrest, hmem⟩)

/-- The rows in the list are those that a nested resolution populates. -/
theorem mem_populatedWithin (hends : Ends (outcome (resolveWithin table metadata n d) s)) :
    i ∈ populatedWithin table metadata n d s ↔ ∃ c,
      Relation.ReflTransGen (Calls table metadata) (d, s) c ∧ Populates table metadata c i := by
  induction n generalizing d s with
  | zero => exact absurd rfl hends
  | succ n ih =>
    rw [outcome_within_succ, ends_close] at hends
    rw [populatedWithin, List.mem_append, mem_populated_opening, mem_populatedAll]
    constructor
    · rintro (hi | ⟨e, t, hasks, hmem⟩)
      · exact ⟨(d, s), .refl, hi⟩
      · have he := (hasks.of_ends (.inl fun _ _ _ => rfl) hends).2
        obtain ⟨c, hreach, hc⟩ := (ih he).mp hmem
        exact ⟨c, .head ⟨n, hasks⟩ hreach, hc⟩
    · rintro ⟨c, hreach, hc⟩
      rcases Relation.ReflTransGen.cases_head hreach with rfl | ⟨⟨e, t⟩, ⟨m, hasks⟩, hrest⟩
      · exact .inl hc
      · obtain ⟨hasks, he⟩ := hasks.of_ends (refines_within_total m n) hends
        exact .inr ⟨e, t, hasks, (ih he).mpr ⟨c, hrest, hc⟩⟩

/-! ## Termination -/

/-- Where chains of nested resolutions are bounded, none goes on for ever. -/
theorem acc_of_not_chain (h : ¬Chain table metadata n c) :
    Acc (fun c' c => Calls table metadata c c') c := by
  induction n generalizing c with
  | zero => exact absurd trivial h
  | succ n ih => exact .intro c fun c' hcalls => ih fun hchain => h ⟨c', hcalls, hchain⟩

theorem not_chain_of_acyclic (h : metadata.Acyclic) :
    ¬Chain table metadata metadata.depth (d, s) := by
  intro hchain
  rcases chain_cases hchain with ⟨⟨v, hv⟩, -⟩ | hlt
  · exact h v hv
  · exact Nat.lt_irrefl _ hlt

theorem ends_resolve_of_acyclic (h : metadata.Acyclic) :
    Ends (outcome (resolve table metadata d) s) :=
  not_not.mp fun hends => not_chain_of_acyclic h (not_ends_iff_chain.mp hends)

/-- A generic parameter is resolved as such in the same way as its descriptor; other descriptors are
refused at once. -/
theorem outcome_resolveParameter (hends : Ends (outcome (resolve table metadata d) s)) :
    outcome (Signature.parameter <$> resolveParameter table metadata d) s =
      if d.kind.isGenericParameter then outcome (resolve table metadata d) s
      else (.error (.notAParameter d.kind), s) := by
  cases h : d.kind.owner? with
  | none =>
    simp only [TypeKind.isGenericParameter, h, Option.isSome_none, Bool.false_eq_true, if_false]
    exact outcome_parameter_of_none h
  | some owner =>
    simp only [TypeKind.isGenericParameter, h, Option.isSome_some, if_true]
    rw [outcome_parameter_of_owner h]
    exact refines_within (Nat.le_succ _) d s hends

/-- If the pointers between descriptors form no cycle, every resolution from every state comes to an
end: there is no infinite chain of nested resolutions, and `resolve` is a solution of the recursion
without a bound. It populates no row twice. -/
theorem resolution_terminates (table : TypeTable) (h : metadata.Acyclic) :
    WellFounded (fun c' c => Calls table metadata c c') ∧
      ∀ d s, Ends (outcome (resolve table metadata d) s) ∧
        outcome (resolve table metadata d) s =
          outcome (resolveLayer table metadata (resolve table metadata) d) s ∧
        outcome (Signature.parameter <$> resolveParameter table metadata d) s =
          (if d.kind.isGenericParameter then outcome (resolve table metadata d) s
          else (.error (.notAParameter d.kind), s)) ∧
        (populated table metadata d s).Nodup ∧
        (∀ i, i ∈ populated table metadata d s ↔ ∃ c,
          Relation.ReflTransGen (Calls table metadata) (d, s) c ∧ Populates table metadata c i) ∧
        (outcome (resolve table metadata d) s).2.resolver.nextSerial =
          s.resolver.nextSerial + (populated table metadata d s).length := by
  refine ⟨⟨fun c => acc_of_not_chain (not_chain_of_acyclic h)⟩, fun d s => ?_⟩
  have hends : Ends (outcome (resolve table metadata d) s) := ends_resolve_of_acyclic h
  have hlogged : Logged s (outcome (resolve table metadata d) s) (populated table metadata d s) :=
    logged_within
  exact ⟨hends, (refines_within (Nat.le_succ _) d s hends).symm, outcome_resolveParameter hends,
    hlogged.nodup, fun i => mem_populatedWithin hends, hlogged.serial⟩

/-- Two parameters: the first is constrained by a pointer to itself and by the second, and the
second by a vector of pointers to the first. -/
def knotted : Metadata where
  version := 27
  types := .ofList [(0x10, ⟨.var, 0, false⟩), (0x20, ⟨.ptr, 0x10, false⟩)]
  parameters := .ofList
    [(0, ⟨"T", 0, 0, [⟨.ptr, 0x10, false⟩, ⟨.var, 1, false⟩]⟩),
      (1, ⟨"U", 0, 1, [⟨.szArray, 0x20, false⟩]⟩)]

/-- How far a descriptor leads along the pointers of `knotted`, at most. -/
def knottedRank (d : Descriptor) : Nat :=
  match d.kind with
  | .var => 0
  | .ptr => if d.data = 0x10 then 1 else 2
  | _ => 2

theorem acyclic_knotted : knotted.Acyclic := by
  have htypes : ∀ p e, knotted.types.get? p = some e →
      p = 0x10 ∧ e = ⟨.var, 0, false⟩ ∨ p = 0x20 ∧ e = ⟨.ptr, 0x10, false⟩ := by
    intro p e h
    simp only [knotted, FinMap.ofList, List.foldl_cons, List.foldl_nil, FinMap.get?_insert] at h
    split at h
    · exact .inr ⟨‹_›, (Option.some.inj h).symm⟩
    · split at h
      · exact .inl ⟨‹_›, (Option.some.inj h).symm⟩
      · cases h
  refine Metadata.acyclic_of_rank knottedRank fun d e h => ?_
  obtain ⟨kind, data, byRef⟩ := d
  cases h with
  | element _ hrecord _ => cases hrecord
  | item hd he =>
    cases hd
    rcases htypes _ _ he with ⟨-, rfl⟩ | ⟨-, rfl⟩ <;> simp [knottedRank]
  | pointee hd he =>
    cases hd
    rcases htypes _ _ he with ⟨h, rfl⟩ | ⟨h, rfl⟩ <;> simp only at h <;> simp [knottedRank, h]
  | base _ hrecord _ _ => cases hrecord
  | argument _ hrecord _ _ _ _ => cases hrecord

/-- Both parameters lead back to the first, and each is populated once. -/
theorem resolution_terminates_knotted :
    knotted.Acyclic ∧
      (outcome (resolve ⟨[], ∅⟩ knotted ⟨.var, 0, false⟩) ⟨{}, ⟨"A", ∅⟩⟩).1 =
        .ok (.parameter ⟨.resolved 0, "T", 0, .type, 0⟩) ∧
      populated ⟨[], ∅⟩ knotted ⟨.var, 0, false⟩ ⟨{}, ⟨"A", ∅⟩⟩ = [0, 1] ∧
      (populated ⟨[], ∅⟩ knotted ⟨.var, 0, false⟩ ⟨{}, ⟨"A", ∅⟩⟩).Nodup ∧
      WellFounded (fun c' c => Calls ⟨[], ∅⟩ knotted c c') := by
  obtain ⟨hwf, hall⟩ := resolution_terminates ⟨[], ∅⟩ acyclic_knotted
  obtain ⟨-, -, -, hnodup, -⟩ := hall ⟨.var, 0, false⟩ ⟨{}, ⟨"A", ∅⟩⟩
  exact ⟨acyclic_knotted, by decide +kernel, by decide +kernel, hnodup, hwf⟩

end Resolve

end MethodLift
