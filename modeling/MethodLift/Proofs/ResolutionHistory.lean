import MethodLift.Proofs.Lockstep
import MethodLift.Proofs.Requests

/-!
# Resolutions before

Whether a descriptor can be resolved may depend on what a resolver was asked before. A parameter
whose constraints lead to one that is under way is finished with it and stays, even if the other one
fails in the end; from then on it is found in the cache, although it cannot be resolved on its own.

The rows that can be resolved on their own never get in the way (`grounded`): two resolvers that
agree on all other rows give the same verdicts (`verdict_of_agreeOff`). So the verdicts do not
depend on the history exactly if no request to a new resolver leaves a row behind that is not
grounded, and that is so if no such row leads back to itself (`resolution_history_iff`). In any case
requests can only make later ones succeed, never fail.
-/

namespace MethodLift

namespace Resolve

variable {table : TypeTable} {metadata : Metadata} {d : Descriptor} {s s' s'' t : ResolveState}
  {a b : Signature} {i : UInt32} {owner : GenericOwner} {request : Request} {r : Resolver} {n : Nat}
  {K G under : Set UInt32}

/-- The error of a result, none for a success. -/
def verdict {α : Type} : Except ResolveError α → Option ResolveError
  | .ok _ => none
  | .error e => some e

theorem verdict_eq_none {α : Type} {x : Except ResolveError α} :
    verdict x = none ↔ ∃ a, x = .ok a := by
  cases x <;> simp [verdict]

/-! ## Rows that stand on their own -/

/-- The rows of sets that support themselves out of nothing. -/
def grounded (table : TypeTable) (metadata : Metadata) : Set UInt32 :=
  {i | ∃ K, i ∈ K ∧ Supported table metadata K ∅}

theorem Supported.subset_grounded (h : Supported table metadata K ∅) :
    K ⊆ grounded table metadata :=
  fun _ hi => ⟨K, hi, h⟩

theorem supported_grounded : Supported table metadata (grounded table metadata) ∅ := by
  rintro i ⟨K, hi, hK⟩ hi'
  obtain ⟨row, hget, hfine⟩ := hK i hi hi'
  exact ⟨row, hget, fun c hc => (hfine c hc).mono hK.subset_grounded⟩

/-- The caches hold the same rows, but for those of `G`. -/
def AgreeOff (G : Set UInt32) (s s' : ResolveState) : Prop := ∀ i ∉ G, i ∈ s.rows ↔ i ∈ s'.rows

theorem AgreeOff.symm (h : AgreeOff G s s') : AgreeOff G s' s := fun i hi => (h i hi).symm

theorem AgreeOff.trans (h : AgreeOff G s s') (h' : AgreeOff G s' s'') : AgreeOff G s s'' :=
  fun i hi => (h i hi).trans (h' i hi)

theorem agreeOff_of_subset (hs : s.rows ⊆ t.rows) (ht : t.rows ⊆ G ∪ s.rows) : AgreeOff G s t :=
  fun _ hi => ⟨fun h => hs h, fun h => (ht h).resolve_left hi⟩

/-- A grounded row is resolved from every state, and only grounded rows enter the cache. -/
theorem ok_of_grounded (hrow : d.row? = some (owner, i)) (hi : i ∈ grounded table metadata)
    (s : ResolveState) :
    ∃ n a t, outcome (resolveWithin table metadata n d) s = (.ok a, t) ∧
      AgreeOff (grounded table metadata) s t := by
  obtain ⟨n, a, t, hout, ht⟩ := ok_of_fine (.parameter hrow (.inl hi))
    (supported_grounded.union (Set.empty_subset s.rows)) Set.subset_union_right
  have hkeeps : s.resolver.Keeps (outcome (resolveWithin table metadata n d) s).2.resolver :=
    keeps_within
  rw [hout] at hkeeps
  exact ⟨n, a, t, hout, agreeOff_of_subset (ResolveState.rows_subset hkeeps) ht⟩

/-! ## The same verdicts -/

/-- Both signatures have a root, or none has. -/
def RootsAlike (a b : Signature) : Prop := a.root?.isSome = b.root?.isSome

theorem rootsAlike_refl (a : Signature) : RootsAlike a a := rfl

theorem keepsRoots_rootsAlike : KeepsRoots RootsAlike := by
  intro a b h
  cases ha : a.root? with
  | none =>
    rw [RootsAlike, ha] at h
    exact .inl ⟨rfl, Option.isNone_iff_eq_none.mp (by simpa using h.symm)⟩
  | some x =>
    rw [RootsAlike, ha] at h
    obtain ⟨y, hy⟩ := Option.isSome_iff_exists.mp h.symm
    exact .inr ⟨x, y, rfl, hy, rfl⟩

/-- Roots can be told from the descriptor, so they are alike whenever both resolutions succeed. -/
theorem Related.rootsAlike {S : ResolveState → ResolveState → Prop}
    (h : Related (fun _ _ => True) S S (outcome (resolveWithin table metadata n d) s)
      (outcome (resolve table metadata d) s')) :
    Related RootsAlike S S (outcome (resolveWithin table metadata n d) s)
      (outcome (resolve table metadata d) s') := by
  rcases hf : outcome (resolveWithin table metadata n d) s with ⟨e | a, t⟩ <;>
    rcases hg : outcome (resolve table metadata d) s' with ⟨e' | b, t'⟩ <;> rw [hf, hg] at h
  · cases h with
    | error hs => exact .error hs
  · cases h
  · cases h
  · cases h with
    | ok _ hs => exact .ok ((isSome_root_within hf).trans (isSome_root_within hg).symm) hs

theorem agreeOff_addParameter {p p' : GenericParameter} (h : AgreeOff G s s') :
    AgreeOff G (s.addParameter i p) (s'.addParameter i p') := by
  intro j hj
  rw [ResolveState.rows_addParameter, ResolveState.rows_addParameter, Set.mem_insert_iff,
    Set.mem_insert_iff, h j hj]

theorem agreeOff_forget (h : AgreeOff G s s') : AgreeOff G (s.forget i) (s'.forget i) := by
  intro j hj
  rw [ResolveState.rows_forget, ResolveState.rows_forget, Set.mem_sdiff, Set.mem_sdiff, h j hj]

theorem agreeOff_importRoot {a a' : Signature} (h : AgreeOff G s s') :
    AgreeOff G (s.importRoot a) (s'.importRoot a') := by
  intro j hj
  rw [ResolveState.rows_importRoot, ResolveState.rows_importRoot, h j hj]

/-- The openings differ in the parameter only that stands for the row. -/
inductive SameOpening : Opening → Opening → Prop
  | follow (recipe : Recipe) : SameOpening (.follow recipe) (.follow recipe)
  | known (p p' : GenericParameter) : SameOpening (.known p) (.known p')
  | populate (i : UInt32) (row : GenericRow) (p p' : GenericParameter) :
      SameOpening (.populate i row p) (.populate i row p')

theorem sameOpening
    (hrows : ∀ owner i, d.row? = some (owner, i) → (i ∈ s.rows ↔ i ∈ s'.rows)) :
    SameOpening (opening table metadata d s) (opening table metadata d s') := by
  have hnone : ∀ owner i, d.row? = some (owner, i) → s.resolver.parameters.get? i = none →
      s'.resolver.parameters.get? i = none := by
    intro owner i hrow hp
    rw [← ResolveState.notMem_rows] at hp ⊢
    exact fun hmem => hp ((hrows owner i hrow).mpr hmem)
  have ho := opens table metadata d s
  generalize opening table metadata d s = o at ho
  cases ho with
  | follow hmissing =>
    have ho' : opening table metadata d s' = .follow (recipe table metadata d) := by
      cases hrow : d.row? with
      | none => simp [opening, hrow]
      | some place =>
        obtain ⟨owner, i⟩ := place
        obtain ⟨hp, hget⟩ := hmissing owner i hrow
        simp [opening, hrow, hnone owner i hrow hp, hget]
    rw [ho']
    exact .follow _
  | @known owner i p hrow hp =>
    obtain ⟨p', hp'⟩ := (hrows owner i hrow).mp ⟨p, hp⟩
    have ho' : opening table metadata d s' = .known p' := by simp [opening, hrow, hp']
    rw [ho']
    exact .known _ _
  | @populate owner i row hrow hnew hget =>
    have ho' : opening table metadata d s' = .populate i row (s'.nextParameter owner row) := by
      simp [opening, hrow, hnone owner i hrow hnew, hget]
    rw [ho']
    exact .populate _ _ _ _

namespace SameOpening

variable {o o' : Opening}

theorem demands (h : SameOpening o o') : o.demands = o'.demands := by
  cases h <;> rfl

theorem enter (h : SameOpening o o') (hs : AgreeOff G s s') :
    AgreeOff G (o.enter s) (o'.enter s') := by
  cases h with
  | follow => exact hs
  | known => exact hs
  | populate => exact agreeOff_addParameter hs

theorem settle {as bs : List Signature} (h : SameOpening o o') (hs : AgreeOff G s s') :
    AgreeOff G (o.settle s as) (o'.settle s' bs) := by
  cases h with
  | follow => exact agreeOff_importRoot hs
  | known => exact hs
  | populate => exact hs

theorem abandon (h : SameOpening o o') (hs : AgreeOff G s s') :
    AgreeOff G (o.abandon s) (o'.abandon s') := by
  cases h with
  | follow => exact hs
  | known => exact hs
  | populate => exact agreeOff_forget hs

end SameOpening

/-- From states that agree but for grounded rows, resolutions run in lockstep. -/
theorem tracks_within :
    Tracks .first RootsAlike (AgreeOff (grounded table metadata))
      (AgreeOff (grounded table metadata)) (resolveWithin table metadata n)
      (resolve table metadata) d := by
  induction n generalizing d with
  | zero => exact fun s s' _ hends => absurd rfl hends
  | succ n ih =>
    intro s s' hs hends
    refine Related.rootsAlike ?_
    by_cases hgrounded : ∃ owner i, d.row? = some (owner, i) ∧ i ∈ grounded table metadata
    · obtain ⟨owner, i, hrow, hi⟩ := hgrounded
      obtain ⟨m, a, t, hout, ht⟩ := ok_of_grounded hrow hi s
      obtain ⟨m', a', t', hout', ht'⟩ := ok_of_grounded hrow hi s'
      rw [← outcome_resolve_of_ends hends, outcome_resolve_of_ends (by rw [hout]; exact ends_ok),
        hout, outcome_resolve_of_ends (by rw [hout']; exact ends_ok), hout']
      exact .ok trivial (ht.symm.trans (hs.trans ht'))
    · have hsame : SameOpening (opening table metadata d s) (opening table metadata d s') :=
        sameOpening fun owner i hrow => hs i fun hi => hgrounded ⟨owner, i, hrow, hi⟩
      have hall : Ends (answerAll (resolveWithin table metadata n)
          (opening table metadata d s).demands ((opening table metadata d s).enter s)) := by
        rwa [Side.Ends, outcome_within_succ, ends_close] at hends
      have hrelated := related_answerAll .first rootsAlike_refl keepsRoots_rootsAlike
        (fun _ _ ht => ht) (fun _ _ _ _ => ih) (hsame.enter hs) hall
      rw [hsame.demands] at hrelated hall
      rw [outcome_within_succ, hsame.demands,
        outcome_resolve_of_demands (hrelated.ends_iff.mp hall)]
      exact hrelated.close (fun as bs t t' _ ht => ⟨trivial, hsame.settle ht⟩)
        fun t t' ht => hsame.abandon ht

theorem related_resolve (hs : AgreeOff (grounded table metadata) s s')
    (hends : Ends (outcome (resolve table metadata d) s)) :
    Related RootsAlike (AgreeOff (grounded table metadata)) (AgreeOff (grounded table metadata))
      (outcome (resolve table metadata d) s) (outcome (resolve table metadata d) s') :=
  tracks_within s s' hs hends

theorem verdict_of_agreeOff (hs : AgreeOff (grounded table metadata) s s') :
    verdict (outcome (resolve table metadata d) s).1 =
      verdict (outcome (resolve table metadata d) s').1 := by
  by_cases hends : Ends (outcome (resolve table metadata d) s)
  · have hrelated := related_resolve hs hends
    generalize outcome (resolve table metadata d) s = x at hrelated
    generalize outcome (resolve table metadata d) s' = y at hrelated
    cases hrelated <;> rfl
  · have hends' : ¬Ends (outcome (resolve table metadata d) s') :=
      fun h => hends ((related_resolve hs.symm h).ends_iff.mp h)
    rw [Ends, not_not] at hends hends'
    rw [hends, hends']

/-! ## Requests one after the other -/

@[simp] theorem rows_new {references : References} :
    (⟨{}, references⟩ : ResolveState).rows = ∅ :=
  Set.eq_empty_iff_forall_notMem.mpr fun _ => ResolveState.notMem_rows.mpr rfl

/-- The same request to resolvers that agree but for grounded rows. -/
theorem agreeOff_perform (hs : AgreeOff (grounded table metadata) s s')
    (hends : Ends (outcome (request.perform table metadata) s)) :
    Ends (outcome (request.perform table metadata) s') ∧
      AgreeOff (grounded table metadata) (outcome (request.perform table metadata) s).2
        (outcome (request.perform table metadata) s').2 := by
  rcases perform_cases table metadata request with ⟨n, hle, hn⟩ | ⟨-, hrefused⟩
  · rw [hn] at hends
    have hresolve : Ends (outcome (resolve table metadata request.descriptor) s) :=
      ends_resolve_of_ends hends
    have hrelated := related_resolve hs hresolve
    rw [hn, hn, refines_within hle _ _ hresolve,
      refines_within hle _ _ (hrelated.ends_iff.mp hresolve)]
    exact ⟨hrelated.ends_iff.mp hresolve, hrelated.states⟩
  · rw [hrefused, hrefused]
    exact ⟨by simp [Ends], hs⟩

/-- A row can be resolved by a new resolver. -/
def Alone (table : TypeTable) (metadata : Metadata) (i : UInt32) : Prop :=
  ∀ (d : Descriptor) (owner : GenericOwner) (references : References), d.row? = some (owner, i) →
    verdict (outcome (resolve table metadata d) ⟨{}, references⟩).1 = none

theorem row?_var (i : UInt32) :
    (⟨.var, i.toUInt64, false⟩ : Descriptor).row? = some (.type, i) := by
  have hlt : i.toNat < UInt32.size := i.toNat_lt
  simp [Descriptor.row?, TypeKind.owner?, hlt]

theorem Fine.mem_of_row? (h : Fine table metadata K d) (hrow : d.row? = some (owner, i)) :
    i ∈ K := by
  cases h with
  | parameter hrow' hi =>
    rw [hrow] at hrow'
    cases hrow'
    exact hi
  | follow hgranted _ =>
    rw [recipe_of_row? hrow] at hgranted
    exact (hgranted _ (List.mem_singleton_self _)).elim

/-- Rows that can be resolved by a new resolver are those that are grounded. -/
theorem alone_iff : Alone table metadata i ↔ i ∈ grounded table metadata := by
  constructor
  · intro h
    obtain ⟨a, ha⟩ := verdict_eq_none.mp (h _ _ ⟨"", ∅⟩ (row?_var i))
    obtain ⟨hfine, hsupported⟩ := fine_of_ok (Prod.ext ha rfl)
    rw [rows_new] at hsupported
    exact hsupported.subset_grounded (hfine.mem_of_row? (row?_var i))
  · intro hi d owner references hrow
    obtain ⟨n, a, t, hout, -⟩ := ok_of_grounded hrow hi ⟨{}, references⟩
    rw [outcome_resolve_of_ends (by rw [hout]; exact ends_ok), hout]
    rfl

/-- What can be resolved does not depend on the requests before. -/
def Independent (table : TypeTable) (metadata : Metadata) : Prop :=
  ∀ r, Later table metadata {} r → ∀ (d : Descriptor) (references references' : References),
    verdict (outcome (resolve table metadata d) ⟨r, references⟩).1 =
      verdict (outcome (resolve table metadata d) ⟨{}, references'⟩).1

/-- A request to a new resolver leaves only rows behind that can be resolved alone. -/
def Clean (table : TypeTable) (metadata : Metadata) : Prop :=
  ∀ (request : Request) (references : References),
    Ends (outcome (request.perform table metadata) ⟨{}, references⟩) →
      ∀ i ∈ (outcome (request.perform table metadata) ⟨{}, references⟩).2.rows,
        Alone table metadata i

theorem Clean.rows_subset (h : Clean table metadata) (hr : Later table metadata {} r)
    (references : References) :
    (⟨r, references⟩ : ResolveState).rows ⊆ grounded table metadata := by
  induction hr with
  | refl => simp
  | @tail r r' _ hnext ih =>
    obtain ⟨request, references', hends, rfl⟩ := hnext
    intro i hi
    by_contra hgrounded
    have hagree : AgreeOff (grounded table metadata) ⟨r, references'⟩ ⟨{}, references'⟩ :=
      fun j hj => ⟨fun hmem => absurd (ih hmem) hj, by simp⟩
    obtain ⟨hends', hagree'⟩ := agreeOff_perform hagree hends
    exact hgrounded (alone_iff.mp (h request references' hends' i ((hagree' i hgrounded).mp hi)))

/-- The history shows exactly if some row that a new resolver leaves behind is not grounded. -/
theorem independent_iff_clean : Independent table metadata ↔ Clean table metadata := by
  constructor
  · intro h request references hends i hi d owner references' hrow
    rw [← h _ (.single ⟨request, references, hends, rfl⟩) d references references']
    obtain ⟨p, hp⟩ := hi
    have hcached : (outcome ((Request.type d).perform table metadata)
        ⟨(outcome (request.perform table metadata) ⟨{}, references⟩).2.resolver, references⟩).1 =
          .ok (.parameter p) :=
      perform_of_cached (by simp [Request.row?, Request.descriptor, hrow]) hp
    exact verdict_eq_none.mpr ⟨_, hcached⟩
  · intro h r hr d references references'
    refine verdict_of_agreeOff fun i hi => ⟨fun hmem => ?_, by simp⟩
    exact absurd (h.rows_subset hr references hmem) hi

/-! ## Rows that lead to each other -/

/-- The recipe of the first descriptor asks for the second. -/
def Wants (table : TypeTable) (metadata : Metadata) (d e : Descriptor) : Prop :=
  ∃ q ∈ (recipe table metadata d).demands, q.target? = some e

/-- The row has a constraint from which the recipes lead to the descriptor. -/
def Constrains (table : TypeTable) (metadata : Metadata) (i : UInt32) (d : Descriptor) : Prop :=
  ∃ row, metadata.parameters.get? i = some row ∧
    ∃ c ∈ row.constraints, Relation.ReflTransGen (Wants table metadata) c d

/-- A constraint of the first row leads to the second row. -/
def Leads (table : TypeTable) (metadata : Metadata) (i j : UInt32) : Prop :=
  ∃ d owner, Constrains table metadata i d ∧ d.row? = some (owner, j)

/-- The row leads to the descriptor, by a constraint of its own or of a row that it leads to. -/
def Above (table : TypeTable) (metadata : Metadata) (i : UInt32) (d : Descriptor) : Prop :=
  ∃ j, Relation.ReflTransGen (Leads table metadata) i j ∧ Constrains table metadata j d

theorem Above.wants {e : Descriptor} (h : Above table metadata i d)
    (hde : Wants table metadata d e) : Above table metadata i e := by
  obtain ⟨j, hij, row, hget, c, hc, hcd⟩ := h
  exact ⟨j, hij, row, hget, c, hc, hcd.tail hde⟩

theorem Above.leads {j : UInt32} (h : Above table metadata i d) (hrow : d.row? = some (owner, j)) :
    Relation.TransGen (Leads table metadata) i j := by
  obtain ⟨k, hik, hk⟩ := h
  exact .tail' hik ⟨d, owner, hk, hrow⟩

/-- Only rows that the recipes lead to count. -/
theorem Fine.restrict {L : Set UInt32} (h : Fine table metadata K d)
    (hKL : ∀ e owner i, Relation.ReflTransGen (Wants table metadata) d e →
      e.row? = some (owner, i) → i ∈ K → i ∈ L) : Fine table metadata L d := by
  induction h with
  | parameter hrow hi => exact .parameter hrow (hKL _ _ _ .refl hrow hi)
  | @follow d hgranted _ ih =>
    refine .follow hgranted fun q hq e he => ih q hq e he fun e' owner i hreach => ?_
    exact hKL e' owner i (.head ⟨q, hq, he⟩ hreach)

/-- A row is grounded if its constraints are fine with it and the grounded rows. -/
theorem mem_grounded {row : GenericRow} (hget : metadata.parameters.get? i = some row)
    (h : ∀ c ∈ row.constraints, Fine table metadata (insert i (grounded table metadata)) c) :
    i ∈ grounded table metadata := by
  refine ⟨insert i (grounded table metadata), Set.mem_insert _ _, fun j hj hempty => ?_⟩
  rcases Set.mem_insert_iff.mp hj with rfl | hj
  · exact ⟨row, hget, h⟩
  · obtain ⟨row', hget', hfine⟩ := supported_grounded j hj hempty
    exact ⟨row', hget', fun c hc => (hfine c hc).mono (Set.subset_insert _ _)⟩

/-- A row that is finished is grounded, unless one of the rows above it leads back to itself: they
lead to the row, and the constraints of the row lead to them. -/
theorem mem_grounded_of_above {row : GenericRow}
    (hcycles : ∀ i ∉ grounded table metadata, ¬Relation.TransGen (Leads table metadata) i i)
    (hunder : ∀ j ∈ under, Above table metadata j d) (hrow : d.row? = some (owner, i))
    (hget : metadata.parameters.get? i = some row)
    (hfine : ∀ c ∈ row.constraints, Fine table metadata K c)
    (hK : K ⊆ grounded table metadata ∪ insert i under) : i ∈ grounded table metadata := by
  refine mem_grounded hget fun c hc => (hfine c hc).restrict fun e owner' j hreach hj hmem => ?_
  rcases hK hmem with hgrounded | hmem
  · exact Set.mem_insert_of_mem _ hgrounded
  · rcases Set.mem_insert_iff.mp hmem with rfl | hmem
    · exact Set.mem_insert _ _
    · have hback : Leads table metadata i j := ⟨e, owner', ⟨row, hget, c, hc, hreach⟩, hj⟩
      refine Set.mem_insert_of_mem _ (by_contra fun hj' => hcycles j hj' ?_)
      exact ((hunder j hmem).leads hrow).tail hback

theorem above_constraints {row : GenericRow} (hunder : ∀ j ∈ under, Above table metadata j d)
    (hrow : d.row? = some (owner, i)) (hget : metadata.parameters.get? i = some row) :
    ∀ c ∈ row.constraints, ∀ j ∈ insert i under, Above table metadata j c := by
  intro c hc j hj
  have hi : Constrains table metadata i c := ⟨row, hget, c, hc, .refl⟩
  rcases Set.mem_insert_iff.mp hj with rfl | hj
  · exact ⟨j, .refl, hi⟩
  · exact ⟨i, ((hunder j hj).leads hrow).to_reflTransGen, hi⟩

/-- A row that was populated is grounded or forgotten. -/
theorem rows_close_populate {row : GenericRow} {p : GenericParameter}
    {x : Except ResolveError (List Signature) × ResolveState}
    (hrows : x.2.rows ⊆ G ∪ insert i under) (hi : ∀ as, x.1 = .ok as → i ∈ G) :
    ((Opening.populate i row p).close x).2.rows ⊆ G ∪ under := by
  obtain ⟨_ | as, t⟩ := x <;> intro j hj
  · rw [Opening.close, Opening.abandon, ResolveState.rows_forget, Set.mem_sdiff,
      Set.mem_singleton_iff] at hj
    exact (hrows hj.1).imp_right fun h => h.resolve_left hj.2
  · rcases hrows hj with h | h
    · exact .inl h
    · rcases Set.mem_insert_iff.mp h with rfl | h
      · exact .inl (hi as rfl)
      · exact .inr h

theorem rows_close_follow {recipe : Recipe}
    {x : Except ResolveError (List Signature) × ResolveState} :
    ((Opening.follow recipe).close x).2.rows = x.2.rows := by
  obtain ⟨_ | as, t⟩ := x
  · rfl
  · simp [Opening.close, Opening.settle]

/-- If no row that is not grounded leads back to itself, only grounded rows enter the cache and
stay. The others in the cache are those under way, and they lead to the descriptor. -/
theorem rows_within_subset
    (hcycles : ∀ i ∉ grounded table metadata, ¬Relation.TransGen (Leads table metadata) i i)
    (hs : s.rows ⊆ grounded table metadata ∪ under)
    (hunder : ∀ j ∈ under, Above table metadata j d) :
    (outcome (resolveWithin table metadata n d) s).2.rows ⊆ grounded table metadata ∪ under := by
  induction n generalizing d s under with
  | zero => exact hs
  | succ n ih =>
    rw [outcome_within_succ]
    have ho := opens table metadata d s
    generalize opening table metadata d s = o at ho
    cases ho with
    | follow =>
      rw [rows_close_follow]
      exact answerAll_invariant (I := fun t => t.rows ⊆ grounded table metadata ∪ under)
        (fun q hq e he t ht => ih ht fun j hj => (hunder j hj).wants ⟨q, hq, he⟩) hs
    | known => exact hs
    | @populate owner i row hrow hnew hget =>
      have henter : (s.addParameter i (s.nextParameter owner row)).rows ⊆
          grounded table metadata ∪ insert i under := by
        rw [ResolveState.rows_addParameter, Set.union_insert]
        exact Set.insert_subset_insert hs
      have hall : (answerAll (resolveWithin table metadata n) (row.constraints.map .type)
          (s.addParameter i (s.nextParameter owner row))).2.rows ⊆
            grounded table metadata ∪ insert i under := by
        refine answerAll_invariant
          (I := fun t => t.rows ⊆ grounded table metadata ∪ insert i under)
          (fun q hq e he t ht => ih ht ?_) henter
        obtain ⟨c, hc, rfl⟩ := List.mem_map.mp hq
        cases he
        exact above_constraints hunder hrow hget _ hc
      refine rows_close_populate hall fun as has => ?_
      obtain ⟨hfine, -⟩ := fineAll_of_ok (fun _ _ _ _ => fine_of_ok) (Prod.ext has rfl)
      exact mem_grounded_of_above hcycles hunder hrow hget (fineAll_constraints.mp hfine) hall

theorem clean_of_not_cyclic
    (h : ∀ i, ¬Alone table metadata i → ¬Relation.TransGen (Leads table metadata) i i) :
    Clean table metadata := by
  intro request references _ i hi
  rw [alone_iff]
  have hcycles : ∀ i ∉ grounded table metadata, ¬Relation.TransGen (Leads table metadata) i i :=
    fun j hj => h j fun halone => hj (alone_iff.mp halone)
  rcases perform_cases table metadata request with ⟨n, -, hn⟩ | ⟨-, hrefused⟩
  · rw [hn] at hi
    have hrows : (outcome (resolveWithin table metadata n request.descriptor)
        ⟨{}, references⟩).2.rows ⊆ grounded table metadata ∪ ∅ :=
      rows_within_subset hcycles (by simp) (by simp)
    exact (hrows hi).resolve_right (Set.notMem_empty i)
  · rw [hrefused, rows_new] at hi
    exact absurd hi (Set.notMem_empty i)

/-- For every table and metadata: what a new resolver can resolve, it can resolve after all
requests. The verdicts on all descriptors, errors included, are those of a new resolver after all
requests exactly if no single request to a new resolver leaves a row behind that cannot be resolved
alone. That is so if no row that cannot be resolved alone leads back to itself. -/
theorem resolution_history_iff (table : TypeTable) (metadata : Metadata) :
    (∀ r, Later table metadata {} r → ∀ (d : Descriptor) (references references' : References),
        verdict (outcome (resolve table metadata d) ⟨{}, references⟩).1 = none →
          verdict (outcome (resolve table metadata d) ⟨r, references'⟩).1 = none) ∧
      (Independent table metadata ↔ Clean table metadata) ∧
      ((∀ i, ¬Alone table metadata i → ¬Relation.TransGen (Leads table metadata) i i) →
        Independent table metadata) := by
  refine ⟨fun r _ d references references' h => ?_, independent_iff_clean,
    fun h => independent_iff_clean.mpr (clean_of_not_cyclic h)⟩
  obtain ⟨a, ha⟩ := verdict_eq_none.mp h
  have hrows : (⟨{}, references⟩ : ResolveState).rows ⊆ (⟨r, references'⟩ : ResolveState).rows := by
    simp
  obtain ⟨m, b, t, hout⟩ := ok_of_rows_subset (Prod.ext ha rfl) hrows
  rw [outcome_resolve_of_ends (by rw [hout]; exact ends_ok), hout]
  rfl

/-- Each of two parameters is constrained by the other one, the first also by a definition that
there is not. A third is constrained by itself. -/
def crossed : Metadata where
  version := 27
  parameters := .ofList
    [(0, ⟨"T", 0, 0, [⟨.var, 1, false⟩, ⟨.classType, 9, false⟩]⟩),
      (1, ⟨"U", 0, 1, [⟨.var, 0, false⟩]⟩), (2, ⟨"V", 0, 2, [⟨.var, 2, false⟩]⟩)]

/-- What a resolver is after it failed to give the first parameter. -/
def crossedResolver : Resolver :=
  (outcome ((Request.parameter ⟨.var, 0, false⟩).perform ⟨[], ∅⟩ crossed)
    ⟨{}, ⟨"A", ∅⟩⟩).2.resolver

/-- The same without a constraint of the second parameter. -/
def uncrossed : Metadata where
  version := 27
  parameters := .ofList
    [(0, ⟨"T", 0, 0, [⟨.var, 1, false⟩, ⟨.classType, 9, false⟩]⟩), (1, ⟨"U", 0, 1, []⟩)]

theorem leads_uncrossed {j : UInt32} (h : Leads ⟨[], ∅⟩ uncrossed i j) : i = 0 ∧ j = 1 := by
  obtain ⟨d, owner, ⟨row, hget, c, hc, hreach⟩, hrow⟩ := h
  simp only [uncrossed, FinMap.ofList, List.foldl_cons, List.foldl_nil, FinMap.get?_insert] at hget
  split at hget
  · cases hget
    simp at hc
  · split at hget
    · cases hget
      have hstops : ∀ e, ¬Wants ⟨[], ∅⟩ uncrossed c e := by
        rintro e ⟨q, hq, he⟩
        have hrefused : ∃ x, q = .refused x := by
          simp only [List.mem_cons, List.not_mem_nil, or_false] at hc
          rcases hc with rfl | rfl <;> exact ⟨_, List.mem_singleton.mp hq⟩
        obtain ⟨x, rfl⟩ := hrefused
        cases he
      rcases Relation.ReflTransGen.cases_head hreach with rfl | ⟨e, he, -⟩
      · refine ⟨‹_›, ?_⟩
        simp only [List.mem_cons, List.not_mem_nil, or_false] at hc
        rcases hc with rfl | rfl
        · cases hrow
          rfl
        · cases hrow
      · exact absurd he (hstops e)
    · cases hget

/-- The second parameter cannot be resolved, but it can after the first one has failed: it is left
behind. The third can be resolved anyway. Without the constraint that leads back, the history does
not show. -/
theorem resolution_history_iff_crossed :
    Later ⟨[], ∅⟩ crossed {} crossedResolver ∧
      verdict (outcome (resolve ⟨[], ∅⟩ crossed ⟨.var, 1, false⟩) ⟨{}, ⟨"A", ∅⟩⟩).1 =
        some (.noDefinition 9) ∧
      verdict (outcome (resolve ⟨[], ∅⟩ crossed ⟨.var, 1, false⟩) ⟨crossedResolver, ⟨"A", ∅⟩⟩).1 =
        none ∧
      verdict (outcome (resolve ⟨[], ∅⟩ crossed ⟨.var, 2, false⟩) ⟨crossedResolver, ⟨"A", ∅⟩⟩).1 =
        none ∧
      ¬Clean ⟨[], ∅⟩ crossed ∧ Independent ⟨[], ∅⟩ uncrossed := by
  have hfresh : verdict (outcome (resolve ⟨[], ∅⟩ crossed ⟨.var, 1, false⟩) ⟨{}, ⟨"A", ∅⟩⟩).1 =
      some (.noDefinition 9) := by
    decide +kernel
  have hafter : verdict (outcome (resolve ⟨[], ∅⟩ crossed ⟨.var, 1, false⟩)
      ⟨crossedResolver, ⟨"A", ∅⟩⟩).1 = none := by
    decide +kernel
  have hfails : (outcome ((Request.parameter ⟨.var, 0, false⟩).perform ⟨[], ∅⟩ crossed)
      ⟨{}, ⟨"A", ∅⟩⟩).1 = .error (.noDefinition 9) := by
    decide +kernel
  have hlater : Later ⟨[], ∅⟩ crossed {} crossedResolver :=
    .single ⟨.parameter ⟨.var, 0, false⟩, ⟨"A", ∅⟩, by rw [Ends, hfails]; simp, rfl⟩
  obtain ⟨hkeeps, hiff, -⟩ := resolution_history_iff ⟨[], ∅⟩ crossed
  refine ⟨hlater, hfresh, hafter, hkeeps _ hlater _ ⟨"A", ∅⟩ _ (by decide +kernel),
    fun hclean => ?_, (resolution_history_iff ⟨[], ∅⟩ uncrossed).2.2 fun i _ hcycle => ?_⟩
  · have hsame := hiff.mpr hclean _ hlater ⟨.var, 1, false⟩ ⟨"A", ∅⟩ ⟨"A", ∅⟩
    rw [hfresh, hafter] at hsame
    cases hsame
  · obtain ⟨j, hfirst, -⟩ := Relation.TransGen.head'_iff.mp hcycle
    obtain ⟨k, -, hlast⟩ := Relation.TransGen.tail'_iff.mp hcycle
    have hi : (0 : UInt32) = 1 := (leads_uncrossed hfirst).1.symm.trans (leads_uncrossed hlast).2
    cases hi

end Resolve

end MethodLift
