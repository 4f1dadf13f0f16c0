import Mathlib.Data.List.Forall2
import MethodLift.Proofs.Requests

/-!
# Generic parameters keep their identity

While a resolution is under way, the cache holds parameters whose constraints are not set yet: those
of the rows that are being populated. All others are finished, with one constraint for each
descriptor of their row (`Orderly`). A resolution leaves no row unfinished that it began with, also
if it fails in the middle of other rows (`orderly_within`), so between requests all parameters in
the cache are finished. As they stay in the cache, a row is answered with the same parameter from
the first success on (`parameter_identity`).
-/

namespace MethodLift

/-- The parameter is made for the row. -/
structure GenericParameter.MadeFor (p : GenericParameter) (row : GenericRow) : Prop where
  name : p.name = row.name
  flags : p.flags = row.flags
  index : p.index = row.index

namespace Resolve

/-! ## What descriptors denote -/

mutual

/-- The signature is one that the descriptor can stand for: the records on the way are there, and
each row is represented by a parameter that was made for it. -/
inductive Denotes (table : TypeTable) (metadata : Metadata) : Descriptor → Signature → Prop
  | parameter {d : Descriptor} {owner : GenericOwner} {i : UInt32} {row : GenericRow}
      {p : GenericParameter} (hrow : d.row? = some (owner, i))
      (hget : metadata.parameters.get? i = some row) (hp : p.MadeFor row) :
      Denotes table metadata d (.parameter p)
  | follow {d : Descriptor} {as : List Signature}
      (h : Answers table metadata (recipe table metadata d).demands as) :
      Denotes table metadata d ((recipe table metadata d).make as)

/-- The signatures are answers to the demands, in order. -/
inductive Answers (table : TypeTable) (metadata : Metadata) : List Demand → List Signature → Prop
  | nil : Answers table metadata [] []
  | given {a : Signature} {qs : List Demand} {as : List Signature}
      (h : Answers table metadata qs as) : Answers table metadata (.given a :: qs) (a :: as)
  | type {e : Descriptor} {a : Signature} {qs : List Demand} {as : List Signature}
      (he : Denotes table metadata e a) (h : Answers table metadata qs as) :
      Answers table metadata (.type e :: qs) (a :: as)
  | base {e : Descriptor} {a : Signature} {x : TypeDefinition} {qs : List Demand}
      {as : List Signature} (he : Denotes table metadata e a) (hx : a.root? = some x)
      (h : Answers table metadata qs as) :
      Answers table metadata (.base e :: qs) (.definition x :: as)

end

variable {table : TypeTable} {metadata : Metadata} {below : Descriptor → ResolveM Signature}
  {d : Descriptor} {s t : ResolveState} {qs : List Demand} {as : List Signature} {a : Signature}
  {p : GenericParameter} {row : GenericRow} {r r' : Resolver} {i : UInt32} {n : Nat}
  {under : Set UInt32}

theorem forall₂_denotes {ds : List Descriptor} (h : Answers table metadata (ds.map .type) as) :
    List.Forall₂ (Denotes table metadata) ds as := by
  induction ds generalizing as with
  | nil =>
    cases h
    exact .nil
  | cons d ds ih =>
    cases h with
    | type he h => exact .cons he (ih h)

/-! ## The order of the cache -/

/-- The constraints of the parameter are set, one for each descriptor of the row, in order. -/
def Finished (table : TypeTable) (metadata : Metadata) (r : Resolver) (p : GenericParameter)
    (row : GenericRow) : Prop :=
  ∃ as, r.constraints.get? p.id = some as ∧
    List.Forall₂ (Denotes table metadata) row.constraints as

/-- Parameters in the cache are made for their rows and finished, but for the rows `under` way. Each
has a serial number of its own. -/
structure Orderly (table : TypeTable) (metadata : Metadata) (under : Set UInt32) (r : Resolver) :
    Prop where
  made : ∀ i p, r.parameters.get? i = some p → ∃ row, metadata.parameters.get? i = some row ∧
    p.MadeFor row ∧ (i ∈ under ∨ Finished table metadata r p row)
  serial : ∀ i p, r.parameters.get? i = some p → ∃ k < r.nextSerial, p.id = .resolved k
  distinct : ∀ i j p q, r.parameters.get? i = some p → r.parameters.get? j = some q →
    p.id = q.id → i = j

theorem orderly_empty : Orderly table metadata under {} :=
  ⟨nofun, nofun, nofun⟩

/-- A new parameter has a new serial number, and is under way. -/
theorem Orderly.addParameter {owner : GenericOwner} (h : Orderly table metadata under s.resolver)
    (hget : metadata.parameters.get? i = some row) :
    Orderly table metadata (insert i under)
      (s.addParameter i (s.nextParameter owner row)).resolver := by
  have hcases : ∀ j p, (s.addParameter i (s.nextParameter owner row)).resolver.parameters.get? j =
      some p → j = i ∧ p = s.nextParameter owner row ∨
        j ≠ i ∧ s.resolver.parameters.get? j = some p := by
    intro j p hp
    simp only [ResolveState.addParameter, FinMap.get?_insert] at hp
    split at hp
    · exact .inl ⟨‹_›, (Option.some.inj hp).symm⟩
    · exact .inr ⟨‹_›, hp⟩
  have hfresh : ∀ j q, s.resolver.parameters.get? j = some q →
      q.id ≠ (s.nextParameter owner row).id := by
    intro j q hq heq
    obtain ⟨k, hk, hid⟩ := h.serial j q hq
    rw [hid] at heq
    exact absurd (ParameterId.resolved.inj heq) (Nat.ne_of_lt hk)
  refine ⟨fun j p hp => ?_, fun j p hp => ?_, fun j k p q hp hq hid => ?_⟩
  · rcases hcases j p hp with ⟨rfl, rfl⟩ | ⟨-, hp⟩
    · exact ⟨row, hget, ⟨rfl, rfl, rfl⟩, .inl (Set.mem_insert _ _)⟩
    · obtain ⟨row', hget', hmade, hfinished⟩ := h.made j p hp
      exact ⟨row', hget', hmade, hfinished.imp_left (Set.mem_insert_of_mem _)⟩
  · rcases hcases j p hp with ⟨-, rfl⟩ | ⟨-, hp⟩
    · exact ⟨_, Nat.lt_succ_self _, rfl⟩
    · obtain ⟨k, hk, hid⟩ := h.serial j p hp
      exact ⟨k, Nat.lt_succ_of_lt hk, hid⟩
  · rcases hcases j p hp with ⟨hj, rfl⟩ | ⟨-, hp'⟩ <;>
      rcases hcases k q hq with ⟨hk, rfl⟩ | ⟨-, hq'⟩
    · rw [hj, hk]
    · exact absurd hid.symm (hfresh k q hq')
    · exact absurd hid (hfresh j p hp')
    · exact h.distinct j k p q hp' hq' hid

/-- Once its constraints are set, a parameter is finished, and no other is touched. -/
theorem Orderly.setConstraints (h : Orderly table metadata (insert i under) t.resolver)
    (hp : t.resolver.parameters.get? i = some p) (hget : metadata.parameters.get? i = some row)
    (has : List.Forall₂ (Denotes table metadata) row.constraints as) :
    Orderly table metadata under (t.setConstraints p as).resolver := by
  refine ⟨fun j q hq => ?_, h.serial, h.distinct⟩
  have hconstraints : ∀ id, (t.setConstraints p as).resolver.constraints.get? id =
      if id = p.id then some as else t.resolver.constraints.get? id :=
    fun id => FinMap.get?_insert ..
  obtain ⟨row', hget', hmade, hfinished⟩ := h.made j q hq
  refine ⟨row', hget', hmade, ?_⟩
  by_cases hji : j = i
  · subst j
    have hqp : q = p := Option.some.inj (Eq.trans (Eq.symm hq) hp)
    rw [hget] at hget'
    cases hget'
    exact .inr ⟨as, by rw [hconstraints, if_pos (by rw [hqp])], has⟩
  · rcases hfinished with hunder | ⟨bs, hbs, hdenotes⟩
    · exact .inl (hunder.resolve_left hji)
    · have hid : q.id ≠ p.id := fun hid => hji (h.distinct j i q p hq hp hid)
      exact .inr ⟨bs, by rw [hconstraints, if_neg hid, hbs], hdenotes⟩

theorem Orderly.forget (h : Orderly table metadata (insert i under) t.resolver) :
    Orderly table metadata under (t.forget i).resolver := by
  have hcases : ∀ j p, (t.forget i).resolver.parameters.get? j = some p →
      j ≠ i ∧ t.resolver.parameters.get? j = some p := by
    intro j p hp
    simp only [ResolveState.forget, FinMap.get?_erase] at hp
    split at hp
    · cases hp
    · exact ⟨‹_›, hp⟩
  refine ⟨fun j p hp => ?_, fun j p hp => h.serial j p (hcases j p hp).2,
    fun j k p q hp hq => h.distinct j k p q (hcases j p hp).2 (hcases k q hq).2⟩
  obtain ⟨hji, hp⟩ := hcases j p hp
  obtain ⟨row, hget, hmade, hfinished⟩ := h.made j p hp
  exact ⟨row, hget, hmade, hfinished.imp_left fun hunder => hunder.resolve_left hji⟩

/-! ## What a resolution does to the order -/

/-- The result leaves the cache in order, and what it answers is denoted. -/
structure Proper (table : TypeTable) (metadata : Metadata) (under : Set UInt32) {α : Type}
    (denoted : α → Prop) (r : Except ResolveError α × ResolveState) : Prop where
  orderly : Orderly table metadata under r.2.resolver
  denoted : ∀ a, r.1 = .ok a → denoted a

theorem proper_answer {q : Demand}
    (hbelow : ∀ e s, Orderly table metadata under s.resolver →
      Proper table metadata under (Denotes table metadata e) (outcome (below e) s))
    (hs : Orderly table metadata under s.resolver) :
    Proper table metadata under
      (fun a => ∀ qs as, Answers table metadata qs as → Answers table metadata (q :: qs) (a :: as))
      (outcome (answer below q) s) := by
  cases q with
  | refused e => exact ⟨hs, fun a ha => nomatch ha⟩
  | given b =>
    refine ⟨hs, fun a ha qs as h => ?_⟩
    cases ha
    exact .given h
  | type e =>
    obtain ⟨horderly, hdenoted⟩ := hbelow e s hs
    exact ⟨horderly, fun a ha qs as h => .type (hdenoted a ha) h⟩
  | base e =>
    obtain ⟨horderly, hdenoted⟩ := hbelow e s hs
    rw [outcome_answer_base]
    rcases hout : outcome (below e) s with ⟨_ | b, t⟩ <;> rw [hout] at horderly hdenoted
    · exact ⟨horderly, fun a ha => nomatch ha⟩
    · simp only
      cases hb : b.root? with
      | none => exact ⟨horderly, fun a ha => nomatch ha⟩
      | some x =>
        refine ⟨horderly, fun a ha qs as h => ?_⟩
        cases ha
        exact .base (hdenoted b rfl) hb h

theorem proper_answerAll
    (hbelow : ∀ e s, Orderly table metadata under s.resolver →
      Proper table metadata under (Denotes table metadata e) (outcome (below e) s))
    (hs : Orderly table metadata under s.resolver) :
    Proper table metadata under (Answers table metadata qs) (answerAll below qs s) := by
  induction qs generalizing s with
  | nil =>
    refine ⟨hs, fun as has => ?_⟩
    cases has
    exact .nil
  | cons q qs ih =>
    obtain ⟨horderly, hdenoted⟩ := proper_answer (q := q) hbelow hs
    rcases hout : outcome (answer below q) s with ⟨_ | a, u⟩ <;> rw [hout] at horderly hdenoted
    · rw [answerAll_cons_of_error hout]
      exact ⟨horderly, fun as has => nomatch has⟩
    · obtain ⟨horderly', hdenoted'⟩ := ih horderly
      rw [answerAll_cons_of_ok hout]
      refine ⟨horderly', fun as has => ?_⟩
      rcases hqs : (answerAll below qs u).1 with _ | bs
      · rw [hqs] at has
        cases has
      · rw [hqs] at has
        cases has
        exact hdenoted a rfl qs bs (hdenoted' bs hqs)

theorem Proper.follow {r : Except ResolveError (List Signature) × ResolveState}
    (h : Proper table metadata under
      (Answers table metadata (recipe table metadata d).demands) r) :
    Proper table metadata under (Denotes table metadata d)
      ((Opening.follow (recipe table metadata d)).close r) := by
  obtain ⟨_ | as, t⟩ := r
  · exact ⟨h.orderly, fun a ha => nomatch ha⟩
  · refine ⟨?_, fun a ha => ?_⟩
    · simpa [Opening.close, Opening.settle] using h.orderly
    · cases ha
      exact .follow (h.denoted as rfl)

/-- With its constraints answered the row is finished, otherwise it is forgotten. -/
theorem Proper.populate {owner : GenericOwner}
    {r : Except ResolveError (List Signature) × ResolveState}
    (h : Proper table metadata (insert i under)
      (Answers table metadata (row.constraints.map .type)) r)
    (hrow : d.row? = some (owner, i)) (hget : metadata.parameters.get? i = some row)
    (hp : r.2.resolver.parameters.get? i = some (s.nextParameter owner row)) :
    Proper table metadata under (Denotes table metadata d)
      ((Opening.populate i row (s.nextParameter owner row)).close r) := by
  obtain ⟨_ | as, t⟩ := r
  · exact ⟨h.orderly.forget, fun a ha => nomatch ha⟩
  · refine ⟨h.orderly.setConstraints hp hget (forall₂_denotes (h.denoted as rfl)), fun a ha => ?_⟩
    cases ha
    exact .parameter hrow hget ⟨rfl, rfl, rfl⟩

/-- A resolution finishes the rows that it populates, or forgets them. -/
theorem orderly_within (hs : Orderly table metadata under s.resolver) :
    Proper table metadata under (Denotes table metadata d)
      (outcome (resolveWithin table metadata n d) s) := by
  induction n generalizing d s under with
  | zero => exact ⟨hs, fun a ha => nomatch ha⟩
  | succ n ih =>
    rw [outcome_within_succ]
    have ho := opens table metadata d s
    generalize opening table metadata d s = o at ho
    cases ho with
    | follow =>
      have hall : Proper table metadata under
          (Answers table metadata (recipe table metadata d).demands)
          (answerAll (resolveWithin table metadata n) (recipe table metadata d).demands s) :=
        proper_answerAll (fun _ _ => ih) hs
      exact hall.follow
    | known hrow hp =>
      refine ⟨hs, fun a ha => ?_⟩
      cases ha
      obtain ⟨row, hget, hmade, -⟩ := hs.made _ _ hp
      exact .parameter hrow hget hmade
    | @populate owner i row hrow hnew hget =>
      have hkeeps : (s.addParameter i (s.nextParameter owner row)).resolver.Keeps
          (answerAll (resolveWithin table metadata n) (row.constraints.map .type)
            (s.addParameter i (s.nextParameter owner row))).2.resolver :=
        keeps_answerAll fun _ _ => keeps_within
      have hall : Proper table metadata (insert i under)
          (Answers table metadata (row.constraints.map .type))
          (answerAll (resolveWithin table metadata n) (row.constraints.map .type)
            (s.addParameter i (s.nextParameter owner row))) :=
        proper_answerAll (fun _ _ => ih) (hs.addParameter hget)
      refine hall.populate hrow hget (hkeeps.parameters i _ ?_)
      simp [ResolveState.addParameter, FinMap.get?_insert]

/-! ## Identity -/

theorem orderly_perform {request : Request} (hs : Orderly table metadata under s.resolver) :
    Orderly table metadata under (outcome (request.perform table metadata) s).2.resolver := by
  rcases perform_cases table metadata request with ⟨n, -, h⟩ | ⟨-, h⟩ <;> rw [h]
  · exact (orderly_within hs).orderly
  · exact hs

/-- A success puts the parameter of the row into the cache. -/
theorem cached_of_ok {owner : GenericOwner} (hrow : d.row? = some (owner, i))
    (h : outcome (resolveWithin table metadata n d) s = (.ok a, t)) :
    ∃ p, a = .parameter p ∧ t.resolver.parameters.get? i = some p := by
  cases n with
  | zero => cases h
  | succ n =>
    rw [outcome_within_succ] at h
    have ho := opens table metadata d s
    generalize opening table metadata d s = o at h ho
    rcases hall : answerAll (resolveWithin table metadata n) o.demands (o.enter s) with
      ⟨_ | as, u⟩ <;> rw [hall] at h
    · cases h
    · cases h
      cases ho with
      | follow =>
        rw [Opening.demands, recipe_of_row? hrow] at hall
        cases hall
      | known hrow' hp =>
        rw [hrow] at hrow'
        cases hrow'
        cases hall
        exact ⟨_, rfl, hp⟩
      | populate hrow' _ _ =>
        rw [hrow] at hrow'
        cases hrow'
        refine ⟨_, rfl, (keeps_of_answerAll hall).parameters i _ ?_⟩
        simp [Opening.enter, ResolveState.addParameter, FinMap.get?_insert]

theorem cached_of_perform {request : Request} (hrow : request.row? = some i)
    (h : outcome (request.perform table metadata) s = (.ok a, t)) :
    ∃ p, a = .parameter p ∧ t.resolver.parameters.get? i = some p := by
  obtain ⟨⟨owner, _⟩, hd, rfl⟩ := Option.map_eq_some_iff.mp hrow
  rcases perform_cases table metadata request with ⟨n, -, hn⟩ | ⟨hnone, -⟩
  · exact cached_of_ok hd (hn s ▸ h)
  · rw [hrow] at hnone
    cases hnone

theorem Later.orderly (h : Later table metadata {} r) : Orderly table metadata ∅ r := by
  induction h with
  | refl => exact orderly_empty
  | @tail r _ _ hnext ih =>
    obtain ⟨request, references, -, rfl⟩ := hnext
    exact orderly_perform (s := ⟨r, references⟩) ih

/-- After any requests to a new resolver: a request that names a row and succeeds returns a
parameter made for the row, with its constraints set, one for each descriptor of the row. Whatever
is requested later, the constraints stay as they are, and every request that names the row is
answered with the same parameter. -/
theorem parameter_identity (hr : Later table metadata {} r) {request : Request}
    (hrow : request.row? = some i) {references : References}
    (h : outcome (request.perform table metadata) ⟨r, references⟩ = (.ok a, t)) :
    ∃ p row as, a = .parameter p ∧ metadata.parameters.get? i = some row ∧ p.MadeFor row ∧
      t.resolver.constraints.get? p.id = some as ∧
      List.Forall₂ (Denotes table metadata) row.constraints as ∧
      ∀ r', Later table metadata t.resolver r' →
        r'.constraints.get? p.id = some as ∧
        ∀ (request' : Request) (references' : References), request'.row? = some i →
          (outcome (request'.perform table metadata) ⟨r', references'⟩).1 = .ok (.parameter p) := by
  have horderly : Orderly table metadata ∅ t.resolver := by
    have hperform : Orderly table metadata ∅
        (outcome (request.perform table metadata) ⟨r, references⟩).2.resolver :=
      orderly_perform hr.orderly
    rwa [h] at hperform
  obtain ⟨p, rfl, hp⟩ := cached_of_perform hrow h
  obtain ⟨row, hget, hmade, hfinished⟩ := horderly.made i p hp
  obtain ⟨as, has, hdenotes⟩ := hfinished.resolve_left (Set.notMem_empty i)
  refine ⟨p, row, as, rfl, hget, hmade, has, hdenotes, fun r' hlater => ?_⟩
  obtain ⟨k, hk, hid⟩ := horderly.serial i p hp
  refine ⟨?_, fun request' references' hrow' => ?_⟩
  · rw [hlater.keeps.constraints p.id fun k' hk' => ?_, has]
    rw [hid] at hk'
    exact ParameterId.resolved.inj hk' ▸ hk
  · exact perform_of_cached hrow' (hlater.keeps.parameters i p hp)

/-- The first parameter fails at its second constraint, for which there is no definition. The second
one is its first constraint, and is constrained by a pointer to itself. -/
def interrupted : Metadata where
  version := 27
  types := .ofList [(0x10, ⟨.var, 1, false⟩)]
  parameters := .ofList
    [(0, ⟨"T", 0, 0, [⟨.var, 1, false⟩, ⟨.classType, 9, false⟩]⟩),
      (1, ⟨"U", 0, 1, [⟨.ptr, 0x10, false⟩]⟩)]

/-- What a resolver is after it failed to give the first parameter. -/
def interruptedResolver : Resolver :=
  (outcome ((Request.parameter ⟨.var, 0, false⟩).perform ⟨[], ∅⟩ interrupted)
    ⟨{}, ⟨"A", ∅⟩⟩).2.resolver

/-- The second parameter is finished within a resolution that fails, and stays. -/
theorem parameter_identity_interrupted :
    (outcome ((Request.parameter ⟨.var, 0, false⟩).perform ⟨[], ∅⟩ interrupted)
      ⟨{}, ⟨"A", ∅⟩⟩).1 = .error (.noDefinition 9) ∧
    Later ⟨[], ∅⟩ interrupted {} interruptedResolver ∧
    ∃ p, (outcome ((Request.type ⟨.var, 1, false⟩).perform ⟨[], ∅⟩ interrupted)
        ⟨interruptedResolver, ⟨"A", ∅⟩⟩).1 = .ok (.parameter p) ∧
      ∀ r', Later ⟨[], ∅⟩ interrupted interruptedResolver r' →
        r'.constraints.get? p.id = some [.pointer (.parameter p)] ∧
        ∀ (request : Request) (references : References), request.row? = some 1 →
          (outcome (request.perform ⟨[], ∅⟩ interrupted) ⟨r', references⟩).1 =
            .ok (.parameter p) := by
  have hfails : (outcome ((Request.parameter ⟨.var, 0, false⟩).perform ⟨[], ∅⟩ interrupted)
      ⟨{}, ⟨"A", ∅⟩⟩).1 = .error (.noDefinition 9) := by
    decide +kernel
  have hlater : Later ⟨[], ∅⟩ interrupted {} interruptedResolver :=
    .single ⟨.parameter ⟨.var, 0, false⟩, ⟨"A", ∅⟩, by rw [Ends, hfails]; simp, rfl⟩
  have hout : outcome ((Request.type ⟨.var, 1, false⟩).perform ⟨[], ∅⟩ interrupted)
      ⟨interruptedResolver, ⟨"A", ∅⟩⟩ =
        (.ok (.parameter ⟨.resolved 1, "U", 0, .type, 1⟩), ⟨interruptedResolver, ⟨"A", ∅⟩⟩) := by
    decide +kernel
  have hset : interruptedResolver.constraints.get? (.resolved 1) =
      some [.pointer (.parameter ⟨.resolved 1, "U", 0, .type, 1⟩)] := by
    decide +kernel
  obtain ⟨p, row, as, hp, -, -, has, -, hall⟩ := parameter_identity hlater (i := 1) (by decide) hout
  cases hp
  refine ⟨hfails, hlater, _, by rw [hout], fun r' hr' => ?_⟩
  rw [show as = _ from Option.some.inj (has.symm.trans hset)] at hall
  exact hall r' hr'

end Resolve

end MethodLift
