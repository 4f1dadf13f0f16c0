import MethodLift.Proofs.GenericEncoding
import MethodLift.Proofs.ResolutionHistory

/-!
# What a failed generic type leaves on record

A resolution records no definition that its descriptor does not mention, whether it succeeds or
fails, and what is on record stays (`adds_within`). A generic type with the index of its definition
records the definition last, so a failure leaves no trace of it. With a pointer to a descriptor of
the definition, it is recorded before the arguments are looked at and stays there whatever becomes
of them (`recorded_of_rootedAt`). `failed_instance_iff` says what there is of the definition after a
failure, in both encodings.
-/

namespace MethodLift

namespace Resolve

/-- The signature of the descriptor, if it has one, is rooted at the definition: the descriptor
names the definition itself, or it is a generic type with that definition. -/
inductive RootedAt (table : TypeTable) (metadata : Metadata) (x : TypeDefinition) :
    Descriptor → Prop
  | itself {d : Descriptor} (h : recipe table metadata d = .known x) : RootedAt table metadata x d
  | index {d : Descriptor} {record : GenericClassRecord} (hkind : d.kind = .genericInst)
      (hrecord : metadata.classes.get? d.data = some record)
      (hm : metadata.pointsToDefinition = false)
      (hx : table.types[record.definition.toNat]? = some x) : RootedAt table metadata x d
  | pointer {d e : Descriptor} {record : GenericClassRecord} (hkind : d.kind = .genericInst)
      (hrecord : metadata.classes.get? d.data = some record)
      (hm : metadata.pointsToDefinition = true)
      (he : metadata.types.get? record.definition = some e) (hx : RootedAt table metadata x e) :
      RootedAt table metadata x d

/-- The definition is named somewhere in the type that the descriptor stands for, at any depth, or
in a constraint of a generic parameter that has to be resolved for it. -/
inductive Mentions (table : TypeTable) (metadata : Metadata) (x : TypeDefinition) :
    Descriptor → Prop
  | root {d : Descriptor} (h : RootedAt table metadata x d) : Mentions table metadata x d
  | part {d e : Descriptor} (h : Wants table metadata d e) (he : Mentions table metadata x e) :
      Mentions table metadata x d
  | constraint {d c : Descriptor} {owner : GenericOwner} {i : UInt32} {row : GenericRow}
      (hrow : d.row? = some (owner, i)) (hget : metadata.parameters.get? i = some row)
      (hc : c ∈ row.constraints) (h : Mentions table metadata x c) : Mentions table metadata x d

/-- An argument of the generic type mentions the definition. Generic parameters that are arguments
themselves are taken by position and mention nothing. -/
def ArgumentMentions (table : TypeTable) (metadata : Metadata) (x : TypeDefinition)
    (d : Descriptor) : Prop :=
  ∃ record pointers p e, metadata.classes.get? d.data = some record ∧
    metadata.arguments.get? record.arguments = some pointers ∧ p ∈ pointers ∧
    metadata.types.get? p = some e ∧ e.kind.isGenericParameter = false ∧
    Mentions table metadata x e

/-- Records stay, and the new ones are of definitions of `X`. -/
def Adds (X : Set TypeDefinition) (r r' : References) : Prop :=
  ∀ name, r'.imported.get? name = r.imported.get? name ∨
    r.imported.get? name = none ∧ ∃ x ∈ X, x.fullName = name ∧ r'.imported.get? name = some x

namespace Adds

variable {X Y : Set TypeDefinition} {r r' r'' : References} {x y : TypeDefinition} {name : String}

theorem refl (X : Set TypeDefinition) (r : References) : Adds X r r := fun _ => .inl rfl

theorem trans (h : Adds X r r') (h' : Adds X r' r'') : Adds X r r'' := by
  intro name
  rcases h name with heq | ⟨hnone, x, hx, hname, hget⟩
  · have hlater := h' name
    rwa [heq] at hlater
  · rcases h' name with heq' | ⟨hnone', -⟩
    · exact .inr ⟨hnone, x, hx, hname, heq'.trans hget⟩
    · rw [hget] at hnone'
      cases hnone'

theorem mono (h : Adds X r r') (hXY : X ⊆ Y) : Adds Y r r' := fun name =>
  (h name).imp_right fun ⟨hnone, x, hx, hrest⟩ => ⟨hnone, x, hXY hx, hrest⟩

theorem importType (hx : x ∈ X) : Adds X r (r.importType x) := by
  intro name
  simp only [References.importType, FinMap.get?_insertNew]
  by_cases hname : name = x.fullName
  · subst name
    cases hget : r.imported.get? x.fullName with
    | some y => exact .inl (by simp)
    | none => exact .inr ⟨rfl, x, hx, rfl, by simp⟩
  · exact .inl (if_neg hname)

/-- What is on record stays. -/
theorem get?_of_some (h : Adds X r r') (hget : r.imported.get? name = some y) :
    r'.imported.get? name = some y := by
  rcases h name with heq | ⟨hnone, -⟩
  · rw [heq, hget]
  · rw [hget] at hnone
    cases hnone

/-- No name comes in that is not that of a definition of `X`. -/
theorem isImported_iff (h : Adds X r r') (hname : ∀ x ∈ X, x.fullName ≠ name) :
    r'.isImported name = true ↔ r.isImported name = true := by
  rcases h name with heq | ⟨-, x, hx, hfull, -⟩
  · simp [References.isImported, FinMap.contains, heq]
  · exact absurd hfull (hname x hx)

/-- No record of a definition comes in that is not one of `X`. -/
theorem get?_iff (h : Adds X r r') (hx : x ∉ X) :
    r'.imported.get? name = some x ↔ r.imported.get? name = some x := by
  rcases h name with heq | ⟨hnone, y, hy, -, hget⟩
  · rw [heq]
  · rw [hnone, hget]
    constructor
    · intro h
      cases h
      exact absurd hy hx
    · intro h
      cases h

end Adds

variable {table : TypeTable} {metadata : Metadata} {below : Descriptor → ResolveM Signature}
  {d e : Descriptor} {s t : ResolveState} {qs : List Demand} {as : List Signature} {a : Signature}
  {x : TypeDefinition} {record : GenericClassRecord} {X : Set TypeDefinition} {o : Opening}
  {n : Nat}

theorem adds_importRoot (h : ∀ x, a.root? = some x → x ∈ X) :
    Adds X s.references (s.importRoot a).references := by
  unfold ResolveState.importRoot
  cases ha : a.root? with
  | none => exact .refl _ _
  | some x => exact .importType (h x ha)

/-! ## Roots -/

theorem opening_of_generic (hkind : d.kind = .genericInst)
    (hrecord : metadata.classes.get? d.data = some record) :
    opening table metadata d s = .follow (.applied (baseDemand table metadata record)
      (argumentDemands metadata record.arguments)) := by
  rw [opening_of_owner? (by rw [hkind]; rfl), recipe_generic hkind hrecord]

/-- The definition of a generic type, as the demand for it is answered. -/
theorem rootedAt_of_baseDemand (hkind : d.kind = .genericInst)
    (hrecord : metadata.classes.get? d.data = some record)
    (ih : ∀ e b, ∀ s t : ResolveState, outcome (below e) s = (.ok b, t) →
      ∀ y, b.root? = some y → RootedAt table metadata y e)
    (h : outcome (answer below (baseDemand table metadata record)) s = (.ok (.definition x), t)) :
    RootedAt table metadata x d := by
  unfold baseDemand at h
  split at h
  · cases he : metadata.types.get? record.definition with
    | none =>
      rw [he] at h
      cases h
    | some e =>
      simp only [he, outcome_answer_base] at h
      rcases hout : outcome (below e) s with ⟨_ | b, u⟩ <;> simp only [hout] at h
      · cases h
      · cases hb : b.root? with
        | none => simp [hb] at h
        | some y =>
          simp only [hb, Prod.mk.injEq, Except.ok.injEq, Signature.definition.injEq] at h
          obtain ⟨rfl, -⟩ := h
          exact .pointer hkind hrecord ‹_› he (ih e b s u hout y hb)
  · cases hx : table.types[record.definition.toNat]? with
    | none =>
      rw [hx] at h
      cases h
    | some y =>
      rw [hx] at h
      cases h
      exact .index hkind hrecord (Bool.eq_false_iff.mpr ‹_›) hx

theorem rootedAt_make
    (ih : ∀ e b, ∀ s t : ResolveState, outcome (below e) s = (.ok b, t) →
      ∀ y, b.root? = some y → RootedAt table metadata y e)
    (h : answerAll below (recipe table metadata d).demands s = (.ok as, t))
    (hx : ((recipe table metadata d).make as).root? = some x) : RootedAt table metadata x d := by
  have hrefused : ∀ e, answerAll below (Recipe.refused e).demands s ≠ (.ok as, t) := by
    intro e he
    cases he
  have hknown : ∀ y, recipe table metadata d = .known y → RootedAt table metadata x d := by
    intro y hy
    rw [hy] at hx
    cases hx
    exact .itself hy
  obtain ⟨kind, data, byRef⟩ := d
  cases kind
  case classType | valueType =>
    cases hget : table.types[data.toNat]? with
    | none =>
      simp only [recipe, TypeKind.primitive?, hget] at h
      exact absurd h (hrefused _)
    | some y => exact hknown y (by simp [recipe, TypeKind.primitive?, hget])
  case array =>
    simp only [recipe, TypeKind.primitive?] at h hx
    cases hr : metadata.arrays.get? data with
    | none => exact absurd (hr ▸ h) (hrefused _)
    | some record =>
      simp only [hr] at hx
      cases hx
  case szArray | ptr => cases hx
  case genericInst =>
    cases hr : metadata.classes.get? data with
    | none =>
      simp only [recipe, TypeKind.primitive?, hr] at h
      exact absurd h (hrefused _)
    | some record =>
      simp only [recipe, TypeKind.primitive?, hr, Recipe.applied] at h hx
      obtain ⟨a, bs, u, rfl, ha, -⟩ := answerAll_cons_eq_ok h
      obtain ⟨y, rfl⟩ := exists_definition_of_baseDemand ha
      cases hx
      exact rootedAt_of_baseDemand rfl hr ih ha
  case var | mvar => exact absurd h (hrefused _)
  all_goals exact hknown _ rfl

/-- The signature of a descriptor is rooted where the metadata say. -/
theorem rootedAt_of_ok (h : outcome (resolveWithin table metadata n d) s = (.ok a, t))
    (hx : a.root? = some x) : RootedAt table metadata x d := by
  induction n generalizing d s a t x with
  | zero => cases h
  | succ n ih =>
    rw [outcome_within_succ] at h
    have ho := opens table metadata d s
    generalize opening table metadata d s = o at h ho
    rcases hall : answerAll (resolveWithin table metadata n) o.demands (o.enter s) with
      ⟨_ | as, u⟩ <;> rw [hall] at h <;> cases h
    cases ho with
    | follow => exact rootedAt_make (fun e b s t hout y hy => ih hout hy) hall hx
    | known => cases hx
    | populate => cases hx

/-! ## What a resolution records -/

theorem adds_answerAll
    (h : ∀ q ∈ qs, ∀ e, q.target? = some e → ∀ s : ResolveState,
      Adds X s.references (outcome (below e) s).2.references) :
    Adds X s.references (answerAll below qs s).2.references :=
  answerAll_invariant (I := fun t => Adds X s.references t.references)
    (fun q hq e he t ht => ht.trans (h q hq e he t)) (.refl _ _)

theorem adds_close_follow {recipe : Recipe}
    {r : Except ResolveError (List Signature) × ResolveState}
    (h : ∀ as, r.1 = .ok as → ∀ x, (recipe.make as).root? = some x → x ∈ X) :
    Adds X r.2.references ((Opening.follow recipe).close r).2.references := by
  obtain ⟨_ | as, t⟩ := r
  · exact .refl _ _
  · exact adds_importRoot (h as rfl)

theorem references_close_populate {i : UInt32} {row : GenericRow} {p : GenericParameter}
    {r : Except ResolveError (List Signature) × ResolveState} :
    ((Opening.populate i row p).close r).2.references = r.2.references := by
  obtain ⟨_ | as, t⟩ := r <;> rfl

/-- A resolution records definitions that its descriptor mentions, and no others. -/
theorem adds_within :
    Adds {x | Mentions table metadata x d} s.references
      (outcome (resolveWithin table metadata n d) s).2.references := by
  induction n generalizing d s with
  | zero => exact .refl _ _
  | succ n ih =>
    rw [outcome_within_succ]
    have ho := opens table metadata d s
    generalize opening table metadata d s = o at ho
    cases ho with
    | follow =>
      refine (adds_answerAll fun q hq e he s => ih.mono fun x hx => ?_).trans
        (adds_close_follow fun as has x hx => ?_)
      · exact .part ⟨q, hq, he⟩ hx
      · exact .root (rootedAt_make (fun e b s t hout y hy => rootedAt_of_ok hout hy)
          (Prod.ext has rfl) hx)
    | known => exact .refl _ _
    | @populate owner i row hrow _ hget =>
      rw [references_close_populate]
      refine adds_answerAll (s := s.addParameter i (s.nextParameter owner row))
        fun q hq e he s => ih.mono fun x hx => ?_
      obtain ⟨c, hc, rfl⟩ := List.mem_map.mp hq
      cases he
      exact .constraint hrow hget hc hx

/-- So do the arguments of a generic type. -/
theorem adds_arguments (hrecord : metadata.classes.get? d.data = some record) :
    Adds {x | ArgumentMentions table metadata x d} s.references
      (answerAll (resolveWithin table metadata n)
        (argumentDemands metadata record.arguments) s).2.references := by
  refine adds_answerAll fun q hq e he s => adds_within.mono fun x hx => ?_
  have haims : q.AimsAt fun e => ∃ pointers p, metadata.arguments.get? record.arguments =
      some pointers ∧ p ∈ pointers ∧ metadata.types.get? p = some e ∧
        e.kind.isGenericParameter = false :=
    aimsAt_argumentDemands
      (fun pointers hpointers p hp e hget hkind => ⟨pointers, p, hpointers, hp, hget, hkind⟩) hq
  obtain ⟨pointers, p, hpointers, hp, hget, hkind⟩ := haims.2 e he
  exact ⟨record, pointers, p, e, hrecord, hpointers, hp, hget, hkind, hx⟩

/-! ## Definitions behind a pointer -/

/-- The definition is on record in the second state, unless another one of its name was there. -/
def Recorded (x : TypeDefinition) (s t : ResolveState) : Prop :=
  t.references.imported.get? x.fullName =
    some ((s.references.imported.get? x.fullName).getD x)

theorem recorded_importRoot (ha : a.root? = some x) : Recorded x s (s.importRoot a) := by
  simp [Recorded, ResolveState.importRoot, ha, References.importType, FinMap.get?_insertNew]

theorem Recorded.adds {u : ResolveState} (h : Recorded x s t)
    (hadds : Adds X t.references u.references) : Recorded x s u :=
  hadds.get?_of_some h

/-- The answer to a demand for a definition leaves the state in which its target was resolved. -/
theorem state_answer_base :
    (outcome (answer below (.base d)) s).2 = (outcome (below d) s).2 := by
  rw [outcome_answer_base]
  rcases outcome (below d) s with ⟨_ | a, t⟩
  · rfl
  · simp only
    cases a.root? <;> rfl

/-- What is on record once the definition of a generic type is resolved stays there. -/
theorem Recorded.answerAll
    (h : Recorded x s (outcome (resolveWithin table metadata n e) s).2) :
    Recorded x s (Resolve.answerAll (resolveWithin table metadata n) (.base e :: qs) s).2 := by
  rw [← state_answer_base] at h
  rcases hout : outcome (answer (resolveWithin table metadata n) (.base e)) s with ⟨_ | a, u⟩ <;>
    rw [hout] at h
  · rwa [answerAll_cons_of_error hout]
  · rw [answerAll_cons_of_ok hout]
    exact h.adds (adds_answerAll (X := Set.univ) fun _ _ _ _ _ => adds_within.mono (by simp))

/-- Behind pointers, the definition that a descriptor is rooted at is recorded before anything else
is looked at, and it stays on record if something else fails. -/
theorem recorded_of_rootedAt (hm : metadata.pointsToDefinition = true)
    (h : RootedAt table metadata x d) :
    ∃ k, ∀ n, k ≤ n → ∀ s, Recorded x s (outcome (resolveWithin table metadata n d) s).2 := by
  induction h with
  | @itself d hrecipe =>
    refine ⟨1, fun n hn s => ?_⟩
    obtain ⟨n, rfl⟩ : ∃ k, n = k + 1 := ⟨n - 1, by omega⟩
    have hopening : opening table metadata d s = .follow (recipe table metadata d) :=
      opening_of_granted (by simp [hrecipe, Recipe.known])
    rw [outcome_within_succ, hopening, hrecipe]
    exact recorded_importRoot (a := .definition x) rfl
  | index _ _ hm' =>
    rw [hm] at hm'
    cases hm'
  | @pointer d e record hkind hrecord _ he _ ih =>
    obtain ⟨k, hk⟩ := ih
    refine ⟨k + 1, fun n hn s => ?_⟩
    obtain ⟨n, rfl⟩ : ∃ j, n = j + 1 := ⟨n - 1, by omega⟩
    have hdemand : baseDemand table metadata record = .base e := by simp [baseDemand, hm, he]
    rw [outcome_within_succ, opening_of_generic hkind hrecord, hdemand]
    exact ((hk n (by omega) s).answerAll).adds
      (adds_close_follow (X := Set.univ) fun _ _ _ _ => trivial)

theorem recipe_ne_known (hkind : d.kind = .genericInst) : recipe table metadata d ≠ .known x := by
  intro h
  cases hrecord : metadata.classes.get? d.data with
  | none =>
    rw [recipe_generic_missing hkind hrecord] at h
    cases congrArg Recipe.demands h
  | some record =>
    rw [recipe_generic hkind hrecord] at h
    cases congrArg Recipe.demands h

/-- With the index of the definition, a failed generic type has recorded what its arguments mention,
at most. -/
theorem adds_of_failed {err : ResolveError} (hkind : d.kind = .genericInst)
    (hm : metadata.pointsToDefinition = false) (hx : RootedAt table metadata x d)
    (hfails : (outcome (resolveWithin table metadata (n + 1) d) s).1 = .error err) :
    Adds {y | ArgumentMentions table metadata y d} s.references
      (outcome (resolveWithin table metadata (n + 1) d) s).2.references := by
  cases hx with
  | itself hrecipe => exact absurd hrecipe (recipe_ne_known hkind)
  | pointer _ _ hm' =>
    rw [hm] at hm'
    cases hm'
  | @index _ record _ hrecord _ hx =>
    have hdemand : baseDemand table metadata record = .given (.definition x) := by
      simp [baseDemand, hm, hx]
    have hgiven : outcome (answer (resolveWithin table metadata n) (.given (.definition x))) s =
        (.ok (.definition x), s) := rfl
    have hadds : Adds {y | ArgumentMentions table metadata y d} s.references
        (answerAll (resolveWithin table metadata n)
          (argumentDemands metadata record.arguments) s).2.references :=
      adds_arguments hrecord
    rw [outcome_within_succ, opening_of_generic hkind hrecord, hdemand] at hfails ⊢
    simp only [Opening.demands, Recipe.demands_applied, Opening.enter,
      answerAll_cons_of_ok hgiven] at hfails ⊢
    rcases hout : answerAll (resolveWithin table metadata n)
      (argumentDemands metadata record.arguments) s with ⟨_ | as, u⟩ <;> rw [hout] at hfails hadds
    · exact hadds
    · cases hfails

/-- What a failed generic type leaves of its definition. If its arguments mention no definition of
that name, the name is on record afterwards exactly if it was before or the definition is behind a
pointer. If they do not mention the definition itself, it is on record exactly if it was before, or
the definition is behind a pointer and there was no other of its name. -/
theorem failed_instance_iff (table : TypeTable) {err : ResolveError} (hkind : d.kind = .genericInst)
    (hx : RootedAt table metadata x d)
    (hfails : (outcome (resolve table metadata d) s).1 = .error err) (hends : err ≠ .endless) :
    ((∀ y, ArgumentMentions table metadata y d → y.fullName ≠ x.fullName) →
      ((outcome (resolve table metadata d) s).2.references.isImported x.fullName = true ↔
        s.references.isImported x.fullName = true ∨ metadata.pointsToDefinition = true)) ∧
    (¬ArgumentMentions table metadata x d →
      ((outcome (resolve table metadata d) s).2.references.imported.get? x.fullName = some x ↔
        s.references.imported.get? x.fullName = some x ∨
          metadata.pointsToDefinition = true ∧ s.references.imported.get? x.fullName = none)) := by
  cases hm : metadata.pointsToDefinition with
  | false =>
    have hadds : Adds {y | ArgumentMentions table metadata y d} s.references
        (outcome (resolve table metadata d) s).2.references :=
      adds_of_failed hkind hm hx hfails
    refine ⟨fun hnames => ?_, fun hmentions => ?_⟩
    · simpa using hadds.isImported_iff hnames
    · simpa using hadds.get?_iff hmentions
  | true =>
    obtain ⟨k, hk⟩ := recorded_of_rootedAt hm hx
    have hended : Ends (outcome (resolve table metadata d) s) := by
      rw [Ends, hfails]
      simpa using hends
    have hrecorded : Recorded x s (outcome (resolve table metadata d) s).2 := by
      have hlater := hk (max k metadata.depth) (Nat.le_max_left _ _) s
      rwa [refines_within (Nat.le_max_right _ _) d s hended] at hlater
    unfold Recorded at hrecorded
    refine ⟨fun _ => ?_, fun _ => ?_⟩
    · simp [References.isImported, FinMap.contains, hrecorded]
    · cases hget : s.references.imported.get? x.fullName <;> simp [hrecorded, hget]

/-- A built-in type mentions itself only. -/
theorem eq_of_mentions_primitive {kind : Primitive} (hkind : d.kind.primitive? = some kind)
    (h : Mentions table metadata x d) : x = table.primitive kind := by
  have hrecipe : recipe table metadata d = .known (table.primitive kind) := by simp [recipe, hkind]
  have hgeneric : d.kind ≠ .genericInst := by
    intro h
    rw [h] at hkind
    cases hkind
  cases h with
  | root h =>
    cases h with
    | itself h =>
      have hmake := congrArg (Recipe.make · []) (hrecipe.symm.trans h)
      simpa [Recipe.known] using hmake.symm
    | index h => exact absurd h hgeneric
    | pointer h => exact absurd h hgeneric
  | part h =>
    obtain ⟨q, hq, -⟩ := h
    simp [hrecipe, Recipe.known] at hq
  | constraint hrow =>
    rw [recipe_of_row? hrow] at hrecipe
    cases congrArg Recipe.demands hrecipe

theorem eq_of_argumentMentions (kind : Primitive) {pointers : List UInt64}
    (hrecord : metadata.classes.get? d.data = some record)
    (hpointers : metadata.arguments.get? record.arguments = some pointers)
    (hkind : ∀ p ∈ pointers, ∀ e ∈ metadata.types.get? p, e.kind.primitive? = some kind)
    (h : ArgumentMentions table metadata x d) : x = table.primitive kind := by
  obtain ⟨record', pointers', p, e, hrecord', hpointers', hp, he, -, hx⟩ := h
  rw [hrecord] at hrecord'
  cases hrecord'
  rw [hpointers] at hpointers'
  cases hpointers'
  exact eq_of_mentions_primitive (hkind p hp e he) hx

def listType : TypeDefinition :=
  .topLevel ⟨.listed 0, "System.Collections.Generic", "List`1", false, ["T"]⟩

def listTable : TypeTable := ⟨[listType], ∅⟩

/-- A generic type with the index of its definition. There is no descriptor where its second
argument points to. -/
def unfinished : Metadata where
  version := 24
  types := .ofList [(0x10, ⟨.i4, 0, false⟩)]
  classes := .ofList [(0x300, ⟨0, 0x400⟩)]
  arguments := .ofList [(0x400, [0x10, 0xDEAD])]

/-- The same with a pointer to the definition. -/
def unfinishedPointed : Metadata where
  version := 27
  types := .ofList [(0x10, ⟨.i4, 0, false⟩), (0x500, ⟨.classType, 0, false⟩)]
  classes := .ofList [(0x300, ⟨0x500, 0x400⟩)]
  arguments := .ofList [(0x400, [0x10, 0xDEAD])]

/-- The same error, but only behind a pointer it leaves the definition on record, which no argument
mentions. -/
theorem failed_instance_iff_unfinished :
    RootedAt listTable unfinished listType ⟨.genericInst, 0x300, false⟩ ∧
      RootedAt listTable unfinishedPointed listType ⟨.genericInst, 0x300, false⟩ ∧
      (∀ y, ArgumentMentions listTable unfinished y ⟨.genericInst, 0x300, false⟩ →
        y.fullName ≠ listType.fullName) ∧
      (∀ y, ArgumentMentions listTable unfinishedPointed y ⟨.genericInst, 0x300, false⟩ →
        y.fullName ≠ listType.fullName) ∧
      (outcome (resolve listTable unfinished ⟨.genericInst, 0x300, false⟩) ⟨{}, ⟨"A", ∅⟩⟩).1 =
        .error (.missingArgument 0xDEAD) ∧
      (outcome (resolve listTable unfinishedPointed ⟨.genericInst, 0x300, false⟩)
        ⟨{}, ⟨"A", ∅⟩⟩).1 = .error (.missingArgument 0xDEAD) ∧
      (outcome (resolve listTable unfinished ⟨.genericInst, 0x300, false⟩)
        ⟨{}, ⟨"A", ∅⟩⟩).2.references.isImported listType.fullName = false ∧
      (outcome (resolve listTable unfinishedPointed ⟨.genericInst, 0x300, false⟩)
        ⟨{}, ⟨"A", ∅⟩⟩).2.references.isImported listType.fullName = true := by
  have hindex : RootedAt listTable unfinished listType ⟨.genericInst, 0x300, false⟩ :=
    .index rfl rfl (by decide) rfl
  have hpointer : RootedAt listTable unfinishedPointed listType ⟨.genericInst, 0x300, false⟩ :=
    .pointer rfl rfl (by decide) rfl (.itself rfl)
  have hnames : ∀ y, ArgumentMentions listTable unfinished y ⟨.genericInst, 0x300, false⟩ →
      y.fullName ≠ listType.fullName := by
    intro y hy
    rw [eq_of_argumentMentions .int32 rfl rfl (List.forall_mem_cons.mpr
      ⟨by decide, List.forall_mem_singleton.mpr (by decide)⟩) hy]
    decide
  have hnames' : ∀ y, ArgumentMentions listTable unfinishedPointed y ⟨.genericInst, 0x300, false⟩ →
      y.fullName ≠ listType.fullName := by
    intro y hy
    rw [eq_of_argumentMentions .int32 rfl rfl (List.forall_mem_cons.mpr
      ⟨by decide, List.forall_mem_singleton.mpr (by decide)⟩) hy]
    decide
  have hfails : (outcome (resolve listTable unfinished ⟨.genericInst, 0x300, false⟩)
      ⟨{}, ⟨"A", ∅⟩⟩).1 = .error (.missingArgument 0xDEAD) := by
    decide +kernel
  have hfails' : (outcome (resolve listTable unfinishedPointed ⟨.genericInst, 0x300, false⟩)
      ⟨{}, ⟨"A", ∅⟩⟩).1 = .error (.missingArgument 0xDEAD) := by
    decide +kernel
  have hiff := (failed_instance_iff listTable rfl hindex hfails (by simp)).1 hnames
  have hiff' := (failed_instance_iff listTable rfl hpointer hfails' (by simp)).1 hnames'
  refine ⟨hindex, hpointer, hnames, hnames', hfails, hfails', ?_, hiff'.mpr (.inr (by decide))⟩
  rw [Bool.eq_false_iff, ne_eq, hiff]
  decide

end Resolve

end MethodLift
