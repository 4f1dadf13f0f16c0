import MethodLift.Proofs.Imports
import MethodLift.Proofs.Lockstep

/-!
# Two encodings of generic types

Before version 27 a generic type holds the index of its definition, later a pointer to a descriptor
of it. `Reencodes` says that one source of metadata is the other in the later encoding. The later
one takes a layer more for the definition and imports it before the arguments instead of after them;
in between there is one more definition on record (`Pending`). Apart from that the two resolutions
run in lockstep (`tracks_encodings`), so they give the same signatures and the same errors, and a
success imports the same names (`encodings_agree`). A descriptor that comes from outside must not
refer to the new pointers either (`encodings_differ_outside`).
-/

namespace MethodLift

/-- The pointer to another descriptor that a descriptor holds itself. -/
def Descriptor.pointer? (d : Descriptor) : Option UInt64 :=
  match d.kind with
  | .szArray | .ptr => some d.data
  | _ => none

namespace Metadata

/-- A record refers to what is at the pointer, other than as the definition of a generic type. -/
inductive RefersTo (m : Metadata) (p : UInt64) : Prop
  | element {a : UInt64} {record : ArrayRecord} (h : m.arrays.get? a = some record)
      (hp : record.element = p)
  | argument {a : UInt64} {pointers : List UInt64} (h : m.arguments.get? a = some pointers)
      (hp : p ∈ pointers)
  | descriptor {a : UInt64} {d : Descriptor} (h : m.types.get? a = some d)
      (hp : d.pointer? = some p)
  | constraint {i : UInt32} {row : GenericRow} {d : Descriptor}
      (h : m.parameters.get? i = some row) (hd : d ∈ row.constraints) (hp : d.pointer? = some p)

/-- The second record of a generic type points to a descriptor of the definition whose index the
first one holds. -/
def Recodes (m' : Metadata) (record record' : GenericClassRecord) : Prop :=
  record'.arguments = record.arguments ∧ ∃ e, m'.types.get? record'.definition = some e ∧
    (e.kind = .classType ∨ e.kind = .valueType) ∧ e.data = record.definition

/-- The second source is the first one with the later encoding of generic types. Descriptors differ
only at pointers that nothing else refers to. -/
structure Reencodes (m m' : Metadata) : Prop where
  earlier : m.version < 27
  later : ¬m'.version < 27
  arrays : ∀ a, m'.arrays.get? a = m.arrays.get? a
  arguments : ∀ a, m'.arguments.get? a = m.arguments.get? a
  parameters : ∀ i, m'.parameters.get? i = m.parameters.get? i
  missing : ∀ a, m.classes.get? a = none → m'.classes.get? a = none
  classes : ∀ a record, m.classes.get? a = some record →
    ∃ record', m'.classes.get? a = some record' ∧ m'.Recodes record record'
  types : ∀ p, m.RefersTo p → m'.types.get? p = m.types.get? p

/-- The sources have the same descriptor where the descriptor points to. -/
def AgreeAt (m m' : Metadata) (d : Descriptor) : Prop :=
  ∀ p, d.pointer? = some p → m'.types.get? p = m.types.get? p

end Metadata

namespace Resolve

variable {table : TypeTable} {m m' : Metadata} {d e : Descriptor} {s s' t t' : ResolveState}
  {q : Demand} {o : Opening} {x : TypeDefinition} {a : Signature} {p : UInt64} {side : Side}
  {n : Nat} {X : Set String}

/-! ## Demands in both sources -/

theorem typeDemand_eq (h : m'.types.get? p = m.types.get? p) :
    typeDemand m' p = typeDemand m p := by
  rw [typeDemand, h, typeDemand]

theorem positionDemand_eq (h : m.Reencodes m') : positionDemand m' d = positionDemand m d := by
  simp only [positionDemand, h.parameters]

theorem itemDemand_eq {missing : ResolveError} (h : m.Reencodes m')
    (hp : m'.types.get? p = m.types.get? p) :
    itemDemand m' missing p = itemDemand m missing p := by
  simp only [itemDemand, hp, positionDemand_eq h]

theorem argumentDemands_eq (h : m.Reencodes m') : argumentDemands m' p = argumentDemands m p := by
  rw [argumentDemands, h.arguments, argumentDemands]
  cases hp : m.arguments.get? p with
  | none => rfl
  | some pointers =>
    exact List.map_congr_left fun p hmem => itemDemand_eq h (h.types p (.argument hp hmem))

/-- Only recipes of generic types differ. -/
theorem recipe_eq (h : m.Reencodes m') (hd : m.AgreeAt m' d) (hkind : d.kind ≠ .genericInst) :
    recipe table m' d = recipe table m d := by
  obtain ⟨kind, data, byRef⟩ := d
  cases kind
  case array =>
    simp only [recipe, TypeKind.primitive?, h.arrays]
    cases ha : m.arrays.get? data with
    | none => rfl
    | some record => simp only [typeDemand_eq (h.types _ (.element ha rfl))]
  case szArray =>
    simp only [recipe, TypeKind.primitive?, itemDemand_eq h (hd data rfl)]
  case ptr =>
    simp only [recipe, TypeKind.primitive?, typeDemand_eq (hd data rfl)]
  case genericInst => exact absurd rfl hkind
  all_goals rfl

theorem agreeAt_of_types (h : m.Reencodes m') (he : ∃ p, m.types.get? p = some e) :
    m.AgreeAt m' e := by
  obtain ⟨p, hp⟩ := he
  exact fun p' hp' => h.types p' (.descriptor hp hp')

theorem agreeAt_of_argument (h : m.Reencodes m') (hq : q ∈ argumentDemands m p)
    (he : q.target? = some e) : m.AgreeAt m' e := by
  have haims : q.AimsAt fun e => ∃ p, m.types.get? p = some e :=
    aimsAt_argumentDemands (fun _ _ a _ _ he _ => ⟨a, he⟩) hq
  exact agreeAt_of_types h (haims.2 e he)

theorem agreeAt_of_demand (h : m.Reencodes m') (hq : q ∈ (opening table m d s).demands)
    (he : q.target? = some e) : m.AgreeAt m' e := by
  have ho := opens table m d s
  generalize opening table m d s = o at hq ho
  cases ho with
  | follow => exact agreeAt_of_types h ((aimsAt_of_mem_recipe hq).2 e he).exists_pointer
  | known => cases hq
  | populate _ _ hget =>
    obtain ⟨c, hc, rfl⟩ := List.mem_map.mp hq
    cases he
    exact fun p hp => h.types p (.constraint hget hc hp)

theorem opening_eq (h : m.Reencodes m') (hrecipe : recipe table m' d = recipe table m d)
    (hs : s.resolver = s'.resolver) : opening table m' d s' = opening table m d s := by
  simp only [opening, hrecipe, h.parameters, ← hs, ResolveState.nextParameter]

/-! ## Imports that are pending -/

/-- The caches are the same, and the second state has the names of `X` on record besides those of
the first. -/
structure Pending (X : Set String) (s s' : ResolveState) : Prop where
  resolver : s.resolver = s'.resolver
  imported : ∀ name, s'.references.isImported name = true ↔
    s.references.isImported name = true ∨ name ∈ X

theorem isImported_importRoot {name : String} :
    (s.importRoot a).references.isImported name = true ↔
      s.references.isImported name = true ∨ ∃ x, a.root? = some x ∧ x.fullName = name := by
  unfold ResolveState.importRoot
  cases ha : a.root? with
  | none => simp
  | some x => simp [References.isImported_importType]

theorem Pending.importRoot (h : Pending X s s') : Pending X (s.importRoot a) (s'.importRoot a) where
  resolver := by simpa using h.resolver
  imported name := by
    rw [isImported_importRoot, isImported_importRoot, h.imported name]
    exact or_right_comm

/-- The second resolution imports the definition ahead of the first. -/
theorem Pending.ahead (h : Pending X s s') :
    Pending (insert x.fullName X) s (s'.importRoot (.definition x)) where
  resolver := by simpa using h.resolver
  imported name := by
    rw [isImported_importRoot, h.imported name, Set.mem_insert_iff]
    simp only [Signature.root?, Option.some.injEq, exists_eq_left', eq_comm (a := name)]
    tauto

/-- The first one imports it, too. -/
theorem Pending.catchUp (h : Pending (insert x.fullName X) t t') (ha : a.root? = some x) :
    Pending X (t.importRoot a) (t'.importRoot a) where
  resolver := by simpa using h.resolver
  imported name := by
    rw [isImported_importRoot, isImported_importRoot, h.imported name, Set.mem_insert_iff]
    simp only [ha, Option.some.injEq, exists_eq_left', eq_comm (a := name)]
    tauto

theorem Pending.enter (h : Pending X s s') : Pending X (o.enter s) (o.enter s') := by
  cases o with
  | follow => exact h
  | known => exact h
  | populate =>
    exact ⟨by simp only [Opening.enter, ResolveState.addParameter, h.resolver], h.imported⟩

theorem Pending.settle {as : List Signature} (h : Pending X s s') :
    Pending X (o.settle s as) (o.settle s' as) := by
  cases o with
  | follow => exact h.importRoot
  | known => exact h
  | populate =>
    exact ⟨by simp only [Opening.settle, ResolveState.setConstraints, h.resolver], h.imported⟩

/-! ## Generic types -/

/-- A descriptor of a definition takes one layer, and imports the definition. -/
theorem outcome_base_definition (he : e.kind = .classType ∨ e.kind = .valueType) :
    outcome (answer (resolveWithin table m (n + 1)) (.base e)) s =
      match table.types[e.data.toNat]? with
      | some x => (.ok (.definition x), s.importRoot (.definition x))
      | none => (.error (.noDefinition e.data), s) := by
  have howner : e.kind.owner? = none := by rcases he with he | he <;> rw [he] <;> rfl
  have hrecipe : recipe table m e = match table.types[e.data.toNat]? with
      | some x => .known x
      | none => .refused (.noDefinition e.data) := by
    unfold recipe
    rcases he with he | he <;> rw [he] <;> rfl
  rw [outcome_answer_base, outcome_within_succ, opening_of_owner? howner, hrecipe]
  cases table.types[e.data.toNat]? <;> rfl

/-- The number of layers for the later encoding. If it is the earlier one that is known to end, one
more is enough. -/
def Side.layers (side : Side) (n : Nat) : Nat :=
  match side with
  | first => n + 1
  | second => n

theorem Side.layers_succ (side : Side) (n : Nat) : side.layers (n + 1) = side.layers n + 1 := by
  cases side <;> rfl

theorem Side.exists_layer {α : Type} {r : Except ResolveError α × ResolveState} {qs : List Demand}
    (h : side.Ends r (answerAll (resolveWithin table m (side.layers n)) (.base e :: qs) s)) :
    ∃ k, side.layers n = k + 1 := by
  cases side with
  | first => exact ⟨n, rfl⟩
  | second =>
    cases n with
    | zero => exact absurd rfl (ends_answerAll_cons.mp h).1
    | succ n => exact ⟨n, rfl⟩

theorem side_ends_close {o o' : Opening}
    {r r' : Except ResolveError (List Signature) × ResolveState} :
    side.Ends (o.close r) (o'.close r') ↔ side.Ends r r' := by
  cases side <;> exact ends_close

theorem keepsRoots_eq : KeepsRoots Eq := by
  rintro a _ rfl
  cases ha : a.root? with
  | none => exact .inl ⟨rfl, rfl⟩
  | some x => exact .inr ⟨x, x, rfl, rfl, rfl⟩

section Layer

variable {f g : Descriptor → ResolveM Signature}

/-- Answers to the same demands, if their targets run in lockstep. -/
theorem related_demands {qs : List Demand}
    (h : ∀ q ∈ qs, ∀ e, q.target? = some e → Tracks side Eq (Pending X) (fun _ _ => True) f g e)
    (hs : Pending X s s') (hends : side.Ends (answerAll f qs s) (answerAll g qs s')) :
    Related Eq (Pending X) (fun _ _ => True) (answerAll f qs s) (answerAll g qs s') := by
  have hrelated := related_answerAll side (fun _ => rfl) keepsRoots_eq (fun _ _ _ => trivial) h hs
    hends
  rwa [List.forall₂_eq_eq_eq] at hrelated

end Layer

theorem recipe_generic {record : GenericClassRecord} (hkind : d.kind = .genericInst)
    (hrecord : m.classes.get? d.data = some record) :
    recipe table m d =
      .applied (baseDemand table m record) (argumentDemands m record.arguments) := by
  simp [recipe, hkind, TypeKind.primitive?, hrecord]

theorem recipe_generic_missing (hkind : d.kind = .genericInst)
    (hmissing : m.classes.get? d.data = none) :
    recipe table m d = .refused (.missing (.genericClass d.data)) := by
  simp [recipe, hkind, TypeKind.primitive?, hmissing]

/-- The definition in the earlier encoding. -/
theorem outcome_base_index {f : Descriptor → ResolveM Signature} {record : GenericClassRecord}
    (h : m.Reencodes m') :
    outcome (answer f (baseDemand table m record)) s =
      match table.types[record.definition.toNat]? with
      | some x => (.ok (.definition x), s)
      | none => (.error (.noDefinition record.definition), s) := by
  have hversion : m.pointsToDefinition = false := by simp [Metadata.pointsToDefinition, h.earlier]
  simp only [baseDemand, hversion, Bool.false_eq_true, if_false]
  cases table.types[record.definition.toNat]? <;> rfl

theorem baseDemand_later {record : GenericClassRecord} (h : m.Reencodes m')
    (he : m'.types.get? record.definition = some e) : baseDemand table m' record = .base e := by
  have hversion : m'.pointsToDefinition = true := by simp [Metadata.pointsToDefinition, h.later]
  simp only [baseDemand, hversion, if_true, he]

/-- Once the definition is found on both sides, the arguments are answered in lockstep, and the
imports are even again. -/
theorem related_close_applied {base base' : Demand} {qs : List Demand}
    {r r' : Except ResolveError (List Signature) × ResolveState}
    (h : Related Eq (Pending (insert x.fullName X)) (fun _ _ => True) r r') :
    Related Eq (Pending X) (fun _ _ => True)
      ((Opening.follow (.applied base qs)).close (r.1.map (.definition x :: ·), r.2))
      ((Opening.follow (.applied base' qs)).close (r'.1.map (.definition x :: ·), r'.2)) := by
  cases h with
  | error => exact .error trivial
  | @ok as _ _ _ has hs =>
    subst has
    exact .ok rfl (hs.catchUp (a := .applied x as) rfl)

/-- A generic type is resolved in lockstep, if the arguments are. -/
theorem related_generic (h : m.Reencodes m') (hkind : d.kind = .genericInst)
    (ih : ∀ {e X}, m.AgreeAt m' e → Tracks side Eq (Pending X) (fun _ _ => True)
      (resolveWithin table m n) (resolveWithin table m' (side.layers n)) e)
    (hs : Pending X s s')
    (hends : side.Ends (answerAll (resolveWithin table m n) (recipe table m d).demands s)
      (answerAll (resolveWithin table m' (side.layers n)) (recipe table m' d).demands s')) :
    Related Eq (Pending X) (fun _ _ => True)
      ((Opening.follow (recipe table m d)).close
        (answerAll (resolveWithin table m n) (recipe table m d).demands s))
      ((Opening.follow (recipe table m' d)).close
        (answerAll (resolveWithin table m' (side.layers n)) (recipe table m' d).demands s')) := by
  cases hrecord : m.classes.get? d.data with
  | none =>
    rw [recipe_generic_missing hkind hrecord, recipe_generic_missing hkind (h.missing _ hrecord)]
    exact .error trivial
  | some record =>
    obtain ⟨record', hrecord', harguments, e, hget, he, hdata⟩ := h.classes _ record hrecord
    rw [recipe_generic hkind hrecord, recipe_generic hkind hrecord', harguments,
      argumentDemands_eq h, baseDemand_later h hget] at hends ⊢
    simp only [Recipe.demands_applied] at hends ⊢
    obtain ⟨k, hk⟩ := Side.exists_layer hends
    have hbase : outcome (answer (resolveWithin table m n) (baseDemand table m record)) s = _ :=
      outcome_base_index h
    have hbase' : outcome (answer (resolveWithin table m' (k + 1)) (.base e)) s' = _ :=
      outcome_base_definition he
    rw [← hk, hdata] at hbase'
    cases hx : table.types[record.definition.toNat]? with
    | none =>
      rw [hx] at hbase hbase'
      rw [answerAll_cons_of_error hbase, answerAll_cons_of_error hbase']
      exact .error trivial
    | some x =>
      rw [hx] at hbase hbase'
      have hrest := related_demands
        (fun q hq e he => ih (agreeAt_of_argument h hq he)) hs.ahead (ends_tail hbase hbase' hends)
      rw [answerAll_cons_of_ok hbase, answerAll_cons_of_ok hbase']
      exact related_close_applied hrest

/-- Resolutions in the two encodings run in lockstep, if the descriptor itself points to the same in
both. -/
theorem tracks_encodings (side : Side) (h : m.Reencodes m') (hd : m.AgreeAt m' d) :
    Tracks side Eq (Pending X) (fun _ _ => True) (resolveWithin table m n)
      (resolveWithin table m' (side.layers n)) d := by
  induction n generalizing d X with
  | zero =>
    intro s s' _ hends
    cases side <;> exact absurd rfl hends
  | succ n ih =>
    intro s s' hs hends
    rw [Side.layers_succ, outcome_within_succ, outcome_within_succ] at hends ⊢
    rw [side_ends_close] at hends
    by_cases hkind : d.kind = .genericInst
    · have howner : d.kind.owner? = none := by rw [hkind]; rfl
      rw [opening_of_owner? howner, opening_of_owner? howner] at hends ⊢
      exact related_generic h hkind ih hs hends
    · rw [opening_eq h (recipe_eq h hd hkind) hs.resolver] at hends ⊢
      refine (related_demands (fun q hq e he => ih (agreeAt_of_demand h hq he)) hs.enter
        hends).close (fun as bs t t' has ht => ?_) fun _ _ _ => trivial
      subst has
      exact ⟨rfl, ht.settle⟩

theorem related_resolve_encodings (h : m.Reencodes m') (hd : m.AgreeAt m' d) (hs : Pending X s s')
    (hends : Ends (outcome (resolve table m d) s)) :
    Related Eq (Pending X) (fun _ _ => True) (outcome (resolve table m d) s)
      (outcome (resolve table m' d) s') := by
  have hrelated : Related Eq (Pending X) (fun _ _ => True) (outcome (resolve table m d) s)
      (outcome (resolveWithin table m' (m.depth + 1) d) s') :=
    tracks_encodings .first h hd s s' hs hends
  rwa [← outcome_resolve_of_ends (hrelated.ends_iff.mp hends)] at hrelated

theorem ends_encodings (h : m.Reencodes m') (hd : m.AgreeAt m' d) (hs : Pending X s s')
    (hends : Ends (outcome (resolve table m' d) s')) : Ends (outcome (resolve table m d) s) := by
  have hrelated : Related Eq (Pending X) (fun _ _ => True)
      (outcome (resolveWithin table m m'.depth d) s) (outcome (resolve table m' d) s') :=
    tracks_encodings .second h hd s s' hs hends
  exact ends_resolve_of_ends (hrelated.ends_iff.mpr hends)

/-- The two encodings of generic types agree: for every table, descriptor and state, and so for a
new resolver and every assembly, a source and the same source in the later encoding give the same
signature, down to the generic parameters, or the same error. On success the caches are the same,
with the constraints of all parameters, and so are the names on record. The pointers that the later
encoding adds must be referred to nowhere else, and thus not by the descriptor either. -/
theorem encodings_agree (table : TypeTable) (h : m.Reencodes m') (hd : m.AgreeAt m' d)
    (s : ResolveState) :
    (outcome (resolve table m d) s).1 = (outcome (resolve table m' d) s).1 ∧
      ∀ a, (outcome (resolve table m d) s).1 = .ok a →
        (outcome (resolve table m d) s).2.resolver =
          (outcome (resolve table m' d) s).2.resolver ∧
        ∀ name, (outcome (resolve table m d) s).2.references.isImported name =
          (outcome (resolve table m' d) s).2.references.isImported name := by
  have hs : Pending ∅ s s := ⟨rfl, by simp⟩
  by_cases hends : Ends (outcome (resolve table m d) s)
  · have hrelated := related_resolve_encodings h hd hs hends
    generalize outcome (resolve table m d) s = r at hrelated
    generalize outcome (resolve table m' d) s = r' at hrelated
    cases hrelated with
    | error =>
      refine ⟨rfl, fun a ha => ?_⟩
      cases ha
    | ok ha hs' =>
      refine ⟨by rw [ha], fun _ _ => ⟨hs'.resolver, fun name => ?_⟩⟩
      rw [Bool.eq_iff_iff, hs'.imported name]
      simp
  · have hends' : ¬Ends (outcome (resolve table m' d) s) :=
      fun hends' => hends (ends_encodings h hd hs hends')
    rw [Ends, not_not] at hends hends'
    rw [hends, hends']
    refine ⟨rfl, fun a ha => ?_⟩
    cases ha

/-- A parameter that is constrained by a generic type, with the index of its definition. -/
def indexed : Metadata where
  version := 24
  types := .ofList
    [(0x10, ⟨.i4, 0, false⟩), (0x20, ⟨.var, 0, false⟩), (0x30, ⟨.genericInst, 0x300, false⟩)]
  classes := .ofList [(0x300, ⟨1, 0x400⟩)]
  arguments := .ofList [(0x400, [0x10, 0x20])]
  parameters := .ofList [(0, ⟨"T", 0, 0, [⟨.genericInst, 0x300, false⟩]⟩)]

/-- The same with a pointer to the definition. -/
def pointed : Metadata where
  version := 27
  types := .ofList
    [(0x10, ⟨.i4, 0, false⟩), (0x20, ⟨.var, 0, false⟩), (0x30, ⟨.genericInst, 0x300, false⟩),
      (0x500, ⟨.classType, 1, false⟩)]
  classes := .ofList [(0x300, ⟨0x500, 0x400⟩)]
  arguments := .ofList [(0x400, [0x10, 0x20])]
  parameters := .ofList [(0, ⟨"T", 0, 0, [⟨.genericInst, 0x300, false⟩]⟩)]

theorem not_refersTo_indexed : ¬indexed.RefersTo 0x500 := by
  intro h
  cases h with
  | element h _ => cases h
  | argument h hp =>
    simp only [indexed, FinMap.ofList, List.foldl_cons, List.foldl_nil, FinMap.get?_insert] at h
    split at h
    · cases h
      simp at hp
    · cases h
  | descriptor h hp =>
    simp only [indexed, FinMap.ofList, List.foldl_cons, List.foldl_nil, FinMap.get?_insert] at h
    repeat' split at h
    all_goals cases h
    all_goals cases hp
  | constraint h hd hp =>
    simp only [indexed, FinMap.ofList, List.foldl_cons, List.foldl_nil, FinMap.get?_insert] at h
    split at h
    · cases h
      rw [List.mem_singleton.mp hd] at hp
      cases hp
    · cases h

theorem reencodes_indexed : indexed.Reencodes pointed where
  earlier := by decide
  later := by decide
  arrays _ := rfl
  arguments _ := rfl
  parameters _ := rfl
  missing a h := by
    simp only [indexed, pointed, FinMap.ofList, List.foldl_cons, List.foldl_nil,
      FinMap.get?_insert] at h ⊢
    split at h
    · cases h
    · rw [if_neg ‹_›]
      rfl
  classes a record h := by
    simp only [indexed, pointed, FinMap.ofList, List.foldl_cons, List.foldl_nil,
      FinMap.get?_insert] at h ⊢
    split at h
    · cases h
      exact ⟨⟨0x500, 0x400⟩, if_pos ‹_›, rfl, ⟨.classType, 1, false⟩, rfl, .inl rfl, rfl⟩
    · cases h
  types p h := by
    have hp : p ≠ 0x500 := fun hp => not_refersTo_indexed (hp ▸ h)
    simp only [indexed, pointed, FinMap.ofList, List.foldl_cons, List.foldl_nil,
      FinMap.get?_insert, if_neg hp]

/-- Two definitions, the second of which is taken for a generic one. -/
def twoTypes : TypeTable := ⟨[TypeTable.supplied .int32, TypeTable.supplied .string], ∅⟩

/-- The parameter is the same in both encodings, and so are its constraint and the names that are
imported. -/
theorem encodings_agree_indexed :
    indexed.Reencodes pointed ∧ indexed.AgreeAt pointed ⟨.var, 0, false⟩ ∧
      (outcome (resolve twoTypes indexed ⟨.var, 0, false⟩) ⟨{}, ⟨"A", ∅⟩⟩).1 =
        .ok (.parameter ⟨.resolved 0, "T", 0, .type, 0⟩) ∧
      (outcome (resolve twoTypes indexed ⟨.var, 0, false⟩)
          ⟨{}, ⟨"A", ∅⟩⟩).2.resolver.constraints.get? (.resolved 0) =
        some [.applied (TypeTable.supplied .string)
          [.definition (TypeTable.supplied .int32), .position .type 0]] ∧
      (outcome (resolve twoTypes pointed ⟨.var, 0, false⟩) ⟨{}, ⟨"A", ∅⟩⟩).1 =
        .ok (.parameter ⟨.resolved 0, "T", 0, .type, 0⟩) ∧
      (outcome (resolve twoTypes indexed ⟨.var, 0, false⟩) ⟨{}, ⟨"A", ∅⟩⟩).2.resolver =
        (outcome (resolve twoTypes pointed ⟨.var, 0, false⟩) ⟨{}, ⟨"A", ∅⟩⟩).2.resolver ∧
      (outcome (resolve twoTypes pointed ⟨.var, 0, false⟩)
        ⟨{}, ⟨"A", ∅⟩⟩).2.references.isImported "System.String" = true := by
  have hd : indexed.AgreeAt pointed ⟨.var, 0, false⟩ := fun p hp => nomatch hp
  have hfirst : (outcome (resolve twoTypes indexed ⟨.var, 0, false⟩) ⟨{}, ⟨"A", ∅⟩⟩).1 =
      .ok (.parameter ⟨.resolved 0, "T", 0, .type, 0⟩) := by
    decide +kernel
  have himported : (outcome (resolve twoTypes indexed ⟨.var, 0, false⟩)
      ⟨{}, ⟨"A", ∅⟩⟩).2.references.isImported "System.String" = true := by
    decide +kernel
  obtain ⟨hsame, hok⟩ := encodings_agree twoTypes reencodes_indexed hd ⟨{}, ⟨"A", ∅⟩⟩
  obtain ⟨hresolver, hnames⟩ := hok _ hfirst
  exact ⟨reencodes_indexed, hd, hfirst, by decide +kernel, hsame ▸ hfirst, hresolver,
    hnames _ ▸ himported⟩

/-- A descriptor that is given from outside may refer to what is new in the later encoding, though
nothing in the metadata does. Then only the later encoding has an answer. -/
theorem encodings_differ_outside :
    indexed.Reencodes pointed ∧ ¬indexed.AgreeAt pointed ⟨.ptr, 0x500, false⟩ ∧
      (outcome (resolve twoTypes indexed ⟨.ptr, 0x500, false⟩) ⟨{}, ⟨"A", ∅⟩⟩).1 =
        .error (.missing (.type 0x500)) ∧
      (outcome (resolve twoTypes pointed ⟨.ptr, 0x500, false⟩) ⟨{}, ⟨"A", ∅⟩⟩).1 =
        .ok (.pointer (.definition (TypeTable.supplied .string))) := by
  refine ⟨reencodes_indexed, fun h => ?_, by decide +kernel, by decide +kernel⟩
  exact absurd (h 0x500 rfl) (by decide +kernel)

end Resolve

end MethodLift
