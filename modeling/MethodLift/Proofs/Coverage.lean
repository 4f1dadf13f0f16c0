import MethodLift.Proofs.Edges
import MethodLift.Proofs.Replay

/-!
# The graph of an emittable body

The walk and the graph look at branches apart from each other: the walk asks whether an instruction
of the body stands at the target, the graph whether a block starts there, and a jump that the walk
takes for a call is an edge out of the body. `Covered` says that the graph leaves nothing open where
every action of the walk has code: all of the body is decoded, every edge leads somewhere, and those
branches that lead out of the body are calls of known methods.
-/

namespace MethodLift

open Walk

section

variable {s : Setting} {k : Nat} {i : Instruction} {t : UInt64} {edge : Edge}

/-! ## Steps that have code -/

theorem Emittable.code_of_recorded (hemit : Emittable s) (hi : s.body[k]? = some i) {e : Effect}
    (he : e ∈ (recorded s k).effects) : ∃ code, e.bytecode (run s).locals = .ok code := by
  obtain ⟨code, hc⟩ := hemit _ (recorded_mem hi he)
  exact ⟨code, except_mapError_eq_ok.mp hc⟩

/-- No instruction is given up as a whole. -/
theorem Emittable.step_ne_unmodeled (hemit : Emittable s) (hi : i ∈ s.body) {what : String} :
    ¬∀ ls fresh m, (s.step ls fresh m i).effects = [i.unmodeled what] := by
  intro hstep
  obtain ⟨k, hi⟩ := List.mem_iff_getElem?.mp hi
  have he : i.unmodeled what ∈ (recorded s k).effects := by
    rw [recorded_eq hi, hstep]
    exact List.mem_singleton_self _
  obtain ⟨code, hc⟩ := hemit.code_of_recorded hi he
  cases hc

theorem Emittable.kind_ne_invalid (hemit : Emittable s) (hi : i ∈ s.body) :
    s.isa.kind i ≠ .invalid :=
  fun hk => hemit.step_ne_unmodeled hi fun _ _ _ => by rw [Setting.step, hk]

theorem Emittable.kind_ne_indirectJump (hemit : Emittable s) (hi : i ∈ s.body) :
    s.isa.kind i ≠ .indirectJump :=
  fun hk => hemit.step_ne_unmodeled hi fun _ _ _ => by rw [Setting.step, hk]

/-- A conditional branch goes to an instruction of the body. -/
theorem Emittable.target_of_conditional (hemit : Emittable s) (hi : i ∈ s.body)
    (hk : (s.isa.kind i).isConditional = true) :
    ∃ t, i.target? = some t ∧ s.isInside t = true := by
  obtain ⟨k, hi⟩ := List.mem_iff_getElem?.mp hi
  have hbranch : ∃ c comparison, s.branchEffect i c comparison ∈ (recorded s k).effects := by
    rw [recorded_eq hi, Setting.step]
    cases hkind : s.isa.kind i with
    | conditionalJump c => exact ⟨c, _, List.mem_singleton_self _⟩
    | compareZeroAndBranch c => exact ⟨c, _, List.mem_singleton_self _⟩
    | _ => simp [hkind, InstructionKind.isConditional] at hk
  obtain ⟨c, comparison, he⟩ := hbranch
  obtain ⟨code, hc⟩ := hemit.code_of_recorded hi he
  unfold Setting.branchEffect at hc
  split at hc
  · rename_i t ht
    refine ⟨t, ht, ?_⟩
    by_contra hout
    rw [Bool.not_eq_true] at hout
    simp [Effect.bytecode, hout] at hc
  · cases hc

/-- Where `i` stands, the walk calls the method whose code starts at `t`, with all arguments in
registers. -/
def TailCalls (s : Setting) (i : Instruction) (t : UInt64) : Prop :=
  ∃ method arguments result, s.symbols.methodAt? t = some method ∧
    ⟨i.address, .call t (some method) arguments 0 result⟩ ∈ (run s).actions

/-- A jump goes to an instruction of the body, or is a call of a known method. -/
theorem Emittable.target_of_jump (hemit : Emittable s) (hi : i ∈ s.body)
    (hk : s.isa.kind i = .jump) :
    ∃ t, i.target? = some t ∧ (s.isInside t = true ∨ TailCalls s i t) := by
  obtain ⟨k, hi⟩ := List.mem_iff_getElem?.mp hi
  have hcode : ∀ e ∈ (s.stepJump (before s k).locals.length (before s k).machine i).effects,
      ⟨i.address, e⟩ ∈ (run s).actions ∧ ∃ code, e.bytecode (run s).locals = .ok code := by
    intro e he
    have hrec : e ∈ (recorded s k).effects := by rwa [recorded_eq hi, Setting.step, hk]
    exact ⟨recorded_mem hi hrec, hemit.code_of_recorded hi hrec⟩
  unfold Setting.stepJump at hcode
  split at hcode
  · obtain ⟨-, code, hc⟩ := hcode _ (List.mem_singleton_self _)
    cases hc
  · rename_i t ht
    refine ⟨t, ht, ?_⟩
    split at hcode
    · rename_i hout
      obtain ⟨method, hmethod⟩ := Option.isSome_iff_exists.mp (Bool.and_eq_true_iff.mp hout).2
      obtain ⟨hmem, code, hc⟩ := hcode _ (List.mem_append_left _
        (Setting.effects_managedCall hmethod _ ▸ List.mem_singleton_self _))
      have hemits := emits_of_bytecode hc
      unfold Setting.callEffect at hmem hemits
      generalize (s.convention.argumentSlots method).countP (· == .stack) = onStack at hmem hemits
      generalize (if method.returnsVoid then none else some (before s k).locals.length) = result
        at hmem hemits
      -- Only a call without arguments on the stack has code.
      cases hemits with
      | call => exact .inr ⟨method, _, _, hmethod, hmem⟩
      | callResult => exact .inr ⟨method, _, _, hmethod, hmem⟩
      | bookkeeping hb => cases hb
    · obtain ⟨-, code, hc⟩ := hcode _ (List.mem_singleton_self _)
      refine .inl (by_contra fun hfar => ?_)
      simp [Effect.bytecode, hfar] at hc

/-! ## The graph -/

/-- The graph `g` leaves nothing of the body open. -/
structure Covered (s : Setting) (g : Graph) : Prop where
  decoded : ∀ i ∈ s.body, s.isa.kind i ≠ .invalid
  known : ∀ id, ∀ edge ∈ g.successors id, edge.target ≠ .unknown
  branches : ∀ id t, ⟨.conditional, .outside t⟩ ∉ g.successors id
  jumps : ∀ id t, ⟨.unconditional, .outside t⟩ ∈ g.successors id → ∃ i ∈ s.body, TailCalls s i t

/-- A branch to an instruction of the body leads to a block. -/
theorem exists_block_of_inside (hi : i ∈ s.body)
    (hbranch : (s.isa.kind i).isDirectBranch = true) (ht : i.target? = some t)
    (hin : s.isInside t = true) :
    ∃ b, (Graph.build s.isa s.helpers s.body).resolve i.target? = .block b := by
  simp only [Setting.isInside, List.any_eq_true, beq_iff_eq] at hin
  obtain ⟨j, hj, rfl⟩ := hin
  cases hr : (Graph.build s.isa s.helpers s.body).resolve i.target? with
  | block b => exact ⟨b, rfl⟩
  | unknown =>
    rw [Graph.resolve_eq_unknown_iff.mp hr] at ht
    cases ht
  | outside u =>
    obtain rfl := Option.some.inj ((Graph.resolve_eq_outside_iff.mp hr).1.symm.trans ht)
    exact absurd hr (Graph.not_outside_of_branch hi hbranch hj)

/-- The edges of an emittable body, by what its last instructions call for. -/
theorem Emittable.callsFor_cases (hemit : Emittable s) (hi : i ∈ s.body)
    (h : Graph.CallsFor s.isa s.helpers (Graph.build s.isa s.helpers s.body) i edge) :
    edge.target ≠ .unknown ∧ ∀ t, edge.target = .outside t →
      edge.kind = .fallThrough ∨ edge.kind = .unconditional ∧ TailCalls s i t := by
  cases h with
  | fallThrough => simp [Graph.resolve_eq_unknown_iff]
  | branch hcond =>
    obtain ⟨t, ht, hin⟩ := hemit.target_of_conditional hi hcond
    have hbranch : (s.isa.kind i).isDirectBranch = true := by
      simp [InstructionKind.isDirectBranch, hcond]
    obtain ⟨b, hb⟩ := exists_block_of_inside hi hbranch ht hin
    simp [hb]
  | jump hjump =>
    obtain ⟨t, ht, hin | hcall⟩ := hemit.target_of_jump hi hjump
    · have hbranch : (s.isa.kind i).isDirectBranch = true := by
        simp [InstructionKind.isDirectBranch, hjump]
      obtain ⟨b, hb⟩ := exists_block_of_inside hi hbranch ht hin
      simp [hb]
    · refine ⟨fun hu => ?_, fun u hu => .inr ⟨rfl, ?_⟩⟩
      · rw [Graph.resolve_eq_unknown_iff.mp hu] at ht
        cases ht
      · obtain rfl := Option.some.inj ((Graph.resolve_eq_outside_iff.mp hu).1.symm.trans ht)
        exact hcall
  | jumpAnywhere hk => exact absurd hk (hemit.kind_ne_indirectJump hi)

theorem Emittable.covered (hemit : Emittable s) :
    Covered s (Graph.build s.isa s.helpers s.body) := by
  have hedges : ∀ id edge, edge ∈ (Graph.build s.isa s.helpers s.body).successors id →
      ∃ i ∈ s.body, edge.target ≠ .unknown ∧ ∀ t, edge.target = .outside t →
        edge.kind = .fallThrough ∨ edge.kind = .unconditional ∧ TailCalls s i t := by
    intro id edge he
    obtain ⟨b, i, hb, hlast, he⟩ := Graph.mem_successors_build.mp he
    have hi := Graph.mem_of_last (List.mem_of_getElem? hb) hlast
    exact ⟨i, hi, hemit.callsFor_cases hi (Graph.mem_edgesFrom.mp he)⟩
  refine ⟨fun i hi => hemit.kind_ne_invalid hi, fun id edge he => ?_, fun id t he => ?_,
    fun id t he => ?_⟩
  · obtain ⟨i, -, hknown, -⟩ := hedges id edge he
    exact hknown
  · obtain ⟨i, -, -, hout⟩ := hedges id _ he
    rcases hout t rfl with hk | ⟨hk, -⟩ <;> cases hk
  · obtain ⟨i, hi, -, hout⟩ := hedges id _ he
    rcases hout t rfl with hk | ⟨-, hcall⟩
    · cases hk
    · exact ⟨i, hi, hcall⟩

end

/-- For every instruction set, runtime and body: if no action of the walk is tainted, the graph of
the body leaves nothing of it open. With a built-in instruction set this means that all bytes of the
body were decoded. -/
theorem untainted_covered (s : Setting)
    (huntainted : ∀ a ∈ (run s).actions, a.taint? (run s).locals = none) :
    Covered s (Graph.build s.isa s.helpers s.body) ∧
      (s.isa = X64.isa ∨ s.isa = A64.isa → ∀ i ∈ s.body, i.isInvalid = false) := by
  have hemit : Emittable s := fun a ha => Action.taint?_eq_none_iff.mp (huntainted a ha)
  refine ⟨hemit.covered, fun hisa i hi => ?_⟩
  by_contra hinvalid
  rw [Bool.not_eq_false] at hinvalid
  refine hemit.kind_ne_invalid hi ?_
  rcases hisa with hisa | hisa
  · simp [hisa, X64.isa, X64.kind, hinvalid]
  · simp [hisa, A64.isa, A64.kind, hinvalid]

/-- `long F(long a)`: zero stays zero, and for everything else another method is asked. -/
def forwardingBody : List Instruction :=
  [.ofText 0x1000 (List.replicate 3 0x90) "mov" "rax, rcx",
   .ofText 0x1003 (List.replicate 3 0x90) "test" "rcx, rcx",
   .ofText 0x1006 (List.replicate 2 0x90) "je" "0x100d",
   .ofText 0x1008 (List.replicate 5 0x90) "jmp" "0x2000",
   .ofText 0x100d (List.replicate 1 0x90) "ret" ""]

/-- The other method takes and returns what `F` does. -/
def forwarding : Setting :=
  { plainSetting forwardingBody with
    symbols :=
      { methodAt? := fun a => if a = 0x2000 then some (plainSetting []).method else none } }

/-- The jump leads out of the body, and it is a call. -/
theorem untainted_covered_forwarding :
    (forwarding.body.Pairwise fun i j => i.address < j.address) ∧
      (∀ a ∈ (run forwarding).actions, a.taint? (run forwarding).locals = none) ∧
      ⟨.unconditional, .outside 0x2000⟩ ∈
        (Graph.build forwarding.isa forwarding.helpers forwarding.body).successors 1 ∧
      Covered forwarding (Graph.build forwarding.isa forwarding.helpers forwarding.body) ∧
      ∀ i ∈ forwarding.body, i.isInvalid = false := by
  have huntainted : ∀ a ∈ (run forwarding).actions, a.taint? (run forwarding).locals = none := by
    decide +kernel
  obtain ⟨hcovered, hdecoded⟩ := untainted_covered forwarding huntainted
  exact ⟨by decide +kernel, huntainted, by decide +kernel, hcovered, hdecoded (.inl rfl)⟩

end MethodLift
