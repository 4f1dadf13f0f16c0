import MethodLift.Proofs.Layout

/-!
# Falling from one instruction into the next

Native control falls from an instruction into its neighbour if the instruction does not end the
flow, comes back if it is a call, and ends where the neighbour begins (`Graph.fallsInto`). Emitted
code runs from one part into the next unless the part ends in a jump, a return or a throw
(`runsOn`). The code never stops where native control goes on. The other way round it slips in two
places (`Graph.Slips`): a trap writes nothing, so that the code runs past it, and nothing is written
where an instruction does not end where the next one begins. Everywhere else the two agree.
-/

namespace MethodLift

open Walk

/-! ## Native control -/

namespace Graph

/-- Native control can pass from `i` to `j` by falling through. -/
def fallsInto (isa : InstructionSet) (helpers : HelperTable) (i j : Instruction) : Bool :=
  !(isa.kind i).endsFlow && !isFinalCall helpers (isa.kind i) i && j.address == i.next

/-- Native control does not fall from `i` into `j`, and nothing in the code of `i` says so. -/
def Slips (isa : InstructionSet) (helpers : HelperTable) (i j : Instruction) : Prop :=
  isa.kind i = .trap ∨
    ((isa.kind i).endsFlow = false ∧ isFinalCall helpers (isa.kind i) i = false ∧
      j.address ≠ i.next)

theorem not_slips_of_fallsInto {isa : InstructionSet} {helpers : HelperTable} {i j : Instruction}
    (h : fallsInto isa helpers i j = true) : ¬Slips isa helpers i j := by
  simp only [fallsInto, Bool.and_eq_true, Bool.not_eq_true', beq_iff_eq] at h
  rintro (htrap | ⟨-, -, hgap⟩)
  · rw [htrap] at h
    cases h.1.1
  · exact hgap h.2

end Graph

/-- Whether control passes through an instruction or is trapped there, in terms of its neighbour. -/
theorem Walk.passes_or_trap_iff {s : Setting} (i j : Instruction) :
    (passes s i = true ∨ s.isa.kind i = .trap) ↔
      Graph.fallsInto s.isa s.helpers i j = true ∨ Graph.Slips s.isa s.helpers i j := by
  simp only [passes, Graph.fallsInto, Graph.Slips, Bool.and_eq_true, Bool.not_eq_true', beq_iff_eq]
  by_cases hnext : j.address = i.next <;> simp [hnext, or_comm]

/-! ## Emitted control -/

/-- The instruction sends control elsewhere in any case. -/
def Bytecode.isExit : Bytecode → Bool
  | br _ | throw | ret => true
  | _ => false

/-- Control runs off the end of the code. -/
def runsOn (code : List Bytecode) : Bool := !code.getLast?.any Bytecode.isExit

section

variable {s : Setting} {i j : Instruction} {k : Nat} {ls : Locals} {as : List Action} {a : Action}
  {code : List Bytecode} {method : Method}

theorem runsOn_concat (front : List Bytecode) (b : Bytecode) :
    runsOn (front ++ [b]) = !b.isExit := by
  simp [runsOn]

theorem Bytecode.isControl_of_isExit {b : Bytecode} (h : b.isExit = true) : b.isControl = true := by
  cases b with
  | br _ | throw | ret => rfl
  | _ => cases h

/-- Through labels and effects that go straight on, control runs on. -/
theorem runsOn_of_straight (hf : ∀ a ∈ as, a.effect.Fits method) (h : emitAll ls as = .ok code)
    (hs : ∀ a ∈ as, a.effect.isStraight = true ∨ ∃ t, a.effect = .label t) :
    runsOn code = true := by
  rcases List.eq_nil_or_concat code with rfl | ⟨front, b, rfl⟩
  · rfl
  · rw [List.concat_eq_append] at h ⊢
    rw [runsOn_concat, Bool.not_eq_true', ← Bool.not_eq_true]
    intro hexit
    obtain ⟨a, ha, hends⟩ := ends_of_mem hf h (b := b) (by simp)
      (Bytecode.isControl_of_isExit hexit)
    rcases hs a ha with hstraight | ⟨t, ht⟩
    · rw [hends.isStraight_eq_false] at hstraight
      cases hstraight
    · rw [ht] at hends
      cases hends
      cases hexit

/-- If the last effect does not go straight on, it ends the code. -/
theorem exists_last (hf : a.effect.Fits method) (hs : a.effect.isStraight = false)
    (h : emitAll ls (as ++ [a]) = .ok code) :
    ∃ front b, code = front ++ [b] ∧ a.effect.Ends b := by
  obtain ⟨c, d, -, hd, rfl⟩ := emitAll_append.mp h
  rcases (emits_of_bytecode (emitAll_singleton.mp hd)).control hf with
    ⟨hstraight, -⟩ | ⟨front, b, rfl, -, hb⟩
  · rw [hs] at hstraight
    cases hstraight
  · exact ⟨c ++ front, b, by simp, hb⟩

theorem not_runsOn_of_last (hf : a.effect.Fits method) (hs : a.effect.isStraight = false)
    (h : emitAll ls (as ++ [a]) = .ok code) (hexit : ∀ b, a.effect.Ends b → b.isExit = true) :
    ¬runsOn code = true := by
  obtain ⟨front, b, rfl, hb⟩ := exists_last hf hs h
  simp [runsOn_concat, hexit b hb]

theorem Walk.passes_of_conditional (h : (s.isa.kind i).isConditional = true) :
    passes s i = true := by
  cases hk : s.isa.kind i <;> simp_all [passes, InstructionKind.isConditional,
    InstructionKind.endsFlow, Graph.isFinalCall]

theorem Walk.not_passes_of_isFinalCall (h : Graph.isFinalCall s.helpers (s.isa.kind i) i = true) :
    ¬(passes s i = true ∨ s.isa.kind i = .trap) := by
  rintro (hp | ht)
  · simp [passes, h] at hp
  · rw [Graph.kind_of_isFinalCall h] at ht
    cases ht

/-- An instruction's code runs on if control passes through the instruction, or if it is a trap. -/
theorem runsOn_written (hemit : Emittable s) (hi : s.body[k]? = some i)
    (h : emitAll (run s).locals (written s k) = .ok code) :
    runsOn code = true ↔ passes s i = true ∨ s.isa.kind i = .trap := by
  have hfits : ∀ a ∈ written s k, a.effect.Fits s.method := fun a ha =>
    fits_of_mem hemit ((mem_actions_run hemit).mpr ⟨k, i, hi, ha⟩)
  have hadds := adds_recorded hi
  rw [written_eq hi] at h hfits
  generalize (recorded s k).effects = effects at h hfits hadds
  have hlead : ∀ a ∈ lead s i, ∃ t, a.effect = .label t := fun a ha =>
    ⟨i.address, by rw [(mem_lead.mp ha).1]⟩
  cases hadds with
  | silent hp _ =>
    refine iff_of_true (runsOn_of_straight hfits h fun a ha => ?_) hp.symm
    exact .inr (hlead a (by simpa using ha))
  | single hp _ hs _ =>
    refine iff_of_true (runsOn_of_straight hfits h fun a ha => ?_) (.inl hp)
    rcases List.mem_append.mp ha with ha | ha
    · exact .inr (hlead a ha)
    · rw [List.mem_singleton.mp ha]
      exact .inl hs
  | unmodeled =>
    obtain ⟨_, _, -, hcode, -⟩ := emitAll_append.mp h
    cases emitAll_singleton.mp hcode
  | branch hk _ =>
    obtain ⟨front, b, rfl, hends⟩ := exists_last (hfits _ (by simp)) rfl h
    refine iff_of_true ?_ (.inl (passes_of_conditional hk))
    rw [runsOn_concat]
    generalize s.isInside _ = inside at hends
    cases hends with
    | branch ht hbr =>
      cases b with
      | br t => exact absurd (congrArg Bytecode.br (Option.some.inj ht)) hbr
      | branch _ _ | brtrue _ | brfalse _ => rfl
      | _ => cases ht
  | jump hk _ =>
    refine iff_of_false (not_runsOn_of_last (hfits _ (by simp)) rfl h fun b hb => ?_) ?_
    · generalize s.isInside _ = inside at hb
      cases hb
      rfl
    · simp [passes, hk, InstructionKind.endsFlow]
  | tailCall hk =>
    rw [List.map_cons, List.map_singleton, List.append_cons] at h
    refine iff_of_false (not_runsOn_of_last (hfits _ (by simp)) rfl h fun b hb => ?_) ?_
    · cases hb
      rfl
    · simp [passes, hk, InstructionKind.endsFlow]
  | throw hfinal =>
    refine iff_of_false (not_runsOn_of_last (hfits _ (by simp)) rfl h fun b hb => ?_) ?_
    · cases hb
      rfl
    · exact not_passes_of_isFinalCall hfinal
  | throwNew hfinal =>
    refine iff_of_false (not_runsOn_of_last (hfits _ (by simp)) rfl h fun b hb => ?_) ?_
    · cases hb
      rfl
    · exact not_passes_of_isFinalCall hfinal
  | ret hk _ =>
    refine iff_of_false (not_runsOn_of_last (hfits _ (by simp)) rfl h fun b hb => ?_) ?_
    · cases hb
      rfl
    · simp [passes, hk, InstructionKind.endsFlow]

/-- The code of neighbours stands side by side. -/
theorem emitAll_neighbours (haddress : s.body.Pairwise fun i j => i.address < j.address)
    (hemit : Emittable s) (h : emitAll (run s).locals (run s).actions = .ok code)
    (hj : s.body[k + 1]? = some j) :
    ∃ before here next after, code = before ++ here ++ next ++ after ∧
      emitAll (run s).locals (written s k) = .ok here ∧
      emitAll (run s).locals (written s (k + 1)) = .ok next := by
  obtain ⟨later, hrun, -, -⟩ := layout haddress hemit hj
  rw [hrun, actions_upTo_succ hemit] at h
  obtain ⟨_, after, hfront, -, rfl⟩ := emitAll_append.mp h
  obtain ⟨_, next, hupto, hnext, rfl⟩ := emitAll_append.mp hfront
  obtain ⟨before, here, -, hhere, rfl⟩ := emitAll_append.mp hupto
  exact ⟨before, here, next, after, rfl, hhere, hnext⟩

end

/-- In an emittable body with increasing addresses, the code of an instruction stands before that of
its neighbour and runs on into it wherever native control falls from one into the other. It runs on
in no other place but where it slips, and so the two agree exactly where it does not. -/
theorem runsOn_iff_fallsInto (e : Environment) (session : Session) (job : Job)
    (haddress : (Analysis.run e session job).1.body.Pairwise fun i j => i.address < j.address)
    (hemit : (Analysis.run e session job).1.state = .emittable)
    (front back : List Instruction) (i j : Instruction)
    (hbody : (Analysis.run e session job).1.body = front ++ i :: j :: back) :
    let a := (Analysis.run e session job).1
    let isa := e.backend.toInstructionSet
    ∃ before code next after, a.bytecode = .ok (before ++ code ++ next ++ after) ∧
      emitAll a.locals (a.actions.filter fun x => x.address == i.address) = .ok code ∧
      emitAll a.locals (a.actions.filter fun x => x.address == j.address) = .ok next ∧
      (runsOn code = true ↔
        Graph.fallsInto isa e.helpers i j = true ∨ Graph.Slips isa e.helpers i j) ∧
      ((runsOn code = true ↔ Graph.fallsInto isa e.helpers i j = true) ↔
        ¬Graph.Slips isa e.helpers i j) := by
  intro a isa
  have hwalk := Analysis.emittable_walk hemit
  obtain ⟨hlocals, hactions, code, hcode, hall⟩ := Analysis.code_of_emittable hemit
  have hi : (Analysis.walked e session job).body[front.length]? = some i := by
    rw [show (Analysis.walked e session job).body = front ++ i :: j :: back from hbody]
    simp
  have hj : (Analysis.walked e session job).body[front.length + 1]? = some j := by
    rw [show (Analysis.walked e session job).body = front ++ i :: j :: back from hbody]
    simp
  rw [hlocals, hactions] at hall
  obtain ⟨before, here, next, after, rfl, hhere, hnext⟩ :=
    emitAll_neighbours haddress hwalk hall hj
  have hruns := (runsOn_written hwalk hi hhere).trans (passes_or_trap_iff i j)
  refine ⟨before, here, next, after, hcode, ?_, ?_, hruns, ?_⟩
  · rw [hlocals, hactions, actions_at haddress hwalk hi]
    exact hhere
  · rw [hlocals, hactions, actions_at haddress hwalk hj]
    exact hnext
  · constructor
    · intro hiff hslips
      exact Graph.not_slips_of_fallsInto (hiff.mp (hruns.mpr (.inr hslips))) hslips
    · exact fun hnot => hruns.trans (or_iff_left hnot)

/-- `static void Check(int a)`: return, unless `a` is zero; then control must not go on. -/
def trappingRows : List ListingRow :=
  [⟨0x1000, 2, "test", "ecx, ecx"⟩, ⟨0x1002, 2, "jne", "0x1005"⟩, ⟨0x1004, 1, "int3", ""⟩,
   ⟨0x1005, 1, "ret", ""⟩]

def trappingEnvironment : Environment where
  backend := .x64 (.ofListing .x64 trappingRows)
  image := .raw .x64 0x1000 (Array.replicate 6 0x90)
  table := ⟨[playerType], ∅⟩

def trappingJob : Job where
  address := 0x1000
  length := some 6
  method :=
    { token := 0, name := "Check", owner := playerType, isStatic := true
      returnType := .definition (TypeTable.supplied .void)
      parameters := [⟨"a", .definition (TypeTable.supplied .int32)⟩] }

/-- The trap and the instruction behind it. -/
def trap : Instruction := .ofText 0x1004 [0x90] "int3" ""

def behindTrap : Instruction := .ofText 0x1005 [0x90] "ret" ""

/-- The body is emitted, but its code runs past the trap into the return, where native control never
comes from there. -/
theorem runsOn_iff_fallsInto_trapping :
    (Analysis.run trappingEnvironment {} trappingJob).1.state = .emittable ∧
      ∃ before code next after,
        (Analysis.run trappingEnvironment {} trappingJob).1.bytecode =
          .ok (before ++ code ++ next ++ after) ∧
        emitAll (Analysis.run trappingEnvironment {} trappingJob).1.locals
          ((Analysis.run trappingEnvironment {} trappingJob).1.actions.filter fun x =>
            x.address == trap.address) = .ok code ∧
        runsOn code = true ∧
        Graph.fallsInto trappingEnvironment.backend.toInstructionSet trappingEnvironment.helpers
          trap behindTrap = false := by
  have hemit : (Analysis.run trappingEnvironment {} trappingJob).1.state = .emittable := by
    decide +kernel
  have hbody : (Analysis.run trappingEnvironment {} trappingJob).1.body =
      (Analysis.run trappingEnvironment {} trappingJob).1.body.take 2 ++
        trap :: behindTrap :: [] := by
    decide +kernel
  have hkind : trappingEnvironment.backend.toInstructionSet.kind trap = .trap := by
    decide +kernel
  obtain ⟨before, code, next, after, hcode, hhere, -, hruns, -⟩ :=
    runsOn_iff_fallsInto trappingEnvironment {} trappingJob (by decide +kernel) hemit _ _ _ _ hbody
  refine ⟨hemit, before, code, next, after, hcode, hhere, hruns.mpr (.inr (.inl hkind)), ?_⟩
  simp [Graph.fallsInto, hkind, InstructionKind.endsFlow]

end MethodLift
