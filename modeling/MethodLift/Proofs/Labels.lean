import MethodLift.Proofs.Blocks
import MethodLift.Proofs.Layout

/-!
# Labels and the branches to them

Labels are found before the walk, from the kinds and targets of all instructions; branches are
written during the walk, which takes a jump out of the body for a call. `LabelIntegrity` says that
the two agree in emitted code: a label stands wherever a branch goes to and nowhere else, it stands
there once, and it divides the code of lower addresses from that of its own address and above.

Both sides are compared with `Graph.branchTargets`: see `label_mem_iff` and `exists_branch_iff`.
-/

namespace MethodLift

open Walk

/-! ## The branches of a step -/

section

variable {s : Setting} {i : Instruction} {effects : List Effect} {e : Effect} {b : Bytecode}
  {t : UInt64}

/-- A branch in the code comes from a direct branch to an address of the body. -/
theorem Setting.Adds.target_of_ends (h : s.Adds i effects) (he : e ∈ effects) (hb : e.Ends b)
    (ht : b.target? = some t) :
    (s.isa.kind i).isDirectBranch = true ∧ i.target? = some t ∧ s.isInside t = true := by
  have hends := hb.isStraight_eq_false
  cases h with
  | silent => simp at he
  | single _ _ hs _ =>
    rw [List.mem_singleton.mp he, hs] at hends
    cases hends
  | branch hk hi =>
    cases List.mem_singleton.mp he
    generalize hin : s.isInside _ = inside at hb
    cases hb with
    | branch hbt _ =>
      obtain rfl := Option.some.inj (hbt.symm.trans ht)
      exact ⟨by simp [InstructionKind.isDirectBranch, hk], hi, hin⟩
  | jump hk hi =>
    cases List.mem_singleton.mp he
    generalize hin : s.isInside _ = inside at hb
    cases hb with
    | jump =>
      obtain rfl := Option.some.inj ht
      exact ⟨by simp [InstructionKind.isDirectBranch, hk], hi, hin⟩
  | tailCall _ _ _ hs _ _ =>
    rcases List.mem_cons.mp he with rfl | he
    · rw [hs] at hends
      cases hends
    · cases List.mem_singleton.mp he
      cases hb
      cases ht
  | unmodeled =>
    cases List.mem_singleton.mp he
    cases hb
  | throw _ | throwNew _ | ret _ _ =>
    cases List.mem_singleton.mp he
    cases hb
    cases ht

/-- A direct branch to an address of the body adds a branch there, unless it is not modeled. -/
theorem Setting.Adds.exists_branch (h : s.Adds i effects)
    (hd : (s.isa.kind i).isDirectBranch = true) (hi : i.target? = some t)
    (hin : s.isInside t = true)
    (hmodeled : ∀ instruction taint, .unmodeled instruction taint ∉ effects) :
    ∃ e ∈ effects, e.isStraight = false ∧ ∀ b, e.Ends b → b.target? = some t := by
  cases h with
  | silent _ hn =>
    rw [hd] at hn
    cases hn
  | single _ hn _ _ =>
    rw [hd] at hn
    cases hn
  | unmodeled => exact absurd (List.mem_singleton_self _) (hmodeled _ _)
  | branch _ ht =>
    obtain rfl := Option.some.inj (ht.symm.trans hi)
    refine ⟨_, List.mem_singleton_self _, rfl, fun b hb => ?_⟩
    rw [hin] at hb
    cases hb with
    | branch hbt _ => exact hbt
  | jump _ ht =>
    obtain rfl := Option.some.inj (ht.symm.trans hi)
    refine ⟨_, List.mem_singleton_self _, rfl, fun b hb => ?_⟩
    rw [hin] at hb
    cases hb with
    | jump => rfl
  | tailCall _ ht hout _ _ _ =>
    obtain rfl := Option.some.inj (ht.symm.trans hi)
    rw [hin] at hout
    cases hout
  | throw hfinal =>
    rw [Graph.kind_of_isFinalCall hfinal] at hd
    cases hd
  | throwNew hfinal =>
    rw [Graph.kind_of_isFinalCall hfinal] at hd
    cases hd
  | ret hk _ =>
    rw [hk] at hd
    cases hd

end

/-! ## Labels and branches in the code of a body -/

section

variable {s : Setting} {a : Action} {t : UInt64} {code : List Bytecode} (hemit : Emittable s)

include hemit

/-- A label action stands at its own address. -/
theorem address_of_label (ha : a ∈ (run s).actions) (he : a.effect = .label t) :
    a.address = t ∧ t ∈ Graph.branchTargets s.isa s.body := by
  obtain ⟨k, i, hi, ha⟩ := (mem_actions_run hemit).mp ha
  rw [written_eq hi] at ha
  rcases List.mem_append.mp ha with ha | ha
  · obtain ⟨rfl, ht⟩ := mem_lead.mp ha
    cases he
    exact ⟨rfl, ht⟩
  · obtain ⟨e, hmem, rfl⟩ := List.mem_map.mp ha
    exact absurd he ((adds_recorded hi).ne_label hmem t)

theorem label_of_mem {as : List Action} (hsub : ∀ a ∈ as, a ∈ (run s).actions)
    (h : emitAll (run s).locals as = .ok code) (hb : .label t ∈ code) :
    ∃ a ∈ as, a.effect = .label t := by
  obtain ⟨a, ha, hends⟩ := ends_of_mem (fun a ha => fits_of_mem hemit (hsub a ha)) h hb rfl
  exact ⟨a, ha, hends.eq_label⟩

variable (h : emitAll (run s).locals (run s).actions = .ok code)

include h

/-- Labels stand at the branch targets of the body. -/
theorem label_mem_iff : .label t ∈ code ↔ t ∈ Graph.branchTargets s.isa s.body := by
  constructor
  · intro hb
    obtain ⟨a, ha, he⟩ := label_of_mem hemit (fun _ ha => ha) h hb
    exact (address_of_label hemit ha he).2
  · intro ht
    obtain ⟨-, j, hj, rfl⟩ := Graph.mem_branchTargets.mp ht
    obtain ⟨k, hk⟩ := List.mem_iff_getElem?.mp hj
    have hlead : ⟨j.address, .label j.address⟩ ∈ (run s).actions := by
      refine (mem_actions_run hemit).mpr ⟨k, j, hk, ?_⟩
      rw [written_eq hk]
      exact List.mem_append_left _ (mem_lead.mpr ⟨rfl, ht⟩)
    obtain ⟨b, hb, hends⟩ := exists_ends (fun a ha => fits_of_mem hemit ha) h hlead rfl
    cases hends
    exact hb

/-- Branches go to the branch targets of the body, and to each of them. -/
theorem exists_branch_iff :
    (∃ b ∈ code, b.target? = some t) ↔ t ∈ Graph.branchTargets s.isa s.body := by
  constructor
  · rintro ⟨b, hb, ht⟩
    obtain ⟨a, ha, hends⟩ := ends_of_mem (fun a ha => fits_of_mem hemit ha) h hb
      (Bytecode.isControl_of_target? ht)
    obtain ⟨k, i, hi, ha⟩ := (mem_actions_run hemit).mp ha
    rw [written_eq hi] at ha
    rcases List.mem_append.mp ha with ha | ha
    · obtain ⟨rfl, -⟩ := mem_lead.mp ha
      cases hends
      cases ht
    · obtain ⟨e, he, rfl⟩ := List.mem_map.mp ha
      obtain ⟨hd, htarget, hin⟩ := (adds_recorded hi).target_of_ends he hends ht
      obtain ⟨j, hj, haddress⟩ := List.any_eq_true.mp hin
      exact Graph.mem_branchTargets.mpr
        ⟨⟨i, List.mem_of_getElem? hi, hd, htarget⟩, j, hj, by simpa using haddress⟩
  · intro ht
    obtain ⟨⟨i, hmem, hd, htarget⟩, j, hj, hjt⟩ := Graph.mem_branchTargets.mp ht
    obtain ⟨k, hi⟩ := List.mem_iff_getElem?.mp hmem
    have hin : s.isInside t = true := List.any_eq_true.mpr ⟨j, hj, by simpa using hjt⟩
    have hmodeled : ∀ instruction taint,
        .unmodeled instruction taint ∉ (recorded s k).effects := by
      intro instruction taint he
      obtain ⟨c, hc⟩ := hemit _ (recorded_mem hi he)
      cases except_mapError_eq_ok.mp hc
    obtain ⟨e, he, hs, hends⟩ := (adds_recorded hi).exists_branch hd htarget hin hmodeled
    obtain ⟨b, hb, heb⟩ :=
      exists_ends (fun a ha => fits_of_mem hemit ha) h (recorded_mem hi he) hs
    exact ⟨b, hb, hends b heb⟩

/-- The place of a label: lower addresses before it, its own and higher ones behind it, and no other
label of that address on either side. -/
theorem label_placed (haddress : s.body.Pairwise fun i j => i.address < j.address)
    (ht : t ∈ Graph.branchTargets s.isa s.body) :
    ∃ before after front back, (run s).actions = before ++ ⟨t, .label t⟩ :: after ∧
      (∀ a ∈ before, a.address < t) ∧ (∀ a ∈ after, t ≤ a.address) ∧
      emitAll (run s).locals before = .ok front ∧ emitAll (run s).locals after = .ok back ∧
      code = front ++ .label t :: back ∧ .label t ∉ front ∧ .label t ∉ back := by
  obtain ⟨-, j, hj, rfl⟩ := Graph.mem_branchTargets.mp ht
  obtain ⟨k, hk⟩ := List.mem_iff_getElem?.mp hj
  obtain ⟨later, hrun, hbefore, hlater⟩ := layout haddress hemit hk
  have hlead : lead s j = [⟨j.address, .label j.address⟩] := by
    simp [lead, ht]
  have hsplit : (run s).actions = (upTo s k).actions ++ ⟨j.address, .label j.address⟩ ::
      ((recorded s k).effects.map (Action.mk j.address) ++ later) := by
    rw [hrun, written_eq hk, hlead]
    simp
  have hemitted := h
  rw [hsplit] at hemitted
  obtain ⟨front, rest, hfront, hrest, rfl⟩ := emitAll_append.mp hemitted
  obtain ⟨first, back, hfirst, hback, rfl⟩ := emitAll_cons.mp hrest
  cases hfirst
  have hsub : ∀ a, a ∈ (upTo s k).actions ∨
      a ∈ (recorded s k).effects.map (Action.mk j.address) ++ later → a ∈ (run s).actions := by
    intro a ha
    rw [hsplit]
    rcases ha with ha | ha
    · exact List.mem_append_left _ ha
    · exact List.mem_append_right _ (List.mem_cons_of_mem _ ha)
  refine ⟨_, _, front, back, hsplit, hbefore, fun a ha => ?_, hfront, hback, rfl, fun hmem => ?_,
    fun hmem => ?_⟩
  · rcases List.mem_append.mp ha with ha | ha
    · obtain ⟨e, -, rfl⟩ := List.mem_map.mp ha
      exact UInt64.le_refl _
    · exact UInt64.le_of_lt (hlater a ha)
  · obtain ⟨a, ha, he⟩ := label_of_mem hemit (fun a ha => hsub a (.inl ha)) hfront hmem
    exact UInt64.ne_of_lt (hbefore a ha) (address_of_label hemit (hsub a (.inl ha)) he).1
  · obtain ⟨a, ha, he⟩ := label_of_mem hemit (fun a ha => hsub a (.inr ha)) hback hmem
    rcases List.mem_append.mp ha with hstep | halater
    · obtain ⟨e, heffect, rfl⟩ := List.mem_map.mp hstep
      exact (adds_recorded hk).ne_label heffect _ he
    · exact UInt64.ne_of_lt (hlater a halater) (address_of_label hemit (hsub a (.inr ha)) he).1.symm

end

/-! ## Whole bodies -/

/-- Labels and branches agree in the code of `actions`, which were written for `body`. -/
structure LabelIntegrity (body : List Instruction) (ls : Locals) (actions : List Action)
    (code : List Bytecode) : Prop where
  /-- A branch goes to an address exactly if that has a label. -/
  targets : ∀ t, (∃ b ∈ code, b.target? = some t) ↔ .label t ∈ code
  once : ∀ t, .label t ∈ code → code.count (.label t) = 1
  decoded : ∀ t, .label t ∈ code → ∃ i ∈ body, i.address = t
  /-- Before a label stands the code of lower addresses, behind it that of its own and higher
  ones. -/
  placed : ∀ t, .label t ∈ code →
    ∃ before after front back, actions = before ++ ⟨t, .label t⟩ :: after ∧
      (∀ a ∈ before, a.address < t) ∧ (∀ a ∈ after, t ≤ a.address) ∧
      emitAll ls before = .ok front ∧ emitAll ls after = .ok back ∧
      code = front ++ .label t :: back

theorem Walk.labelIntegrity {s : Setting} {code : List Bytecode} (hemit : Emittable s)
    (haddress : s.body.Pairwise fun i j => i.address < j.address)
    (h : emitAll (run s).locals (run s).actions = .ok code) :
    LabelIntegrity s.body (run s).locals (run s).actions code where
  targets t := (exists_branch_iff hemit h).trans (label_mem_iff hemit h).symm
  once t ht := by
    obtain ⟨_, _, front, back, -, -, -, -, -, rfl, hfront, hback⟩ :=
      label_placed hemit h haddress ((label_mem_iff hemit h).mp ht)
    rw [List.count_append, List.count_cons_self, List.count_eq_zero.mpr hfront,
      List.count_eq_zero.mpr hback]
  decoded t ht := (Graph.mem_branchTargets.mp ((label_mem_iff hemit h).mp ht)).2
  placed t ht := by
    obtain ⟨before, after, front, back, hsplit, hbefore, hafter, hfront, hback, hcode, -, -⟩ :=
      label_placed hemit h haddress ((label_mem_iff hemit h).mp ht)
    exact ⟨before, after, front, back, hsplit, hbefore, hafter, hfront, hback, hcode⟩

/-- In the code of an emittable body with increasing addresses, labels and branches agree. -/
theorem run_labelIntegrity (e : Environment) (session : Session) (job : Job)
    (haddress : (Analysis.run e session job).1.body.Pairwise fun i j => i.address < j.address)
    (hemit : (Analysis.run e session job).1.state = .emittable) :
    ∃ code, (Analysis.run e session job).1.bytecode = .ok code ∧
      LabelIntegrity (Analysis.run e session job).1.body (Analysis.run e session job).1.locals
        (Analysis.run e session job).1.actions code := by
  obtain ⟨hlocals, hactions, code, hcode, hall⟩ := Analysis.code_of_emittable hemit
  refine ⟨code, hcode, ?_⟩
  rw [hlocals, hactions] at hall ⊢
  exact labelIntegrity (Analysis.emittable_walk hemit) haddress hall

/-- The loop of `escapingJob` has a label at its head and one behind it. -/
theorem run_labelIntegrity_escaping :
    (Analysis.run escapingEnvironment {} escapingJob).1.state = .emittable ∧
      ∃ code, (Analysis.run escapingEnvironment {} escapingJob).1.bytecode = .ok code ∧
        .label 0x1002 ∈ code ∧ .label 0x1016 ∈ code ∧
        LabelIntegrity (Analysis.run escapingEnvironment {} escapingJob).1.body
          (Analysis.run escapingEnvironment {} escapingJob).1.locals
          (Analysis.run escapingEnvironment {} escapingJob).1.actions code := by
  have hemit : (Analysis.run escapingEnvironment {} escapingJob).1.state = .emittable := by
    decide +kernel
  have hlabels : ∀ code, (Analysis.run escapingEnvironment {} escapingJob).1.bytecode = .ok code →
      .label 0x1002 ∈ code ∧ .label 0x1016 ∈ code := by
    have hall : (Analysis.run escapingEnvironment {} escapingJob).1.bytecode.toOption.all
        (fun code => code.contains (.label 0x1002) && code.contains (.label 0x1016)) = true := by
      decide +kernel
    intro code hcode
    rw [hcode] at hall
    simpa [Except.toOption] using hall
  obtain ⟨code, hcode, hintegrity⟩ := run_labelIntegrity escapingEnvironment {} escapingJob
    (by decide +kernel) hemit
  obtain ⟨hhead, hexit⟩ := hlabels code hcode
  exact ⟨hemit, code, hcode, hhead, hexit, hintegrity⟩

end MethodLift
