import MethodLift.Proofs.ByteCoverage
import MethodLift.Proofs.DecodingWindow

/-!
# Recursive descent is closed and minimal

What a search finds is closed: the entry is in it, and so is every address with a byte to which one
of its instructions leads on (`Leads`): by falling through, as the target of a conditional branch or
as the target of a jump backwards. It is also minimal: every instruction in it is reached from the
entry in such steps, and in jumps forward that go no further than the target of a conditional branch
in it (`descend_closed_and_minimal`).

The search leaves a path where it meets an address it has seen, and a target may wait for long, so
closure is a statement about the frontier: whatever an instruction leads on to is found, waits in
the queue, is about to be read or cannot be read (`Descent.Accounted`). No step takes an address out
of this account, and at the end nothing waits.
-/

namespace MethodLift.Body

variable {isa : InstructionSet} {decoder : Decoder} {image : Image} {entry stop t : UInt64}
  {body body' : List Instruction} {i j : Instruction}

/-- Where control goes on from an instruction, in a search that starts at `entry`. -/
inductive Leads (isa : InstructionSet) (entry stop : UInt64) (i : Instruction) : UInt64 → Prop
  | fallThrough (h : (isa.kind i).endsFlow = false) : Leads isa entry stop i i.next
  | conditional {t : UInt64} (h : (isa.kind i).isConditional = true)
      (ht : forwardTarget? i entry stop = some t) : Leads isa entry stop i t
  | back {t : UInt64} (h : isa.kind i = .jump) (ht : forwardTarget? i entry stop = some t)
      (hle : t ≤ i.address) : Leads isa entry stop i t

/-- A jump to an address that lies no further than a conditional branch of the body goes. -/
structure LeadsInside (isa : InstructionSet) (entry stop : UInt64) (body : List Instruction)
    (i : Instruction) (t : UInt64) : Prop where
  jump : isa.kind i = .jump
  target : forwardTarget? i entry stop = some t
  inside : ∃ c ∈ body, (isa.kind c).isConditional = true ∧
    ∃ u, forwardTarget? c entry stop = some u ∧ t ≤ u

/-- The instructions of a body that are reached from its entry, by way of others of the body. -/
inductive Reached (isa : InstructionSet) (entry stop : UInt64) (body : List Instruction) :
    Instruction → Prop
  | entry {j : Instruction} (hj : j ∈ body) (h : j.address = entry) : Reached isa entry stop body j
  | step {i j : Instruction} (hi : Reached isa entry stop body i) (hj : j ∈ body)
      (h : Leads isa entry stop i j.address ∨ LeadsInside isa entry stop body i j.address) :
      Reached isa entry stop body j

/-- The addresses to which control comes from the entry, by way of instructions of the body. -/
def Arrives (isa : InstructionSet) (entry stop : UInt64) (body : List Instruction) (t : UInt64) :
    Prop :=
  t = entry ∨ ∃ i, Reached isa entry stop body i ∧
    (Leads isa entry stop i t ∨ LeadsInside isa entry stop body i t)

theorem Reached.of_arrives (hj : j ∈ body) (h : Arrives isa entry stop body j.address) :
    Reached isa entry stop body j := by
  rcases h with h | ⟨i, hi, hleads⟩
  · exact .entry hj h
  · exact .step hi hj hleads

theorem LeadsInside.mono (hsub : body ⊆ body') (h : LeadsInside isa entry stop body i t) :
    LeadsInside isa entry stop body' i t := by
  obtain ⟨c, hc, hinside⟩ := h.inside
  exact ⟨h.jump, h.target, c, hsub hc, hinside⟩

theorem Reached.mono (hsub : body ⊆ body') (h : Reached isa entry stop body i) :
    Reached isa entry stop body' i := by
  induction h with
  | entry hj h => exact .entry (hsub hj) h
  | step _ hj h ih => exact .step ih (hsub hj) (h.imp_right (.mono hsub))

theorem Arrives.mono (hsub : body ⊆ body') (h : Arrives isa entry stop body t) :
    Arrives isa entry stop body' t := by
  refine h.imp_right fun ⟨i, hi, hleads⟩ => ?_
  exact ⟨i, hi.mono hsub, hleads.imp_right (.mono hsub)⟩

namespace Descent

variable {d d' final : Descent} {address : UInt64}

/-- What was found so far. -/
def found (d : Descent) : List Instruction := d.seen.map (·.2)

theorem hasSeen_iff : d.hasSeen t = true ↔ ∃ e ∈ d.seen, e.1 = t := by
  simp [hasSeen]

theorem mem_queue_visit : t ∈ (d.visit isa entry stop address i).queue ↔
    t ∈ d.queue ∨ forwardTarget? i entry stop = some t ∧
      ((isa.kind i).isConditional = true ∨
        isa.kind i = .jump ∧ (t ≤ d.furthest ∨ t < address)) := by
  simp only [visit, List.mem_append, Option.mem_toList]
  refine or_congr_right ?_
  split
  next hconditional => simp [hconditional]
  next hconditional =>
    split
    next hjump =>
      have hjump : isa.kind i = .jump := by simpa using hjump
      rw [Option.filter_eq_some_iff]
      simp [hjump, InstructionKind.isConditional]
    next hjump =>
      have hjump : isa.kind i ≠ .jump := by simpa using hjump
      simp [hconditional, hjump]

theorem max_eq_or (a b : UInt64) : max a b = a ∨ max a b = b := by
  change (if a ≤ b then b else a) = a ∨ (if a ≤ b then b else a) = b
  split
  · exact .inr rfl
  · exact .inl rfl

theorem furthest_visit : (d.visit isa entry stop address i).furthest = d.furthest ∨
    (isa.kind i).isConditional = true ∧
      forwardTarget? i entry stop = some (d.visit isa entry stop address i).furthest := by
  simp only [visit]
  split
  next hconditional =>
    cases htarget : forwardTarget? i entry stop with
    | none => exact .inl rfl
    | some t =>
      rw [Option.map_some, Option.getD_some]
      rcases max_eq_or d.furthest t with hmax | hmax
      · exact .inl hmax
      · exact .inr ⟨hconditional, congrArg some hmax.symm⟩
  next => exact .inl rfl

/-- A visit adds its own instruction to what was seen, and nothing else. -/
theorem exists_seen_visit {p : UInt64 × Instruction → Prop} :
    (∃ e ∈ (d.visit isa entry stop address i).seen, p e) ↔
      p (address, i) ∨ ∃ e ∈ d.seen, p e := by
  simp only [visit, mem_insertByAddress, or_and_right, exists_or, exists_eq_left]

theorem mem_found_visit : j ∈ (d.visit isa entry stop address i).found ↔ j = i ∨ j ∈ d.found := by
  rw [found, found, List.mem_map, List.mem_map, exists_seen_visit, @eq_comm _ j i]

theorem hasSeen_visit : (d.visit isa entry stop address i).hasSeen t = true ↔
    t = address ∨ d.hasSeen t = true := by
  rw [hasSeen_iff, hasSeen_iff, exists_seen_visit, @eq_comm _ t address]

theorem step_eq_none (h : d.step isa decoder image entry stop = none) :
    d.cursor = none ∧ d.queue = [] := by
  unfold step at h
  split at h
  next =>
    split at h
    · cases h
    · split at h <;> cases h
  next hcursor =>
    split at h
    next hqueue => exact ⟨hcursor, hqueue⟩
    next => cases h

/-- What every step keeps holds at the end of the search, where nothing is left to do. -/
theorem Ends.induct {P : Descent → Prop} (h : Ends isa decoder image entry stop d final)
    (hstep : ∀ {d d'}, P d → d.step isa decoder image entry stop = some d' → P d') (hd : P d) :
    P final ∧ final.cursor = none ∧ final.queue = [] := by
  induction h with
  | done h => exact ⟨hd, step_eq_none h⟩
  | more h _ ih => exact ih (hstep hd h)

/-! ## Closure -/

/-- The search has found what is at an address, or will come to it, or cannot read it. -/
def Accounted (decoder : Decoder) (image : Image) (stop : UInt64) (d : Descent) (t : UInt64) :
    Prop :=
  d.hasSeen t = true ∨ t ∈ d.queue ∨ d.cursor = some t ∨ fetch? decoder image stop t = none

theorem accounted_step (h : d.Accounted decoder image stop t)
    (hstep : d.step isa decoder image entry stop = some d') :
    d'.Accounted decoder image stop t := by
  obtain ⟨a, hcursor, hdone, rfl⟩ | ⟨a, i, hcursor, -, -, rfl⟩ | ⟨a, rest, hcursor, hqueue, rfl⟩ :=
    step_cases hstep
  · rcases h with hseen | hqueue | hcursor' | hnone
    · exact .inl hseen
    · exact .inr (.inl hqueue)
    · cases hcursor.symm.trans hcursor'
      exact hdone.imp_right fun hnone => .inr (.inr hnone)
    · exact .inr (.inr (.inr hnone))
  · rcases h with hseen | hqueue | hcursor' | hnone
    · exact .inl (hasSeen_visit.mpr (.inr hseen))
    · exact .inr (.inl (mem_queue_visit.mpr (.inl hqueue)))
    · cases hcursor.symm.trans hcursor'
      exact .inl (hasSeen_visit.mpr (.inl rfl))
    · exact .inr (.inr (.inr hnone))
  · rcases h with hseen | hqueue' | hcursor' | hnone
    · exact .inl hseen
    · rw [hqueue] at hqueue'
      rcases List.mem_cons.mp hqueue' with rfl | hrest
      · exact .inr (.inr (.inl rfl))
      · exact .inr (.inl hrest)
    · cases hcursor.symm.trans hcursor'
    · exact .inr (.inr (.inr hnone))

/-- The entry and whatever an instruction leads on to are accounted for. -/
structure Closed (isa : InstructionSet) (decoder : Decoder) (image : Image) (entry stop : UInt64)
    (d : Descent) : Prop where
  first : d.Accounted decoder image stop entry
  leads : ∀ i ∈ d.found, ∀ t, Leads isa entry stop i t → d.Accounted decoder image stop t

theorem closed_start : Closed isa decoder image entry stop (start entry) where
  first := .inr (.inl (List.mem_singleton_self entry))
  leads := by simp [found, start]

/-- A visit accounts for all that the instruction leads on to. A jump to itself has been seen. -/
theorem accounted_visit (h : Leads isa entry stop i t) :
    (d.visit isa entry stop i.address i).Accounted decoder image stop t := by
  cases h with
  | fallThrough h => exact .inr (.inr (.inl (if_neg (by simp [h]))))
  | conditional h ht => exact .inr (.inl (mem_queue_visit.mpr (.inr ⟨ht, .inl h⟩)))
  | back h ht hle =>
    by_cases hself : t = i.address
    · exact .inl (hasSeen_visit.mpr (.inl hself))
    · have hlt : t < i.address := UInt64.lt_of_le_of_ne hle hself
      exact .inr (.inl (mem_queue_visit.mpr (.inr ⟨ht, .inr ⟨h, .inr hlt⟩⟩)))

theorem closed_step (hdecoder : decoder.IsFaithful) (h : Closed isa decoder image entry stop d)
    (hstep : d.step isa decoder image entry stop = some d') :
    Closed isa decoder image entry stop d' := by
  refine ⟨accounted_step h.first hstep, fun j hj t ht => ?_⟩
  have hold : j ∈ d.found → d'.Accounted decoder image stop t := fun hj =>
    accounted_step (h.leads j hj t ht) hstep
  obtain ⟨a, -, -, rfl⟩ | ⟨a, i, -, -, hfetch, rfl⟩ | ⟨a, rest, -, -, rfl⟩ := step_cases hstep
  · exact hold hj
  · rcases mem_found_visit.mp hj with rfl | hj
    · obtain ⟨rfl, -⟩ := fetch?_isIn hdecoder hfetch
      exact accounted_visit ht
    · exact hold hj
  · exact hold hj

/-! ## Minimality -/

/-- What was found is reached from the entry, and control arrives at whatever waits. -/
structure Traced (isa : InstructionSet) (entry stop : UInt64) (d : Descent) : Prop where
  found : ∀ i ∈ d.found, Reached isa entry stop d.found i
  queue : ∀ t ∈ d.queue, Arrives isa entry stop d.found t
  cursor : ∀ t ∈ d.cursor, Arrives isa entry stop d.found t
  furthest : d.furthest = entry ∨ ∃ c ∈ d.found, (isa.kind c).isConditional = true ∧
    forwardTarget? c entry stop = some d.furthest

theorem traced_start : Traced isa entry stop (start entry) where
  found := by simp [Descent.found, start]
  queue := by simp [start, Arrives]
  cursor := by simp [start]
  furthest := .inl rfl

/-- Control arrives at the target that a visit follows. A target no further than the entry, when no
conditional branch was met, is the entry itself. -/
theorem arrives_of_followed (h : Traced isa entry stop d) (hentry : entry ≤ i.address)
    (hi : Reached isa entry stop (d.visit isa entry stop i.address i).found i)
    (ht : forwardTarget? i entry stop = some t)
    (hfollowed : (isa.kind i).isConditional = true ∨
      isa.kind i = .jump ∧ (t ≤ d.furthest ∨ t < i.address)) :
    Arrives isa entry stop (d.visit isa entry stop i.address i).found t := by
  refine .inr ⟨i, hi, ?_⟩
  rcases hfollowed with hconditional | ⟨hjump, hle | hlt⟩
  · exact .inl (.conditional hconditional ht)
  · rcases h.furthest with hfurthest | ⟨c, hc, hconditional, htarget⟩
    · exact .inl (.back hjump ht (UInt64.le_trans (hfurthest ▸ hle) hentry))
    · exact .inr ⟨hjump, ht, c, mem_found_visit.mpr (.inr hc), hconditional, _, htarget, hle⟩
  · exact .inl (.back hjump ht (UInt64.le_of_lt hlt))

theorem traced_visit (h : Traced isa entry stop d) (hentry : entry ≤ i.address)
    (harrives : Arrives isa entry stop d.found i.address) :
    Traced isa entry stop (d.visit isa entry stop i.address i) := by
  have hsub : d.found ⊆ (d.visit isa entry stop i.address i).found :=
    fun j hj => mem_found_visit.mpr (.inr hj)
  have hi : Reached isa entry stop (d.visit isa entry stop i.address i).found i :=
    .of_arrives (mem_found_visit.mpr (.inl rfl)) (harrives.mono hsub)
  refine ⟨fun j hj => ?_, fun t ht => ?_, fun t ht => ?_, ?_⟩
  · rcases mem_found_visit.mp hj with rfl | hj
    · exact hi
    · exact (h.found j hj).mono hsub
  · rcases mem_queue_visit.mp ht with ht | ⟨ht, hfollowed⟩
    · exact (h.queue t ht).mono hsub
    · exact arrives_of_followed h hentry hi ht hfollowed
  · have hwalks : (isa.kind i).endsFlow = false ∧ t = i.next := by
      simp only [visit] at ht
      split at ht
      next => cases ht
      next hflow => exact ⟨by simpa using hflow, (Option.some.inj ht).symm⟩
    obtain ⟨hflow, rfl⟩ := hwalks
    exact .inr ⟨i, hi, .inl (.fallThrough hflow)⟩
  · rcases furthest_visit with hsame | ⟨hconditional, htarget⟩
    · rw [hsame]
      rcases h.furthest with hentry | ⟨c, hc, hbranch⟩
      · exact .inl hentry
      · exact .inr ⟨c, hsub hc, hbranch⟩
    · exact .inr ⟨i, mem_found_visit.mpr (.inl rfl), hconditional, htarget⟩

theorem traced_step (hdecoder : decoder.IsFaithful) (hinv : Invariant decoder image entry stop d)
    (h : Traced isa entry stop d) (hstep : d.step isa decoder image entry stop = some d') :
    Traced isa entry stop d' := by
  obtain ⟨a, -, -, rfl⟩ | ⟨a, i, hcursor, -, hfetch, rfl⟩ | ⟨a, rest, -, hqueue, rfl⟩ :=
    step_cases hstep
  · exact ⟨h.found, h.queue, by simp, h.furthest⟩
  · obtain ⟨rfl, -⟩ := fetch?_isIn hdecoder hfetch
    exact traced_visit h (hinv.cursor _ hcursor) (h.cursor _ hcursor)
  · have hwaiting : ∀ t ∈ a :: rest, Arrives isa entry stop d.found t := hqueue ▸ h.queue
    obtain ⟨ha, hrest⟩ := List.forall_mem_cons.mp hwaiting
    refine ⟨h.found, hrest, fun t ht => ?_, h.furthest⟩
    cases ht
    exact ha

/-- When nothing is left to do, what is accounted for and can be read has been found. -/
theorem mem_found_of_exhausted (hinv : Invariant decoder image entry stop d)
    (hcursor : d.cursor = none) (hqueue : d.queue = []) (h : d.Accounted decoder image stop t)
    (hfetch : fetch? decoder image stop t = some j) : j ∈ d.found := by
  rcases h with hseen | hwaits | hnext | hnone
  · obtain ⟨e, he, rfl⟩ := hasSeen_iff.mp hseen
    cases (hinv.fetched e he).2.symm.trans hfetch
    exact List.mem_map_of_mem he
  · rw [hqueue] at hwaits
    cases hwaits
  · cases hcursor.symm.trans hnext
  · cases hnone.symm.trans hfetch

end Descent

/-! ## The result of a search -/

section Final

variable {final : Descent} (hdecoder : decoder.IsFaithful)
  (hends : Descent.Ends isa decoder image entry stop (.start entry) final)
include hdecoder hends

theorem final_invariants :
    (Descent.Invariant decoder image entry stop final ∧
      Descent.Closed isa decoder image entry stop final ∧ Descent.Traced isa entry stop final) ∧
    final.cursor = none ∧ final.queue = [] := by
  refine Descent.Ends.induct (P := fun d => Descent.Invariant decoder image entry stop d ∧
    Descent.Closed isa decoder image entry stop d ∧ Descent.Traced isa entry stop d) hends ?_ ?_
  · intro d d' ⟨hinv, hclosed, htraced⟩ hstep
    exact ⟨Descent.invariant_step hdecoder hinv hstep, Descent.closed_step hdecoder hclosed hstep,
      Descent.traced_step hdecoder hinv htraced hstep⟩
  · exact ⟨Descent.invariant_start decoder image entry stop, Descent.closed_start,
      Descent.traced_start⟩

/-- At the end of a search, what is accounted for and can be read has been found. -/
theorem mem_found_of_accounted (h : final.Accounted decoder image stop t)
    (hfetch : fetch? decoder image stop t = some j) : j ∈ final.found := by
  obtain ⟨⟨hinv, -, -⟩, hcursor, hqueue⟩ := final_invariants hdecoder hends
  exact Descent.mem_found_of_exhausted hinv hcursor hqueue h hfetch

end Final

/-- A search comes to its end. What it finds has the entry if that can be decoded, has the
instruction at every address of the window with a byte to which one of its instructions leads on,
and has nothing that is not reached from the entry.

An address counts as mapped if the file has a byte there (`Image.byteAt?`), not only if it lies in a
segment (`Image.isMapped`). Reads give nothing where the file ends within a segment, the size of a
segment is meant to be that of the part in the file, and without a byte there is no instruction that
could be found. -/
theorem descend_closed_and_minimal (isa : InstructionSet) (hdecoder : decoder.IsFaithful)
    (image : Image) (entry cap : UInt64) :
    let stop := windowEnd entry cap
    let body := descend isa decoder image stop entry
    (∃ final, Descent.Ends isa decoder image entry stop (.start entry) final ∧
      body = final.seen.map (·.2)) ∧
    (∀ i, fetch? decoder image stop entry = some i → i ∈ body) ∧
    (∀ i ∈ body, ∀ t, Leads isa entry stop i t → t < stop → (image.byteAt? t).isSome = true →
      ∃ j ∈ body, j.address = t ∧ fetch? decoder image stop t = some j) ∧
    ∀ i ∈ body, Reached isa entry stop body i := by
  intro stop body
  obtain ⟨final, -, hends, hbody⟩ := exists_ends_descend isa hdecoder image stop entry
  obtain ⟨⟨-, hclosed, htraced⟩, -, -⟩ := final_invariants hdecoder hends
  have hfound : body = final.found := hbody
  rw [hfound]
  refine ⟨⟨final, hends, rfl⟩, fun i hi => ?_, fun i hi t hleads hstop hbyte => ?_, htraced.found⟩
  · exact mem_found_of_accounted hdecoder hends hclosed.first hi
  · have hreadable : fetch? decoder image stop t ≠ none := by
      rw [ne_eq, fetch?_eq_none_iff, not_or]
      exact ⟨UInt64.not_le.mpr hstop, Option.isSome_iff_ne_none.mp hbyte⟩
    obtain ⟨j, hj⟩ := Option.ne_none_iff_exists'.mp hreadable
    exact ⟨j, mem_found_of_accounted hdecoder hends (hclosed.leads i hi t hleads) hj,
      (fetch?_isIn hdecoder hj).1, hj⟩

/-- A jump forward over padding, inside a conditional branch, and a jump back to the entry:
`je 0x1007`, `jmp 0x1005`, `int3`, `jmp 0x1000`, `ret`, `int3`. -/
def leaping : Image :=
  .raw .x64 0x1000 #[0x74, 0x05, 0xEB, 0x01, 0xCC, 0xEB, 0xF9, 0xC3, 0xCC]

theorem descend_closed_and_minimal_leaping :
    let stop := windowEnd 0x1000 0x100
    let body := descend X64.isa Encoding.X64.decoder leaping stop 0x1000
    let back := Instruction.ofText 0x1005 [0xEB, 0xF9] "jmp" "0x1000"
    Encoding.X64.decoder.IsFaithful ∧
    body.map (·.address) = [0x1000, 0x1002, 0x1005, 0x1007] ∧
    back ∈ body ∧ Leads X64.isa 0x1000 stop back 0x1000 ∧
    (∃ j ∈ body, j.address = 0x1000 ∧ fetch? Encoding.X64.decoder leaping stop 0x1000 = some j) ∧
    ∀ i ∈ body, Reached X64.isa 0x1000 stop body i := by
  intro stop body back
  have hback : back ∈ body := by decide +kernel
  have hleads : Leads X64.isa 0x1000 stop back 0x1000 :=
    .back (by decide +kernel) (by decide +kernel) (by decide +kernel)
  obtain ⟨-, -, hclosed, hreached⟩ := descend_closed_and_minimal X64.isa
    Encoding.X64.isFaithful_decoder leaping 0x1000 0x100
  exact ⟨Encoding.X64.isFaithful_decoder, by decide +kernel, hback, hleads,
    hclosed back hback 0x1000 hleads (by decide +kernel) (by decide +kernel), hreached⟩

end MethodLift.Body
