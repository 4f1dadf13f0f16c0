import Mathlib.Data.List.Induction
import MethodLift.Proofs.ByteCoverage
import MethodLift.Proofs.DecodingWindow

/-!
# Where a linear sweep ends

A sweep of unknown length ends at an instruction that ends flow once no target counts that lies at
or beyond its end. The target of a conditional branch counts, and that of a jump while another one
that counts lies at or beyond the end of the jump (`counted`). The sweep itself keeps the targets it
has not walked past (`awaited`), and `sweepFrom_split` says when it goes on behind an instruction.

It never ends too early: what counts and has not been reached is awaited (`mem_awaited_of_counted`),
so a body that ends before the window and the bytes do has reached every target of its conditional
branches (`sweep_reaches_targets`).

It may end too late. A jump is met while its own address is still awaited, and then its target is
taken as if something were pending behind it (`IsLanding`). Nothing else makes a sweep run on
(`sweep_ends_iff`).

Where the sweep has no body, its loop goes on forever, and only there (`sweepFrom_eq_some_iff`).
-/

namespace MethodLift.Body

variable {isa : InstructionSet} {decoder : Decoder} {image : Image} {start stop address t : UInt64}
  {pending : List UInt64} {i j : Instruction} {is before after : List Instruction}

/-- Where a sweep stands after some instructions. -/
def resume (start : UInt64) : List Instruction → UInt64
  | [] => start
  | i :: is => resume i.next is

/-- The targets a sweep waits for after some instructions, if it waited for `pending` before. -/
def awaited (isa : InstructionSet) (stop : UInt64) (pending : List UInt64)
    (is : List Instruction) : List UInt64 :=
  is.foldl (fun pending i => pendingAfter (isa.kind i) i stop pending) pending

/-- The targets that count once `i` has been read as well. -/
def countedAfter (isa : InstructionSet) (stop : UInt64) (counted : List UInt64) (i : Instruction) :
    List UInt64 :=
  let kind := isa.kind i
  if kind.isConditional || (kind == .jump && counted.any fun t => decide (i.next ≤ t)) then
    counted ++ (forwardTarget? i i.next stop).toList
  else counted

/-- The forward targets in the window that count among some instructions: those of conditional
branches, and that of a jump while one counted before lies at or beyond the end of the jump. -/
def counted (isa : InstructionSet) (stop : UInt64) (is : List Instruction) : List UInt64 :=
  is.foldl (countedAfter isa stop) []

@[simp] theorem resume_concat : resume start (is ++ [i]) = i.next := by
  induction is generalizing start with
  | nil => rfl
  | cons j is ih => exact ih

theorem awaited_concat : awaited isa stop pending (is ++ [i]) =
    pendingAfter (isa.kind i) i stop (awaited isa stop pending is) := by
  simp [awaited]

theorem mem_pendingAfter {kind : InstructionKind} : t ∈ pendingAfter kind i stop pending ↔
    i.next ≤ t ∧ (t ∈ pending ∨ forwardTarget? i i.next stop = some t ∧
      (kind.isConditional = true ∨ kind = .jump ∧ pending ≠ [])) := by
  rw [pendingAfter, List.mem_filter, and_comm, decide_eq_true_eq]
  refine and_congr_right fun _ => ?_
  split
  next hcounts =>
    have hcounts : kind.isConditional = true ∨ kind = .jump ∧ pending ≠ [] := by
      simpa [List.isEmpty_iff] using hcounts
    simp [hcounts, or_comm]
  next hcounts =>
    have hcounts : ¬ (kind.isConditional = true ∨ kind = .jump ∧ pending ≠ []) := by
      simpa [List.isEmpty_iff] using hcounts
    simp [hcounts]

theorem mem_counted_concat : t ∈ counted isa stop (is ++ [i]) ↔
    t ∈ counted isa stop is ∨ forwardTarget? i i.next stop = some t ∧
      ((isa.kind i).isConditional = true ∨
        isa.kind i = .jump ∧ ∃ u ∈ counted isa stop is, i.next ≤ u) := by
  have hconcat : counted isa stop (is ++ [i]) = countedAfter isa stop (counted isa stop is) i := by
    simp [counted]
  rw [hconcat, countedAfter]
  split
  next hcounts =>
    have hcounts : (isa.kind i).isConditional = true ∨
        isa.kind i = .jump ∧ ∃ u ∈ counted isa stop is, i.next ≤ u := by simpa using hcounts
    simp [hcounts]
  next hcounts =>
    have hcounts : ¬ ((isa.kind i).isConditional = true ∨
        isa.kind i = .jump ∧ ∃ u ∈ counted isa stop is, i.next ≤ u) := by simpa using hcounts
    simp only [hcounts, and_false, or_false]

/-! ## When a sweep goes on -/

theorem sweepFrom_eq_nil (h : sweepFrom isa decoder image stop pending address = some []) :
    fetch? decoder image stop address = none := by
  obtain ⟨hnone, -⟩ | ⟨i, -, -, -, heq⟩ | ⟨i, rest, -, -, -, -, heq⟩ := sweepFrom_cases h
  · exact hnone
  · cases heq
  · cases heq

theorem eq_nil_of_fetch? (h : sweepFrom isa decoder image stop pending address = some is)
    (hnone : fetch? decoder image stop address = none) : is = [] := by
  obtain ⟨-, hnil⟩ | ⟨i, hfetch, -⟩ | ⟨i, rest, hfetch, -⟩ := sweepFrom_cases h
  · exact hnil
  · cases hnone.symm.trans hfetch
  · cases hnone.symm.trans hfetch

/-- Behind an instruction of a sweep nothing follows in two cases only: it ends flow with nothing
awaited, or there is nothing to fetch at its end. -/
theorem sweepFrom_split
    (h : sweepFrom isa decoder image stop pending address = some (before ++ i :: after)) :
    after = [] ↔
      ((isa.kind i).endsFlow = true ∧ awaited isa stop pending (before ++ [i]) = []) ∨
        fetch? decoder image stop i.next = none := by
  induction before generalizing pending address with
  | nil =>
    obtain ⟨-, hnil⟩ | ⟨j, -, hends, hpending, heq⟩ | ⟨j, rest, -, hgoes, -, hrest, heq⟩ :=
      sweepFrom_cases h
    · cases hnil
    · cases heq
      exact iff_of_true rfl (.inl ⟨hends, hpending⟩)
    · cases heq
      constructor
      · rintro rfl
        exact .inr (sweepFrom_eq_nil hrest)
      · rintro (⟨hends, hpending⟩ | hnone)
        · exact absurd hpending (hgoes hends)
        · exact eq_nil_of_fetch? hrest hnone
  | cons b before ih =>
    obtain ⟨-, hnil⟩ | ⟨j, -, -, -, heq⟩ | ⟨j, rest, -, -, -, hrest, heq⟩ := sweepFrom_cases h
    · cases hnil
    · simp at heq
    · cases heq
      exact ih hrest

/-- A sweep moves forward with every instruction that another one follows. -/
theorem resume_lt_next
    (h : sweepFrom isa decoder image stop pending address = some (before ++ i :: j :: after)) :
    resume address before < i.next := by
  induction before generalizing pending address with
  | nil =>
    obtain ⟨-, hnil⟩ | ⟨k, -, -, -, heq⟩ | ⟨k, rest, -, -, hlt, -, heq⟩ := sweepFrom_cases h
    · cases hnil
    · cases heq
    · cases heq
      exact hlt
  | cons b before ih =>
    obtain ⟨-, hnil⟩ | ⟨k, -, -, -, heq⟩ | ⟨k, rest, -, -, -, hrest, heq⟩ := sweepFrom_cases h
    · cases hnil
    · simp at heq
    · cases heq
      exact ih hrest

/-! ## What is awaited and what counts -/

/-- A jump with a forward target that is itself awaited, with nothing that counts beyond it. -/
structure IsLanding (isa : InstructionSet) (start stop : UInt64) (before : List Instruction)
    (j : Instruction) : Prop where
  jump : isa.kind j = .jump
  leads : (forwardTarget? j j.next stop).isSome = true
  reached : ∃ t ∈ counted isa stop before, resume start before ≤ t
  passed : ∀ t ∈ counted isa stop before, t < j.next

/-- An instruction that ends flow, with nothing that counts at or beyond its end. -/
structure IsEnd (isa : InstructionSet) (stop : UInt64) (before : List Instruction)
    (i : Instruction) : Prop where
  endsFlow : (isa.kind i).endsFlow = true
  passed : ∀ t ∈ counted isa stop (before ++ [i]), t < i.next

/-- What counts is awaited until the sweep has walked past it, if it never turns back. -/
theorem mem_awaited_of_counted
    (hforward : ∀ before i after, is = before ++ i :: after → resume start before ≤ i.next)
    (ht : t ∈ counted isa stop is) (hle : resume start is ≤ t) : t ∈ awaited isa stop [] is := by
  -- From the back, since what counts is decided by the instructions before.
  induction is using List.reverseRecOn generalizing t with
  | nil => cases ht
  | append_singleton is i ih =>
    have hnext : resume start is ≤ i.next := hforward is i [] rfl
    have hforward : ∀ before j after, is = before ++ j :: after → resume start before ≤ j.next :=
      fun before j after his => hforward before j (after ++ [i]) (by simp [his])
    rw [resume_concat] at hle
    rw [awaited_concat, mem_pendingAfter]
    refine ⟨hle, ?_⟩
    rcases mem_counted_concat.mp ht with ht | ⟨htarget, hconditional | ⟨hjump, u, hu, hbeyond⟩⟩
    · exact .inl (ih hforward ht (UInt64.le_trans hnext hle))
    · exact .inr ⟨htarget, .inl hconditional⟩
    · have hpending := ih hforward hu (UInt64.le_trans hnext hbeyond)
      exact .inr ⟨htarget, .inr ⟨hjump, List.ne_nil_of_mem hpending⟩⟩

/-- Where no jump lands, nothing is awaited but what counts. -/
theorem counted_of_mem_awaited
    (hlanding : ∀ before j after, is = before ++ j :: after → ¬ IsLanding isa start stop before j)
    (ht : t ∈ awaited isa stop [] is) : t ∈ counted isa stop is ∧ resume start is ≤ t := by
  induction is using List.reverseRecOn generalizing t with
  | nil => cases ht
  | append_singleton is i ih =>
    have hnot : ¬ IsLanding isa start stop is i := hlanding is i [] rfl
    have hlanding : ∀ before j after, is = before ++ j :: after →
        ¬ IsLanding isa start stop before j :=
      fun before j after his => hlanding before j (after ++ [i]) (by simp [his])
    rw [awaited_concat, mem_pendingAfter] at ht
    rw [resume_concat, mem_counted_concat]
    obtain ⟨hle, ht | ⟨htarget, hconditional | ⟨hjump, hpending⟩⟩⟩ := ht
    · exact ⟨.inl (ih hlanding ht).1, hle⟩
    · exact ⟨.inr ⟨htarget, .inl hconditional⟩, hle⟩
    · refine ⟨.inr ⟨htarget, .inr ⟨hjump, ?_⟩⟩, hle⟩
      -- Something is awaited where the jump stands; if it were not beyond, the jump would land.
      by_contra hnone
      obtain ⟨u, hu⟩ := List.exists_mem_of_ne_nil _ hpending
      exact hnot ⟨hjump, by simp [htarget], ⟨u, ih hlanding hu⟩, fun v hv =>
        UInt64.not_le.mp fun hbeyond => hnone ⟨v, hv, hbeyond⟩⟩

/-! ## A sweep runs on behind landings only -/

theorem IsLanding.isEnd (h : IsLanding isa start stop before j) : IsEnd isa stop before j where
  endsFlow := by rw [h.jump]; rfl
  passed := by
    intro t ht
    rcases mem_counted_concat.mp ht with ht | ⟨-, hconditional | ⟨-, u, hu, hbeyond⟩⟩
    · exact h.passed t ht
    · rw [h.jump] at hconditional
      cases hconditional
    · exact absurd (h.passed u hu) (UInt64.not_lt.mpr hbeyond)

theorem eq_nil_of_isEnd (hbody : sweep isa decoder image stop start = some (before ++ i :: after))
    (hlanding : ∀ earlier j later, before ++ [i] = earlier ++ j :: later →
      ¬ IsLanding isa start stop earlier j)
    (hend : IsEnd isa stop before i) : after = [] := by
  refine (sweepFrom_split hbody).mpr (.inl ⟨hend.endsFlow, List.eq_nil_iff_forall_not_mem.mpr ?_⟩)
  intro t ht
  obtain ⟨hcounted, hle⟩ := counted_of_mem_awaited hlanding ht
  rw [resume_concat] at hle
  exact absurd (hend.passed t hcounted) (UInt64.not_lt.mpr hle)

/-- Up to any of its instructions, a sweep moves forward. -/
theorem resume_le_next (hbody : sweep isa decoder image stop start = some (before ++ i :: after)) :
    ∀ earlier j later, before = earlier ++ j :: later → resume start earlier ≤ j.next := by
  rintro earlier j later rfl
  rw [List.append_assoc, List.cons_append] at hbody
  cases later with
  | nil => exact UInt64.le_of_lt (resume_lt_next hbody)
  | cons k later => exact UInt64.le_of_lt (resume_lt_next hbody)

/-- Behind a landing a sweep goes on as long as there is a byte. -/
theorem IsLanding.eq_nil_iff (h : IsLanding isa start stop before j)
    (hbody : sweep isa decoder image stop start = some (before ++ j :: after)) :
    after = [] ↔ image.byteAt? j.next = none := by
  obtain ⟨t, ht⟩ := Option.isSome_iff_exists.mp h.leads
  obtain ⟨u, hu, hreached⟩ := h.reached
  have hpending : u ∈ awaited isa stop [] before :=
    mem_awaited_of_counted (resume_le_next hbody) hu hreached
  have htaken : t ∈ awaited isa stop [] (before ++ [j]) := by
    rw [awaited_concat, mem_pendingAfter]
    exact ⟨(bounds_of_forwardTarget? ht).1,
      .inr ⟨ht, .inr ⟨h.jump, List.ne_nil_of_mem hpending⟩⟩⟩
  have hgoes : ¬ ((isa.kind j).endsFlow = true ∧ awaited isa stop [] (before ++ [j]) = []) :=
    fun hends => List.ne_nil_of_mem htaken hends.2
  have hwindow : ¬ stop ≤ j.next := by
    obtain ⟨hle, hstop⟩ := bounds_of_forwardTarget? ht
    exact UInt64.not_le.mpr (UInt64.lt_of_le_of_lt hle hstop)
  rw [sweepFrom_split hbody, or_iff_right hgoes, fetch?_eq_none_iff, or_iff_right hwindow]

/-- A body ends at the first instruction that ends flow with nothing that counts at or beyond its
end, unless a jump lands in it with a byte behind. -/
theorem sweep_ends_iff (isa : InstructionSet) (decoder : Decoder) (image : Image)
    (start cap : UInt64) (body : List Instruction)
    (hbody : sweep isa decoder image (windowEnd start cap) start = some body) :
    let stop := windowEnd start cap
    (∀ before i after, body = before ++ i :: after → IsEnd isa stop before i → after = []) ↔
      ∀ before j after, body = before ++ j :: after → IsLanding isa start stop before j →
        image.byteAt? j.next = none := by
  intro stop
  constructor
  · rintro hends before j after rfl hlanding
    exact (hlanding.eq_nil_iff hbody).mp (hends before j after rfl hlanding.isEnd)
  · rintro hlandings before i after rfl hend
    by_contra hafter
    refine hafter (eq_nil_of_isEnd hbody (fun earlier j later hsplit hlanding => ?_) hend)
    have hwhole : before ++ i :: after = earlier ++ j :: (later ++ after) := by
      rw [List.append_cons, hsplit, List.append_assoc, List.cons_append]
    have hnil := (hlanding.eq_nil_iff (hwhole ▸ hbody)).mpr (hlandings _ _ _ hwhole hlanding)
    exact hafter (List.append_eq_nil_iff.mp hnil).2

/-- A call that is made on a condition, then a jump to the next function: `test ecx, ecx`,
`je 0x1009`, `call 0x2000`, `jmp 0x1010`, five bytes of padding, `xor eax, eax`, `ret`. -/
def tailCalling : Image :=
  .raw .x64 0x1000 #[0x85, 0xC9, 0x74, 0x05, 0xE8, 0xF7, 0x0F, 0x00, 0x00, 0xEB, 0x05,
    0xCC, 0xCC, 0xCC, 0xCC, 0xCC, 0x31, 0xC0, 0xC3]

/-- The branch over the call lands at the jump, and the next function is dragged into the body. -/
theorem sweep_ends_iff_tailCalling :
    let stop := windowEnd 0x1000 0x10000
    let jump := Instruction.ofText 0x1009 [0xEB, 0x05] "jmp" "0x1010"
    ∃ before after,
      sweep X64.isa Encoding.X64.decoder tailCalling stop 0x1000 =
        some (before ++ jump :: after) ∧ before.length = 3 ∧ after.length = 7 ∧
      IsLanding X64.isa 0x1000 stop before jump ∧ tailCalling.byteAt? jump.next = some 0xCC ∧
      ¬ ∀ front i back, before ++ jump :: after = front ++ i :: back →
        IsEnd X64.isa stop front i → back = [] := by
  intro stop jump
  let body := (sweep X64.isa Encoding.X64.decoder tailCalling stop 0x1000).getD []
  have hbody : sweep X64.isa Encoding.X64.decoder tailCalling stop 0x1000 =
      some (body.take 3 ++ jump :: body.drop 4) := by decide +kernel
  have hcounted : counted X64.isa stop (body.take 3) = [0x1009] := by decide +kernel
  have hbyte : tailCalling.byteAt? jump.next = some 0xCC := by decide +kernel
  have hlanding : IsLanding X64.isa 0x1000 stop (body.take 3) jump := by
    refine ⟨by decide +kernel, by decide +kernel, ⟨0x1009, ?_, by decide +kernel⟩, ?_⟩
    · rw [hcounted]
      exact List.mem_singleton_self _
    · rw [hcounted, List.forall_mem_singleton]
      decide +kernel
  refine ⟨body.take 3, body.drop 4, hbody, by decide +kernel, by decide +kernel, hlanding, hbyte,
    fun hends => ?_⟩
  have hnone := (sweep_ends_iff X64.isa Encoding.X64.decoder tailCalling 0x1000 0x10000 _ hbody).mp
    hends _ _ _ rfl hlanding
  cases hbyte.symm.trans hnone

/-! ## A sweep never stops short -/

theorem mem_counted_of_conditional (hi : i ∈ is) (hkind : (isa.kind i).isConditional = true)
    (ht : forwardTarget? i i.next stop = some t) : t ∈ counted isa stop is := by
  induction is using List.reverseRecOn with
  | nil => cases hi
  | append_singleton is j ih =>
    rw [mem_counted_concat]
    rcases List.mem_append.mp hi with hi | hi
    · exact .inl (ih hi)
    · cases List.mem_singleton.mp hi
      exact .inr ⟨ht, .inl hkind⟩

namespace LinearSweep

variable (h : LinearSweep isa decoder image stop pending address is)
include h

/-- A loop that comes to an end stays at an address only to end there. -/
theorem ends_of_still (hfetch : fetch? decoder image stop address = some i)
    (hstill : i.next = address) :
    (isa.kind i).endsFlow = true ∧ pendingAfter (isa.kind i) i stop pending = [] := by
  induction h with
  | done hnone => cases hnone.symm.trans hfetch
  | finished hfirst hends hpending =>
    cases hfirst.symm.trans hfetch
    exact ⟨hends, hpending⟩
  | @more pending address _ is hfirst hgoes _ ih =>
    cases hfirst.symm.trans hfetch
    obtain ⟨hends, hpending⟩ := ih (hstill.symm ▸ hfetch) rfl
    -- What waits after one round waits after the next one.
    obtain ⟨t, ht⟩ := List.exists_mem_of_ne_nil _ (hgoes hends)
    have hagain : t ∈ pendingAfter (isa.kind i) i stop (pendingAfter (isa.kind i) i stop pending) :=
      mem_pendingAfter.mpr ⟨(mem_pendingAfter.mp ht).1, .inl ht⟩
    rw [hpending] at hagain
    cases hagain

/-- A loop ends with an instruction that ends flow, or where there is nothing to fetch. -/
theorem last_cases (his : is = before ++ [i]) :
    ((isa.kind i).endsFlow = true ∧ awaited isa stop pending (before ++ [i]) = []) ∨
      fetch? decoder image stop i.next = none := by
  induction h generalizing before with
  | done => simp at his
  | finished _ hends hpending =>
    obtain ⟨rfl, hlast⟩ | ⟨-, hlast⟩ := List.append_eq_singleton_iff.mp his.symm
    · cases hlast
      exact .inl ⟨hends, hpending⟩
    · cases hlast
  | more _ _ hrest ih =>
    cases before with
    | nil =>
      cases his
      cases hrest with
      | done hnone => exact .inr hnone
    | cons b before =>
      obtain ⟨rfl, hrest⟩ := List.cons.inj his
      exact ih hrest

end LinearSweep

/-- The sweep gives a body exactly where the loop comes to an end, and the same one. -/
theorem sweepFrom_eq_some_iff (hdecoder : decoder.IsFaithful) :
    sweepFrom isa decoder image stop pending address = some is ↔
      LinearSweep isa decoder image stop pending address is := by
  refine ⟨linearSweep_of_sweepFrom, fun h => ?_⟩
  induction h with
  | done hnone =>
    rw [sweepFrom]
    split
    next => rfl
    next j hfetch => cases hnone.symm.trans hfetch
  | finished hfetch hends hpending =>
    rw [sweepFrom]
    split
    next hnone => cases hfetch.symm.trans hnone
    next j hfirst =>
      cases hfetch.symm.trans hfirst
      simp [hends, hpending]
  | @more pending address i is hfetch hgoes hrest ih =>
    have hmore : ¬ ((isa.kind i).endsFlow = true ∧
        pendingAfter (isa.kind i) i stop pending = []) := fun hends => hgoes hends.1 hends.2
    have hne : i.next ≠ address := fun hstill =>
      hmore (LinearSweep.ends_of_still (.more hfetch hgoes hrest) hfetch hstill)
    have hlt : address < i.next :=
      UInt64.lt_of_le_of_ne (le_next_of_fetch? hdecoder hfetch) hne.symm
    rw [sweepFrom]
    split
    next hnone => cases hfetch.symm.trans hnone
    next j hfirst =>
      cases hfetch.symm.trans hfirst
      rw [if_neg (by simpa using hmore), if_pos hlt, ih, Option.map_some]

theorem Run.resume_le_next (hdecoder : decoder.IsFaithful)
    (h : Run decoder image stop start is) :
    ∀ before i after, is = before ++ i :: after → resume start before ≤ i.next := by
  intro before i after his
  induction h generalizing before with
  | nil => simp at his
  | last hfetch =>
    obtain ⟨rfl, hlast⟩ | ⟨-, hlast⟩ := List.append_eq_singleton_iff.mp his.symm
    · cases hlast
      exact le_next_of_fetch? hdecoder hfetch
    · cases hlast
  | cons hfetch _ _ ih =>
    cases before with
    | nil =>
      cases his
      exact le_next_of_fetch? hdecoder hfetch
    | cons b before =>
      obtain ⟨rfl, hrest⟩ := List.cons.inj his
      exact ih before hrest

/-- A body that ends before the window does, with a byte behind it, ends with an instruction that
ends flow, and no conditional branch in it goes forward to an address of the window that the body
has not reached. There is a body wherever undecodable bytes are skipped at all. -/
theorem sweep_reaches_targets (isa : InstructionSet) (hdecoder : decoder.IsFaithful) (image : Image)
    (start cap : UInt64) :
    let stop := min (start.toNat + cap.toNat) (UInt64.size - 1)
    (∀ body, sweep isa decoder image (windowEnd start cap) start = some body →
      ∀ last, body.getLast? = some last → last.next.toNat < stop →
        (image.byteAt? last.next).isSome = true →
        (isa.kind last).endsFlow = true ∧
          ∀ i ∈ body, (isa.kind i).isConditional = true → ∀ t, i.target? = some t →
            i.next ≤ t → t.toNat < stop → t < last.next) ∧
    (0 < decoder.skip →
      ∃ body, sweep isa decoder image (windowEnd start cap) start = some body) := by
  intro stop
  have hstop : (windowEnd start cap).toNat = stop := toNat_windowEnd start cap
  refine ⟨fun body hsweep last hlast hwindow hbyte => ?_, fun hskip =>
    exists_sweepFrom hdecoder hskip isa image _ [] start⟩
  obtain ⟨before, hbody⟩ := List.getLast?_eq_some_iff.mp hlast
  have hfetch : fetch? decoder image (windowEnd start cap) last.next ≠ none := by
    rw [ne_eq, fetch?_eq_none_iff, not_or, UInt64.not_le, UInt64.lt_iff_toNat_lt, hstop]
    exact ⟨hwindow, Option.isSome_iff_ne_none.mp hbyte⟩
  obtain ⟨hflow, hnone⟩ := ((linearSweep_of_sweepFrom hsweep).last_cases hbody).resolve_right hfetch
  refine ⟨hflow, fun i hi hkind t ht hnext hlt => UInt64.not_le.mp fun hbeyond => ?_⟩
  have htarget : forwardTarget? i i.next (windowEnd start cap) = some t := by
    refine Option.filter_eq_some_iff.mpr ⟨ht, ?_⟩
    simp only [Bool.and_eq_true, decide_eq_true_eq]
    exact ⟨hnext, UInt64.lt_iff_toNat_lt.mpr (hstop ▸ hlt)⟩
  have hforward := (run_of_sweepFrom hsweep).resume_le_next hdecoder
  have hawaited : t ∈ awaited isa (windowEnd start cap) [] body := by
    refine mem_awaited_of_counted hforward (mem_counted_of_conditional hi hkind htarget) ?_
    rw [hbody, resume_concat]
    exact hbeyond
  rw [hbody, hnone] at hawaited
  cases hawaited

/-- A return that a branch leads over: `test ecx, ecx`, `je 0x1005`, `ret`, `xor eax, eax`, `ret`,
`int3`. -/
def returningTwice : Image :=
  .raw .x64 0x1000 #[0x85, 0xC9, 0x74, 0x01, 0xC3, 0x31, 0xC0, 0xC3, 0xCC]

/-- The sweep goes past the first return, to the target of the branch. -/
theorem sweep_reaches_targets_returningTwice :
    let branch := Instruction.ofText 0x1002 [0x74, 0x01] "je" "0x1005"
    let last := Instruction.ofText 0x1007 [0xC3] "ret" ""
    Encoding.X64.decoder.IsFaithful ∧ 0 < Encoding.X64.decoder.skip ∧
    ∃ body, sweep X64.isa Encoding.X64.decoder returningTwice (windowEnd 0x1000 0x100) 0x1000 =
        some body ∧
      body.getLast? = some last ∧ last.next.toNat < 0x1100 ∧
      (returningTwice.byteAt? last.next).isSome = true ∧ (X64.isa.kind last).endsFlow = true ∧
      branch ∈ body ∧ (X64.isa.kind branch).isConditional = true ∧
      branch.target? = some 0x1005 ∧ 0x1005 < last.next := by
  intro branch last
  obtain ⟨hreaches, hends⟩ := sweep_reaches_targets X64.isa Encoding.X64.isFaithful_decoder
    returningTwice 0x1000 0x100
  obtain ⟨body, hbody⟩ := hends (by decide)
  have hknown : sweep X64.isa Encoding.X64.decoder returningTwice (windowEnd 0x1000 0x100) 0x1000 =
      some [.ofText 0x1000 [0x85, 0xC9] "test" "ecx, ecx", branch,
        .ofText 0x1004 [0xC3] "ret" "", .ofText 0x1005 [0x31, 0xC0] "xor" "eax, eax", last] := by
    decide +kernel
  obtain rfl := Option.some.inj (hbody.symm.trans hknown)
  have hbyte : (returningTwice.byteAt? last.next).isSome = true := by decide +kernel
  have hkind : (X64.isa.kind branch).isConditional = true := by decide +kernel
  have htarget : branch.target? = some 0x1005 := by decide +kernel
  obtain ⟨hflow, htargets⟩ := hreaches _ hbody last rfl (by decide +kernel) hbyte
  exact ⟨Encoding.X64.isFaithful_decoder, by decide, _, hbody, rfl, by decide +kernel, hbyte, hflow,
    by simp, hkind, htarget,
    htargets branch (by simp) hkind 0x1005 htarget (by decide +kernel) (by decide +kernel)⟩

end MethodLift.Body
