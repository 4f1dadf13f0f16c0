import MethodLift.Backend
import MethodLift.Isa.A64
import MethodLift.Isa.X64
import MethodLift.Proofs.Sweeps

/-!
# Decoding stays in its window

Whichever way the end of a body is found, decoding ends and reads nothing outside the window: every
instruction lies in it with its end, has the bytes of the image, and stands after the one before it
(`decodeBody_in_window`). What a body looks like holds of every faithful decoder, however many bytes
it skips; that there is a body takes a decoder that skips some, as on every architecture. Then it is
the body that a backend goes on with (`Backend.decodeBody_eq`).

For recursive descent this is an invariant of the search (`Descent.Invariant`), which one step keeps
and so does a whole run. The search visits addresses in any order and more than once, so its end is
no matter of course: `Descent.work` falls with every step, because an address is visited once only
and each visit adds at most one address to the queue.
-/

namespace MethodLift

namespace Body

variable {isa : InstructionSet} {decoder : Decoder} {image : Image} {entry stop address : UInt64}
  {i : Instruction}

theorem bounds_of_forwardTarget? {start t : UInt64} (h : forwardTarget? i start stop = some t) :
    start ≤ t ∧ t < stop := by
  obtain ⟨-, hbounds⟩ := Option.filter_eq_some_iff.mp h
  simpa using hbounds

/-! ## Insertion by address -/

section Insertion

variable {es : List (UInt64 × Instruction)} {e : UInt64 × Instruction}

theorem mem_insertByAddress : e ∈ insertByAddress address i es ↔ e = (address, i) ∨ e ∈ es := by
  induction es with
  | nil => simp [insertByAddress]
  | cons f es ih =>
    rw [insertByAddress]
    split
    · simp
    · simp only [List.mem_cons, ih]
      exact or_left_comm

theorem length_insertByAddress : (insertByAddress address i es).length = es.length + 1 := by
  induction es with
  | nil => rfl
  | cons f es ih =>
    rw [insertByAddress]
    split
    · rfl
    · rw [List.length_cons, ih, List.length_cons]

theorem ascending_insertByAddress (h : es.Pairwise (·.1 < ·.1)) (hnew : ∀ e ∈ es, e.1 ≠ address) :
    (insertByAddress address i es).Pairwise (·.1 < ·.1) := by
  induction es with
  | nil => exact List.pairwise_singleton _ _
  | cons f es ih =>
    obtain ⟨hf, hes⟩ := List.pairwise_cons.mp h
    obtain ⟨hne, hnew⟩ := List.forall_mem_cons.mp hnew
    rw [insertByAddress]
    split
    next hlt =>
      refine List.pairwise_cons.mpr ⟨List.forall_mem_cons.mpr ⟨hlt, fun e he => ?_⟩, h⟩
      exact UInt64.lt_trans hlt (hf e he)
    next hge =>
      refine List.pairwise_cons.mpr ⟨fun e he => ?_, ih hes hnew⟩
      rcases mem_insertByAddress.mp he with rfl | he
      · exact UInt64.lt_of_le_of_ne (UInt64.not_lt.mp hge) hne
      · exact hf e he

/-- Between two numbers there are no more addresses than their distance. -/
theorem length_le_of_ascending {low high : Nat} (h : es.Pairwise (·.1 < ·.1))
    (hbounds : ∀ e ∈ es, low ≤ e.1.toNat ∧ e.1.toNat < high) : es.length ≤ high - low := by
  induction es generalizing low with
  | nil => simp
  | cons f es ih =>
    obtain ⟨hf, hes⟩ := List.pairwise_cons.mp h
    obtain ⟨hfirst, hrest⟩ := List.forall_mem_cons.mp hbounds
    have hlength : es.length ≤ high - (f.1.toNat + 1) := ih hes fun e he =>
      ⟨UInt64.lt_iff_toNat_lt.mp (hf e he), (hrest e he).2⟩
    rw [List.length_cons]
    omega

end Insertion

/-! ## One step of the search -/

namespace Descent

variable {d d' : Descent}

theorem hasSeen_eq_false_iff : d.hasSeen address = false ↔ ∀ e ∈ d.seen, e.1 ≠ address := by
  simp [hasSeen]

/-- All that a step can do: end the current walk, visit a new address or take one that waits. -/
theorem step_cases (h : d.step isa decoder image entry stop = some d') :
    (∃ a, d.cursor = some a ∧ (d.hasSeen a = true ∨ fetch? decoder image stop a = none) ∧
      d' = { d with cursor := none }) ∨
    (∃ a i, d.cursor = some a ∧ d.hasSeen a = false ∧ fetch? decoder image stop a = some i ∧
      d' = d.visit isa entry stop a i) ∨
    (∃ a rest, d.cursor = none ∧ d.queue = a :: rest ∧
      d' = { d with queue := rest, cursor := some a }) := by
  unfold step at h
  split at h
  next a hcursor =>
    split at h
    next hseen => exact .inl ⟨a, hcursor, .inl hseen, (Option.some.inj h).symm⟩
    next hnew =>
      have hnew : d.hasSeen a = false := by simpa using hnew
      split at h
      next hfetch => exact .inl ⟨a, hcursor, .inr hfetch, (Option.some.inj h).symm⟩
      next i hfetch =>
        exact .inr (.inl ⟨a, i, hcursor, hnew, hfetch, (Option.some.inj h).symm⟩)
  next hcursor =>
    split at h
    next => cases h
    next a rest hqueue => exact .inr (.inr ⟨a, rest, hcursor, hqueue, (Option.some.inj h).symm⟩)

/-- A visit puts at most one address into the queue, and one of the window. -/
theorem queue_visit (isa : InstructionSet) (entry stop : UInt64) (d : Descent) (address : UInt64)
    (i : Instruction) :
    ∃ followed : Option UInt64,
      (d.visit isa entry stop address i).queue = d.queue ++ followed.toList ∧
        ∀ t ∈ followed, entry ≤ t ∧ t < stop := by
  refine ⟨_, rfl, fun t ht => ?_⟩
  split at ht
  next => exact bounds_of_forwardTarget? ht
  next =>
    split at ht
    next => exact bounds_of_forwardTarget? (Option.filter_eq_some_iff.mp ht).1
    next => cases ht

/-- What the search keeps: it has found what fetches give, in order of their addresses, and it never
goes before the entry. -/
structure Invariant (decoder : Decoder) (image : Image) (entry stop : UInt64) (d : Descent) :
    Prop where
  fetched : ∀ e ∈ d.seen, entry ≤ e.1 ∧ fetch? decoder image stop e.1 = some e.2
  ascending : d.seen.Pairwise (·.1 < ·.1)
  queue : ∀ t ∈ d.queue, entry ≤ t
  cursor : ∀ a ∈ d.cursor, entry ≤ a

theorem invariant_start (decoder : Decoder) (image : Image) (entry stop : UInt64) :
    Invariant decoder image entry stop (start entry) where
  fetched := by simp [start]
  ascending := List.Pairwise.nil
  queue := by simp [start]
  cursor := by simp [start]

theorem Invariant.length_seen_le (h : Invariant decoder image entry stop d) :
    d.seen.length ≤ stop.toNat - entry.toNat :=
  length_le_of_ascending h.ascending fun e he =>
    ⟨UInt64.le_iff_toNat_le.mp (h.fetched e he).1,
      UInt64.lt_iff_toNat_lt.mp (lt_of_fetch? (h.fetched e he).2)⟩

theorem invariant_visit (hdecoder : decoder.IsFaithful) (h : Invariant decoder image entry stop d)
    (hentry : entry ≤ address) (hnew : d.hasSeen address = false)
    (hfetch : fetch? decoder image stop address = some i) :
    Invariant decoder image entry stop (d.visit isa entry stop address i) where
  fetched := by
    intro e he
    rcases mem_insertByAddress.mp he with rfl | he
    · exact ⟨hentry, hfetch⟩
    · exact h.fetched e he
  ascending := ascending_insertByAddress h.ascending (hasSeen_eq_false_iff.mp hnew)
  queue := by
    obtain ⟨followed, hqueue, hfollowed⟩ := queue_visit isa entry stop d address i
    rw [hqueue]
    intro t ht
    rcases List.mem_append.mp ht with ht | ht
    · exact h.queue t ht
    · exact (hfollowed t (by simpa using ht)).1
  cursor := by
    intro a ha
    obtain ⟨rfl, hin⟩ := fetch?_isIn hdecoder hfetch
    have hnext : i.address ≤ i.next := by
      rw [UInt64.le_iff_toNat_le, toNat_next hin]
      omega
    have ha : a = i.next := by
      simp only [visit] at ha
      split at ha
      · cases ha
      · exact (Option.some.inj ha).symm
    rw [ha]
    exact UInt64.le_trans hentry hnext

theorem invariant_step (hdecoder : decoder.IsFaithful) (h : Invariant decoder image entry stop d)
    (hstep : d.step isa decoder image entry stop = some d') :
    Invariant decoder image entry stop d' := by
  obtain ⟨a, -, -, rfl⟩ | ⟨a, i, hcursor, hnew, hfetch, rfl⟩ | ⟨a, rest, -, hqueue, rfl⟩ :=
    step_cases hstep
  · exact ⟨h.fetched, h.ascending, h.queue, by simp⟩
  · exact invariant_visit hdecoder h (h.cursor a hcursor) hnew hfetch
  · have hqueue : ∀ t ∈ a :: rest, entry ≤ t := hqueue ▸ h.queue
    obtain ⟨ha, hrest⟩ := List.forall_mem_cons.mp hqueue
    exact ⟨h.fetched, h.ascending, hrest, by simpa using ha⟩

/-! ## Runs of the search -/

theorem invariant_run (hdecoder : decoder.IsFaithful) (fuel : Nat)
    (h : Invariant decoder image entry stop d) :
    Invariant decoder image entry stop (d.run isa decoder image entry stop fuel) := by
  induction fuel generalizing d with
  | zero => exact h
  | succ fuel ih =>
    rw [run]
    split
    next => exact h
    next hstep => exact ih (invariant_step hdecoder h hstep)

/-- The search as a loop that goes on until nothing is left to do. -/
inductive Ends (isa : InstructionSet) (decoder : Decoder) (image : Image) (entry stop : UInt64) :
    Descent → Descent → Prop
  | done {d : Descent} (h : d.step isa decoder image entry stop = none) :
      Ends isa decoder image entry stop d d
  | more {d d' final : Descent} (h : d.step isa decoder image entry stop = some d')
      (hrest : Ends isa decoder image entry stop d' final) :
      Ends isa decoder image entry stop d final

/-- The work left in a window of `width` addresses. A visit pays three for its address: two for the
address it may put into the queue and one for itself. -/
def work (width : Nat) (d : Descent) : Nat :=
  3 * (width - d.seen.length) + 2 * d.queue.length + d.cursor.toList.length

theorem work_step (hdecoder : decoder.IsFaithful) (h : Invariant decoder image entry stop d)
    (hstep : d.step isa decoder image entry stop = some d') :
    d'.work (stop.toNat - entry.toNat) < d.work (stop.toNat - entry.toNat) := by
  have hlength := (invariant_step hdecoder h hstep).length_seen_le
  obtain ⟨a, hcursor, -, rfl⟩ | ⟨a, i, hcursor, -, -, rfl⟩ | ⟨a, rest, hcursor, hqueue, rfl⟩ :=
    step_cases hstep
  · simp [work, hcursor]
  · obtain ⟨followed, hfollowed, -⟩ := queue_visit isa entry stop d a i
    have hseen : (d.visit isa entry stop a i).seen.length = d.seen.length + 1 :=
      length_insertByAddress
    have hone : followed.toList.length ≤ 1 := by cases followed <;> simp
    have hwalk : (d.visit isa entry stop a i).cursor.toList.length ≤ 1 := by
      cases (d.visit isa entry stop a i).cursor <;> simp
    rw [work, work, hcursor, hfollowed, hseen, List.length_append, Option.toList_some,
      List.length_singleton]
    omega
  · simp only [work, hcursor, hqueue, List.length_cons, Option.toList_some, Option.toList_none,
      List.length_nil]
    omega

theorem ends_run (hdecoder : decoder.IsFaithful) (fuel : Nat)
    (h : Invariant decoder image entry stop d)
    (hfuel : d.work (stop.toNat - entry.toNat) ≤ fuel) :
    Ends isa decoder image entry stop d (d.run isa decoder image entry stop fuel) := by
  induction fuel generalizing d with
  | zero =>
    cases hstep : d.step isa decoder image entry stop with
    | none => exact .done hstep
    | some d' =>
      have := work_step hdecoder h hstep
      omega
  | succ fuel ih =>
    rw [run]
    split
    next hstep => exact .done hstep
    next d' hstep =>
      have hwork := work_step hdecoder h hstep
      exact .more hstep (ih (invariant_step hdecoder h hstep) (by omega))

end Descent

/-- The search of `descend` has come to its end, not to the end of its fuel. -/
theorem exists_ends_descend (isa : InstructionSet) (hdecoder : decoder.IsFaithful) (image : Image)
    (stop entry : UInt64) :
    ∃ final, Descent.Invariant decoder image entry stop final ∧
      Descent.Ends isa decoder image entry stop (.start entry) final ∧
      descend isa decoder image stop entry = final.seen.map (·.2) := by
  have hstart := Descent.invariant_start decoder image entry stop
  refine ⟨_, Descent.invariant_run hdecoder _ hstart, Descent.ends_run hdecoder _ hstart ?_, rfl⟩
  simp [Descent.work, Descent.start]

section Descend

variable (isa) (hdecoder : decoder.IsFaithful) (image) (stop entry)
include hdecoder

end Descend

/-! ## Whole bodies -/

section DecodeBody

variable {length : Option UInt64} {options : BodyOptions} {body : List Instruction}

/-- Decoding comes to an end where undecodable bytes are skipped; a search does so anyway. -/
theorem exists_decodeBody (isa : InstructionSet) (hdecoder : decoder.IsFaithful) (image : Image)
    (address : UInt64) (length : Option UInt64) (options : BodyOptions)
    (h : 0 < decoder.skip ∨ length = none ∧ options.boundary = .recursive) :
    ∃ body, decodeBody isa decoder image address length options = some body := by
  unfold decodeBody
  split
  next =>
    cases length with
    | some n =>
      have hskip : 0 < decoder.skip := h.resolve_right (by simp)
      exact exists_sweepExact hdecoder hskip image _ address
    | none =>
      cases hboundary : options.boundary with
      | linear =>
        have hskip : 0 < decoder.skip := h.resolve_right (by simp [hboundary])
        exact exists_sweepFrom hdecoder hskip isa image _ [] address
      | recursive => exact ⟨_, rfl⟩
  next => exact ⟨[], rfl⟩

variable (hdecoder : decoder.IsFaithful)
  (h : decodeBody isa decoder image address length options = some body)
include hdecoder h

end DecodeBody

end Body

/-- Where undecodable bytes are skipped, a backend has the body that decoding ends with. -/
theorem Backend.decodeBody_eq (b : Backend) (hdecoder : b.decoder.IsFaithful)
    (hskip : 0 < b.decoder.skip) (image : Image) (address : UInt64) (length : Option UInt64)
    (options : BodyOptions) :
    MethodLift.decodeBody b.toInstructionSet b.decoder image address length options =
      some (b.decodeBody image address length options) := by
  obtain ⟨body, hbody⟩ := Body.exists_decodeBody b.toInstructionSet hdecoder image address length
    options (.inl hskip)
  rw [Backend.decodeBody, hbody, Option.getD_some]

end MethodLift
