import Mathlib.Tactic.ByContra
import MethodLift.Proofs.SearchClosure

/-!
# The order in which a search visits

Recursive descent follows a jump forward only as far as a conditional branch is known to go. It
judges the jump once, when it visits it, by the branches it has visited before. A branch that is
visited later and goes further does not bring the jump back.

`Reachable` is everything that control reaches if a jump is judged by all branches: it knows no
order. `Search` is the search with its waiting addresses taken in any order, of which `descend` is
one. No search finds anything that is not reachable. A search finds all of it if and only if what it
found follows its own jumps (`FollowsJumps`), and that is so if and only if it visited no jump
before the branches that cover its target, unless it found the target in another way
(`descend_follows_jumps_iff`).
-/

namespace MethodLift.Body

variable {isa : InstructionSet} {decoder : Decoder} {image : Image} {entry stop t u : UInt64}
  {i j c : Instruction} {order : List Instruction}

/-- A conditional branch that goes at least as far as `t`. -/
def Covers (isa : InstructionSet) (entry stop : UInt64) (c : Instruction) (t : UInt64) : Prop :=
  (isa.kind c).isConditional = true ∧ ∃ u, forwardTarget? c entry stop = some u ∧ t ≤ u

/-- Whatever control reaches from the entry. A jump forward counts if some branch that is reached
covers its target, wherever that branch stands. -/
inductive Reachable (isa : InstructionSet) (decoder : Decoder) (image : Image)
    (entry stop : UInt64) : Instruction → Prop
  | entry {j : Instruction} (hj : fetch? decoder image stop entry = some j) :
      Reachable isa decoder image entry stop j
  | leads {i j : Instruction} {t : UInt64} (hi : Reachable isa decoder image entry stop i)
      (h : Leads isa entry stop i t) (hj : fetch? decoder image stop t = some j) :
      Reachable isa decoder image entry stop j
  | inside {i c j : Instruction} {t : UInt64} (hi : Reachable isa decoder image entry stop i)
      (hjump : isa.kind i = .jump) (ht : forwardTarget? i entry stop = some t)
      (hc : Reachable isa decoder image entry stop c) (hcovers : Covers isa entry stop c t)
      (hj : fetch? decoder image stop t = some j) : Reachable isa decoder image entry stop j

/-- Every jump of the body to an address with a byte, no further than the branches of the body go,
leads to an instruction of the body. Mapped is what the file has a byte for, as in
`descend_closed_and_minimal`: an address of a segment behind the end of the file has no instruction
to lead to. -/
def FollowsJumps (isa : InstructionSet) (image : Image) (entry stop : UInt64)
    (body : List Instruction) : Prop :=
  ∀ i ∈ body, ∀ t, LeadsInside isa entry stop body i t → (image.byteAt? t).isSome = true →
    ∃ j ∈ body, j.address = t

/-- A jump forward that is visited before all the branches that cover its target, and whose target
is not found. -/
structure Overlooked (isa : InstructionSet) (image : Image) (entry stop : UInt64)
    (before : List Instruction) (i : Instruction) (after : List Instruction) (t : UInt64) :
    Prop where
  jump : isa.kind i = .jump
  target : forwardTarget? i entry stop = some t
  forward : i.address < t
  mapped : (image.byteAt? t).isSome = true
  early : ∀ c ∈ before, ¬ Covers isa entry stop c t
  covered : ∃ c ∈ after, Covers isa entry stop c t
  lost : ∀ j ∈ before ++ i :: after, j.address ≠ t

namespace Descent

variable {d d' final : Descent} {address : UInt64}

/-- One move of a search that takes the addresses that wait in any order, with what it visits. -/
inductive Move (isa : InstructionSet) (decoder : Decoder) (image : Image) (entry stop : UInt64) :
    Descent → List Instruction → Descent → Prop
  | visit {d : Descent} {a : UInt64} {i : Instruction} (hcursor : d.cursor = some a)
      (hnew : d.hasSeen a = false) (hfetch : fetch? decoder image stop a = some i) :
      Move isa decoder image entry stop d [i] (d.visit isa entry stop a i)
  | leave {d : Descent} {a : UInt64} (hcursor : d.cursor = some a)
      (hover : d.hasSeen a = true ∨ fetch? decoder image stop a = none) :
      Move isa decoder image entry stop d [] { d with cursor := none }
  | take {d : Descent} {a : UInt64} (hcursor : d.cursor = none) (hwaits : a ∈ d.queue) :
      Move isa decoder image entry stop d [] { d with queue := d.queue.erase a, cursor := some a }

/-- A search to its end, with the instructions in the order in which it visits them. -/
inductive Search (isa : InstructionSet) (decoder : Decoder) (image : Image) (entry stop : UInt64) :
    Descent → List Instruction → Descent → Prop
  | done {d : Descent} (hcursor : d.cursor = none) (hqueue : d.queue = []) :
      Search isa decoder image entry stop d [] d
  | move {d d' final : Descent} {new order : List Instruction}
      (h : Move isa decoder image entry stop d new d')
      (hrest : Search isa decoder image entry stop d' order final) :
      Search isa decoder image entry stop d (new ++ order) final

theorem move_of_step (h : d.step isa decoder image entry stop = some d') :
    ∃ new, Move isa decoder image entry stop d new d' := by
  obtain ⟨a, hcursor, hover, rfl⟩ | ⟨a, i, hcursor, hnew, hfetch, rfl⟩ |
    ⟨a, rest, hcursor, hqueue, rfl⟩ := step_cases h
  · exact ⟨[], .leave hcursor hover⟩
  · exact ⟨[i], .visit hcursor hnew hfetch⟩
  · have htake : Move isa decoder image entry stop d []
        { d with queue := d.queue.erase a, cursor := some a } := .take hcursor (by simp [hqueue])
    rw [hqueue, List.erase_cons_head] at htake
    exact ⟨[], htake⟩

/-- The loop that takes the first address that waits is a search. -/
theorem Ends.search (h : Ends isa decoder image entry stop d final) :
    ∃ order, Search isa decoder image entry stop d order final := by
  induction h with
  | done h =>
    obtain ⟨hcursor, hqueue⟩ := step_eq_none h
    exact ⟨[], .done hcursor hqueue⟩
  | more h _ ih =>
    obtain ⟨order, hsearch⟩ := ih
    obtain ⟨new, hmove⟩ := move_of_step h
    exact ⟨new ++ order, .move hmove hsearch⟩

theorem search_of_run {fuel : Nat}
    (h : Search isa decoder image entry stop (d.run isa decoder image entry stop fuel) order
      final) : ∃ order, Search isa decoder image entry stop d order final := by
  induction fuel generalizing d with
  | zero => exact ⟨order, h⟩
  | succ fuel ih =>
    rw [run] at h
    split at h
    next => exact ⟨order, h⟩
    next hstep =>
      obtain ⟨rest, hsearch⟩ := ih h
      obtain ⟨new, hmove⟩ := move_of_step hstep
      exact ⟨new ++ rest, .move hmove hsearch⟩

/-! ## What every search keeps -/

/-- The queue matters only by what is in it. -/
def IgnoresOrder (P : Descent → Prop) : Prop :=
  ∀ {d : Descent} {queue : List UInt64}, (∀ t, t ∈ queue ↔ t ∈ d.queue) → P d → P { d with queue }

/-- What every step keeps, in whatever order the addresses wait, every move keeps. -/
theorem Move.keeps {P : Descent → Prop} {new : List Instruction}
    (h : Move isa decoder image entry stop d new d')
    (hstep : ∀ {d d'}, P d → d.step isa decoder image entry stop = some d' → P d')
    (hreorder : IgnoresOrder P) (hd : P d) : P d' := by
  cases h with
  | visit hcursor hnew hfetch => exact hstep hd (by simp [step, hcursor, hnew, hfetch])
  | leave hcursor hover =>
    refine hstep hd ?_
    rcases hover with hseen | hnone
    · simp [step, hcursor, hseen]
    · simp [step, hcursor, hnone]
  | @take a hcursor hwaits =>
    -- The address that is taken stands first in some order of the queue.
    have hfirst : P { d with queue := a :: d.queue.erase a } := by
      refine hreorder (fun t => ?_) hd
      exact (List.perm_cons_erase hwaits).mem_iff.symm
    exact hstep hfirst (by simp [step, hcursor])

theorem Search.keeps {P : Descent → Prop} (h : Search isa decoder image entry stop d order final)
    (hstep : ∀ {d d'}, P d → d.step isa decoder image entry stop = some d' → P d')
    (hreorder : IgnoresOrder P) (hd : P d) : P final := by
  induction h with
  | done => exact hd
  | move hmove _ ih => exact ih (hmove.keeps hstep hreorder hd)

theorem Search.exhausted (h : Search isa decoder image entry stop d order final) :
    final.cursor = none ∧ final.queue = [] := by
  induction h with
  | done hcursor hqueue => exact ⟨hcursor, hqueue⟩
  | move _ _ ih => exact ih

theorem Move.mem_found {new : List Instruction} (h : Move isa decoder image entry stop d new d') :
    j ∈ d'.found ↔ j ∈ d.found ∨ j ∈ new := by
  cases h with
  | visit => rw [mem_found_visit, List.mem_singleton, or_comm]
  | leave | take => simp [found]

theorem Search.mem_found (h : Search isa decoder image entry stop d order final) :
    j ∈ final.found ↔ j ∈ d.found ∨ j ∈ order := by
  induction h with
  | done => simp
  | move hmove _ ih => rw [ih, hmove.mem_found, List.mem_append, or_assoc]

theorem accounted_ignoresOrder : IgnoresOrder fun d => d.Accounted decoder image stop t := by
  intro d queue hqueue h
  exact h.imp_right fun h => h.imp_left (hqueue t).mpr

theorem Search.accounted (h : Search isa decoder image entry stop d order final)
    (hd : d.Accounted decoder image stop t) : final.Accounted decoder image stop t :=
  h.keeps accounted_step accounted_ignoresOrder hd

/-! ## Nothing but what is reachable -/

/-- Control comes to the address from what is reachable. -/
def Due (isa : InstructionSet) (decoder : Decoder) (image : Image) (entry stop : UInt64)
    (t : UInt64) : Prop :=
  ∀ j, fetch? decoder image stop t = some j → Reachable isa decoder image entry stop j

/-- What was found is reachable, what waits is due, and the furthest target so far is that of a
reachable branch and bounds those of the branches found. -/
structure Justified (isa : InstructionSet) (decoder : Decoder) (image : Image)
    (entry stop : UInt64) (d : Descent) : Prop where
  found : ∀ i ∈ d.found, Reachable isa decoder image entry stop i
  queue : ∀ t ∈ d.queue, Due isa decoder image entry stop t
  cursor : ∀ t ∈ d.cursor, Due isa decoder image entry stop t
  furthest : d.furthest = entry ∨ ∃ c, Reachable isa decoder image entry stop c ∧
    Covers isa entry stop c d.furthest
  bound : ∀ c ∈ d.found, ∀ t, Covers isa entry stop c t → t ≤ d.furthest

theorem justified_start : Justified isa decoder image entry stop (start entry) where
  found := by simp [Descent.found, start]
  queue := by
    intro t ht j hj
    rw [List.mem_singleton.mp ht] at hj
    exact .entry hj
  cursor := by simp [start]
  furthest := .inl rfl
  bound := by simp [Descent.found, start]

theorem le_max_both (a b : UInt64) : a ≤ max a b ∧ b ≤ max a b := by
  change a ≤ (if a ≤ b then b else a) ∧ b ≤ (if a ≤ b then b else a)
  split
  next h => exact ⟨h, UInt64.le_refl b⟩
  next h => exact ⟨UInt64.le_refl a, UInt64.le_of_lt (UInt64.not_le.mp h)⟩

theorem le_furthest_visit : d.furthest ≤ (d.visit isa entry stop address i).furthest := by
  simp only [visit]
  split
  next =>
    cases forwardTarget? i entry stop with
    | none => exact UInt64.le_refl _
    | some t => exact (le_max_both d.furthest t).1
  next => exact UInt64.le_refl _

theorem le_furthest_of_covers (h : Covers isa entry stop i t) :
    t ≤ (d.visit isa entry stop address i).furthest := by
  obtain ⟨hconditional, u, htarget, hle⟩ := h
  simp only [visit, hconditional, htarget, if_true, Option.map_some, Option.getD_some]
  exact UInt64.le_trans hle (le_max_both d.furthest u).2

/-- Control comes to the target that a visit follows. -/
theorem due_of_followed (h : Justified isa decoder image entry stop d)
    (hentry : entry ≤ i.address) (hi : Reachable isa decoder image entry stop i)
    (ht : forwardTarget? i entry stop = some t)
    (hfollowed : (isa.kind i).isConditional = true ∨
      isa.kind i = .jump ∧ (t ≤ d.furthest ∨ t < i.address)) :
    Due isa decoder image entry stop t := by
  intro j hj
  rcases hfollowed with hconditional | ⟨hjump, hle | hlt⟩
  · exact .leads hi (.conditional hconditional ht) hj
  · rcases h.furthest with hfurthest | ⟨c, hc, hconditional, u, htarget, hu⟩
    · have hback : t ≤ i.address := UInt64.le_trans (hfurthest ▸ hle) hentry
      exact .leads hi (.back hjump ht hback) hj
    · exact .inside hi hjump ht hc ⟨hconditional, u, htarget, UInt64.le_trans hle hu⟩ hj
  · exact .leads hi (.back hjump ht (UInt64.le_of_lt hlt)) hj

theorem justified_visit (h : Justified isa decoder image entry stop d)
    (hentry : entry ≤ i.address) (hi : Reachable isa decoder image entry stop i) :
    Justified isa decoder image entry stop (d.visit isa entry stop i.address i) := by
  refine ⟨fun j hj => ?_, fun t ht => ?_, fun t ht => ?_, ?_, fun c hc t hcovers => ?_⟩
  · rcases mem_found_visit.mp hj with rfl | hj
    · exact hi
    · exact h.found j hj
  · rcases mem_queue_visit.mp ht with ht | ⟨ht, hfollowed⟩
    · exact h.queue t ht
    · exact due_of_followed h hentry hi ht hfollowed
  · simp only [visit] at ht
    split at ht
    next => cases ht
    next hflow =>
      cases ht
      intro j hj
      exact .leads hi (.fallThrough (by simpa using hflow)) hj
  · rcases furthest_visit with hsame | ⟨hconditional, htarget⟩
    · rw [hsame]
      exact h.furthest
    · exact .inr ⟨i, hi, hconditional, _, htarget, UInt64.le_refl _⟩
  · rcases mem_found_visit.mp hc with rfl | hc
    · exact le_furthest_of_covers hcovers
    · exact UInt64.le_trans (h.bound c hc t hcovers) le_furthest_visit

theorem justified_step (hdecoder : decoder.IsFaithful) (hinv : Invariant decoder image entry stop d)
    (h : Justified isa decoder image entry stop d)
    (hstep : d.step isa decoder image entry stop = some d') :
    Justified isa decoder image entry stop d' := by
  obtain ⟨a, -, -, rfl⟩ | ⟨a, i, hcursor, -, hfetch, rfl⟩ | ⟨a, rest, -, hqueue, rfl⟩ :=
    step_cases hstep
  · exact ⟨h.found, h.queue, by simp, h.furthest, h.bound⟩
  · have hi : Reachable isa decoder image entry stop i := h.cursor a hcursor i hfetch
    obtain ⟨rfl, -⟩ := fetch?_isIn hdecoder hfetch
    exact justified_visit h (hinv.cursor _ hcursor) hi
  · have hwaiting : ∀ t ∈ a :: rest, Due isa decoder image entry stop t := hqueue ▸ h.queue
    obtain ⟨ha, hrest⟩ := List.forall_mem_cons.mp hwaiting
    refine ⟨h.found, hrest, fun t ht => ?_, h.furthest, h.bound⟩
    cases ht
    exact ha

/-- All that a search keeps, in whatever order it takes what waits. -/
structure Kept (isa : InstructionSet) (decoder : Decoder) (image : Image) (entry stop : UInt64)
    (d : Descent) : Prop where
  invariant : Invariant decoder image entry stop d
  closed : Closed isa decoder image entry stop d
  justified : Justified isa decoder image entry stop d

theorem kept_start : Kept isa decoder image entry stop (start entry) :=
  ⟨invariant_start decoder image entry stop, closed_start, justified_start⟩

theorem kept_step (hdecoder : decoder.IsFaithful) (h : Kept isa decoder image entry stop d)
    (hstep : d.step isa decoder image entry stop = some d') :
    Kept isa decoder image entry stop d' :=
  ⟨invariant_step hdecoder h.invariant hstep, closed_step hdecoder h.closed hstep,
    justified_step hdecoder h.invariant h.justified hstep⟩

theorem invariant_ignoresOrder : IgnoresOrder (Invariant decoder image entry stop) := by
  intro d queue hqueue h
  exact ⟨h.fetched, h.ascending, fun t ht => h.queue t ((hqueue t).mp ht), h.cursor⟩

theorem kept_ignoresOrder : IgnoresOrder (Kept isa decoder image entry stop) := by
  intro d queue hqueue h
  obtain ⟨hinv, hclosed, hjustified⟩ := h
  refine ⟨invariant_ignoresOrder hqueue hinv, ⟨?_, fun i hi t ht => ?_⟩,
    ⟨hjustified.found, fun t ht => ?_, hjustified.cursor, hjustified.furthest, hjustified.bound⟩⟩
  · exact accounted_ignoresOrder hqueue hclosed.first
  · exact accounted_ignoresOrder hqueue (hclosed.leads i hi t ht)
  · exact hjustified.queue t ((hqueue t).mp ht)

/-- A search comes to the target of a jump if it has visited a branch that covers it before. -/
theorem Search.accounted_of_covered (hdecoder : decoder.IsFaithful)
    (h : Search isa decoder image entry stop d order final)
    (hkept : Kept isa decoder image entry stop d) {before after : List Instruction}
    (horder : order = before ++ i :: after) (hjump : isa.kind i = .jump)
    (ht : forwardTarget? i entry stop = some t) (hc : c ∈ d.found ∨ c ∈ before)
    (hcovers : Covers isa entry stop c t) : final.Accounted decoder image stop t := by
  induction h generalizing before with
  | done => simp at horder
  | @move d d' final new order hmove hrest ih =>
    have hkept' := hmove.keeps (kept_step hdecoder) kept_ignoresOrder hkept
    have hfound : c ∈ d.found → c ∈ d'.found := fun hc => hmove.mem_found.mpr (.inl hc)
    cases hmove with
    | leave | take => exact ih hkept' horder (hc.imp_left hfound)
    | visit =>
      cases before with
      | nil =>
        -- The jump is visited now, and the branch was found before.
        cases horder
        have hle : t ≤ d.furthest :=
          hkept.justified.bound c (hc.resolve_right List.not_mem_nil) t hcovers
        refine hrest.accounted (.inr (.inl ?_))
        exact mem_queue_visit.mpr (.inr ⟨ht, .inr ⟨hjump, .inl hle⟩⟩)
      | cons k before =>
        cases horder
        refine ih hkept' rfl ?_
        rcases hc with hc | hc
        · exact .inl (hfound hc)
        · exact (List.mem_cons.mp hc).imp_left fun hk => mem_found_visit.mpr (.inl hk)

theorem fetch?_of_mem_found (hdecoder : decoder.IsFaithful)
    (h : Invariant decoder image entry stop d) (hj : j ∈ d.found) :
    fetch? decoder image stop j.address = some j := by
  obtain ⟨e, he, rfl⟩ := List.mem_map.mp hj
  obtain ⟨-, hfetch⟩ := h.fetched e he
  rw [(fetch?_isIn hdecoder hfetch).1]
  exact hfetch

end Descent

/-! ## Every order -/

theorem exists_fetch?_iff :
    (∃ j, fetch? decoder image stop t = some j) ↔ t < stop ∧ (image.byteAt? t).isSome = true := by
  rw [← Option.ne_none_iff_exists', ne_eq, fetch?_eq_none_iff, not_or, UInt64.not_le,
    Option.isSome_iff_ne_none]

section Search

variable {final : Descent} (hdecoder : decoder.IsFaithful)
  (h : Descent.Search isa decoder image entry stop (.start entry) order final)
include hdecoder h

theorem kept_search : Descent.Kept isa decoder image entry stop final :=
  h.keeps (Descent.kept_step hdecoder) Descent.kept_ignoresOrder Descent.kept_start

/-- At the end of a search, what is accounted for and can be read has been found. -/
theorem mem_found_of_search (ht : final.Accounted decoder image stop t)
    (hj : fetch? decoder image stop t = some j) : j ∈ final.found := by
  obtain ⟨hcursor, hqueue⟩ := h.exhausted
  exact Descent.mem_found_of_exhausted (kept_search hdecoder h).invariant hcursor hqueue ht hj

/-- A search that follows its jumps has found all that is reachable. -/
theorem mem_found_of_reachable (hfollows : FollowsJumps isa image entry stop final.found)
    (hj : Reachable isa decoder image entry stop j) : j ∈ final.found := by
  obtain ⟨hinv, hclosed, -⟩ := kept_search hdecoder h
  induction hj with
  | entry hj => exact mem_found_of_search hdecoder h hclosed.first hj
  | leads _ hleads hj ih =>
    exact mem_found_of_search hdecoder h (hclosed.leads _ ih _ hleads) hj
  | @inside i c j t _ hjump ht _ hcovers hj ihi ihc =>
    have hmapped := (exists_fetch?_iff.mp ⟨j, hj⟩).2
    obtain ⟨k, hk, rfl⟩ := hfollows i ihi t ⟨hjump, ht, c, ihc, hcovers⟩ hmapped
    cases (Descent.fetch?_of_mem_found hdecoder hinv hk).symm.trans hj
    exact hk

theorem followsJumps_iff_reachable : FollowsJumps isa image entry stop final.found ↔
    ∀ j, j ∈ final.found ↔ Reachable isa decoder image entry stop j := by
  obtain ⟨hinv, -, hjustified⟩ := kept_search hdecoder h
  constructor
  · intro hfollows j
    exact ⟨hjustified.found j, mem_found_of_reachable hdecoder h hfollows⟩
  · intro hall i hi t hinside hmapped
    obtain ⟨c, hc, hcovers⟩ := hinside.inside
    have hstop := (bounds_of_forwardTarget? hinside.target).2
    obtain ⟨j, hj⟩ := exists_fetch?_iff.mpr ⟨hstop, hmapped⟩
    have hreachable : Reachable isa decoder image entry stop j :=
      .inside (hjustified.found i hi) hinside.jump hinside.target (hjustified.found c hc) hcovers hj
    exact ⟨j, (hall j).mpr hreachable, (fetch?_isIn hdecoder hj).1⟩

theorem followsJumps_iff_not_overlooked : FollowsJumps isa image entry stop final.found ↔
    ∀ before i after t, order = before ++ i :: after →
      ¬ Overlooked isa image entry stop before i after t := by
  have hfound : ∀ j, j ∈ final.found ↔ j ∈ order := fun j => by
    rw [h.mem_found]
    exact or_iff_right List.not_mem_nil
  constructor
  · intro hfollows before i after t horder hlost
    obtain ⟨c, hc, hcovers⟩ := hlost.covered
    have hi : i ∈ final.found := (hfound i).mpr (by simp [horder])
    have hc : c ∈ final.found := (hfound c).mpr (by simp [horder, hc])
    obtain ⟨j, hj, haddress⟩ :=
      hfollows i hi t ⟨hlost.jump, hlost.target, c, hc, hcovers⟩ hlost.mapped
    exact hlost.lost j (horder ▸ (hfound j).mp hj) haddress
  · intro hnone i hi t hinside hmapped
    obtain ⟨-, hclosed, -⟩ := kept_search hdecoder h
    have hstop := (bounds_of_forwardTarget? hinside.target).2
    obtain ⟨k, hk⟩ := exists_fetch?_iff.mpr ⟨hstop, hmapped⟩
    have hreached : final.Accounted decoder image stop t → ∃ j ∈ final.found, j.address = t :=
      fun ht => ⟨k, mem_found_of_search hdecoder h ht hk, (fetch?_isIn hdecoder hk).1⟩
    by_contra hmissing
    obtain ⟨before, after, horder⟩ := List.append_of_mem ((hfound i).mp hi)
    have hforward : i.address < t := by
      refine UInt64.not_le.mp fun hback => hmissing (hreached ?_)
      exact hclosed.leads i hi t (.back hinside.jump hinside.target hback)
    have hearly : ∀ c ∈ before, ¬ Covers isa entry stop c t := fun c hc hcovers =>
      hmissing (hreached (h.accounted_of_covered hdecoder Descent.kept_start horder hinside.jump
        hinside.target (.inr hc) hcovers))
    -- The branch that covers the target is not the jump itself, so it was visited after it.
    obtain ⟨c, hc, hcovers⟩ := hinside.inside
    have hafter : c ∈ after := by
      have hc := (hfound c).mp hc
      rw [horder, List.mem_append, List.mem_cons] at hc
      rcases hc with hc | rfl | hc
      · exact absurd hcovers (hearly c hc)
      · have hconditional := hcovers.1
        rw [hinside.jump] at hconditional
        cases hconditional
      · exact hc
    refine hnone before i after t horder ⟨hinside.jump, hinside.target, hforward, hmapped, hearly,
      ⟨c, hafter, hcovers⟩, fun j hj haddress => ?_⟩
    exact hmissing ⟨j, (hfound j).mpr (horder ▸ hj), haddress⟩

end Search

/-- What recursive descent finds follows its jumps if and only if it is all that is reachable. It is
one search of many. Whatever the order, a search finds nothing that is not reachable, and what it
finds follows its jumps if and only if it is all of it, and if and only if no jump was overlooked in
the order of its visits. -/
theorem descend_follows_jumps_iff (isa : InstructionSet) (hdecoder : decoder.IsFaithful)
    (image : Image) (entry cap : UInt64) :
    let stop := windowEnd entry cap
    let body := descend isa decoder image stop entry
    (FollowsJumps isa image entry stop body ↔
      ∀ j, j ∈ body ↔ Reachable isa decoder image entry stop j) ∧
    (∃ order final, Descent.Ends isa decoder image entry stop (.start entry) final ∧
      Descent.Search isa decoder image entry stop (.start entry) order final ∧
      final.found = body) ∧
    ∀ order final, Descent.Search isa decoder image entry stop (.start entry) order final →
      (∀ j ∈ final.found, Reachable isa decoder image entry stop j) ∧
      (FollowsJumps isa image entry stop final.found ↔
        ∀ j, Reachable isa decoder image entry stop j → j ∈ final.found) ∧
      (FollowsJumps isa image entry stop final.found ↔
        ∀ before i after t, order = before ++ i :: after →
          ¬ Overlooked isa image entry stop before i after t) := by
  intro stop body
  obtain ⟨final, -, hends, hbody⟩ := exists_ends_descend isa hdecoder image stop entry
  obtain ⟨order, hsearch⟩ := hends.search
  have hfound : final.found = body := hbody.symm
  refine ⟨?_, ⟨order, final, hends, hsearch, hfound⟩, fun order final hsearch => ?_⟩
  · rw [← hfound]
    exact followsJumps_iff_reachable hdecoder hsearch
  · have hsound := (kept_search hdecoder hsearch).justified.found
    refine ⟨hsound, ?_, followsJumps_iff_not_overlooked hdecoder hsearch⟩
    rw [followsJumps_iff_reachable hdecoder hsearch]
    exact forall_congr' fun j => ⟨Iff.mpr, fun hj => ⟨hsound j, hj⟩⟩

/-- A jump forward that is visited before the branch that covers its target: `je 0x1005`,
`je 0x1007`, `ret`, then `jmp 0x100b` at 0x1005, `je 0x100d` at 0x1007, `ret`, `int3`, and
`xor eax, eax` at 0x100b, `ret`. -/
def crossing : Image :=
  .raw .x64 0x1000
    #[0x74, 0x03, 0x74, 0x03, 0xC3, 0xEB, 0x04, 0x74, 0x04, 0xC3, 0xCC, 0x31, 0xC0, 0xC3]

theorem descend_follows_jumps_iff_crossing :
    let stop := windowEnd 0x1000 0x100
    let body := descend X64.isa Encoding.X64.decoder crossing stop 0x1000
    Encoding.X64.decoder.IsFaithful ∧
    body.map (·.address) = [0x1000, 0x1002, 0x1004, 0x1005, 0x1007, 0x1009, 0x100D] ∧
    ¬ FollowsJumps X64.isa crossing 0x1000 stop body ∧
    (∃ j, Reachable X64.isa Encoding.X64.decoder crossing 0x1000 stop j ∧ j.address = 0x100B) ∧
    ∃ order final, Descent.Search X64.isa Encoding.X64.decoder crossing 0x1000 stop
      (.start 0x1000) order final ∧ ∃ j ∈ final.found, j.address = 0x100B := by
  intro stop body
  have hfaithful := Encoding.X64.isFaithful_decoder
  obtain ⟨hbody, -, hevery⟩ := descend_follows_jumps_iff X64.isa hfaithful crossing 0x1000 0x100
  -- After the first return both targets wait; here the second of them goes first.
  let d := (Descent.start 0x1000).run X64.isa Encoding.X64.decoder crossing 0x1000 stop 4
  let d' := { d with queue := d.queue.erase 0x1007, cursor := some (0x1007 : UInt64) }
  let final := d'.run X64.isa Encoding.X64.decoder crossing 0x1000 stop 800
  have hsearch : ∃ order, Descent.Search X64.isa Encoding.X64.decoder crossing 0x1000 stop
      (.start 0x1000) order final := by
    have hmove : Descent.Move X64.isa Encoding.X64.decoder crossing 0x1000 stop d [] d' :=
      .take (by decide +kernel) (by decide +kernel)
    have hinv : Descent.Invariant Encoding.X64.decoder crossing 0x1000 stop d' := by
      have hd : Descent.Invariant Encoding.X64.decoder crossing 0x1000 stop d :=
        Descent.invariant_run hfaithful 4 (Descent.invariant_start _ _ _ _)
      exact hmove.keeps (Descent.invariant_step hfaithful) Descent.invariant_ignoresOrder hd
    obtain ⟨rest, hrest⟩ := (Descent.ends_run hfaithful 800 hinv (by decide +kernel)).search
    exact Descent.search_of_run (.move hmove hrest)
  have hfound : ∃ j ∈ final.found, j.address = 0x100B := by decide +kernel
  have hmissed : ∀ j ∈ body, j.address ≠ 0x100B := by decide +kernel
  obtain ⟨order, hsearch⟩ := hsearch
  obtain ⟨j, hj, haddress⟩ := hfound
  have hreachable := (hevery order final hsearch).1 j hj
  refine ⟨hfaithful, by decide +kernel, fun hfollows => ?_, ⟨j, hreachable, haddress⟩, order, final,
    hsearch, j, hj, haddress⟩
  exact hmissed j ((hbody.mp hfollows j).mpr hreachable) haddress

end MethodLift.Body
