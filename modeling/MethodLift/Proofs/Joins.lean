import Mathlib.Data.List.Induction
import Mathlib.Data.Nat.Init
import MethodLift.Proofs.Layout

/-!
# The state at a branch target

Branches ahead are met one by one, and each brings its state along: it is joined into what the
branches before it brought to the same target. At the target, what was brought is joined with the
current state if control falls into it, and replaces it otherwise.

`Machine.IsJoinOf` says what comes out, without an order: of each register and stack slot what all
states agree on; the pushed values and the flags if all states have the same, and nothing
otherwise. Pushed values are not compared one by one. Two stacks that differ leave the empty one,
which differs from any other stack that comes later, so that what is joined once stays as it is.

* `IsJoinOf.join`: the join of two joins.
* `IsJoinOf.alike`: there is only one such state, so the order of the joins does not matter.
* `awaits_upTo`: what is on its way to a target when the walk has come to a position.
-/

namespace MethodLift

namespace Machine

/-- The two states know the same. -/
structure Alike (m n : Machine) : Prop where
  registers : ∀ r, m.registers.get? r = n.registers.get? r
  stack : ∀ slot, m.stack.get? slot = n.stack.get? slot
  pushed : m.pushed = n.pushed
  comparison : m.comparison = n.comparison

/-- `x` is what all states of `S` have at `part`, if it is the same, and `nothing` otherwise. -/
def Common {α : Type} (S : Machine → Prop) (part : Machine → α) (nothing x : α) : Prop :=
  (∀ n, S n → part n = x) ∨ x = nothing ∧ ∃ n k, S n ∧ S k ∧ part n ≠ part k

/-- `m` knows exactly what the states of `S` agree on. -/
structure IsJoinOf (S : Machine → Prop) (m : Machine) : Prop where
  registers : ∀ r v, m.registers.get? r = some v ↔ ∀ n, S n → n.registers.get? r = some v
  stack : ∀ slot v, m.stack.get? slot = some v ↔ ∀ n, S n → n.stack.get? slot = some v
  pushed : Common S Machine.pushed [] m.pushed
  comparison : Common S Machine.comparison none m.comparison

section

variable {α : Type} {S T : Machine → Prop} {m n : Machine} {part : Machine → α} {nothing x y : α}

/-- Parts that differ leave nothing, and nothing stays nothing. -/
theorem Common.join [DecidableEq α] (hS : ∃ n, S n) (hT : ∃ n, T n)
    (hx : Common S part nothing x) (hy : Common T part nothing y) :
    Common (fun n => S n ∨ T n) part nothing (if x = y then x else nothing) := by
  rcases hx with hx | ⟨rfl, n, k, hn, hk, hne⟩
  · rcases hy with hy | ⟨rfl, n, k, hn, hk, hne⟩
    · by_cases hxy : x = y
      · left
        rintro n (hn | hn)
        · rw [if_pos hxy, hx n hn]
        · rw [if_pos hxy, hxy, hy n hn]
      · obtain ⟨n, hn⟩ := hS
        obtain ⟨k, hk⟩ := hT
        refine .inr ⟨if_neg hxy, n, k, .inl hn, .inr hk, ?_⟩
        rwa [hx n hn, hy k hk]
    · exact .inr ⟨by split <;> simp [*], n, k, .inr hn, .inr hk, hne⟩
  · exact .inr ⟨by simp, n, k, .inl hn, .inl hk, hne⟩

/-- Of a nonempty set of states there is one common part. -/
theorem Common.unique (hS : ∃ n, S n) (hx : Common S part nothing x)
    (hy : Common S part nothing y) : x = y := by
  obtain ⟨n, hn⟩ := hS
  rcases hx with hx | ⟨hx, a, b, ha, hb, hne⟩
  · rcases hy with hy | ⟨-, a, b, ha, hb, hne⟩
    · rw [← hx n hn, hy n hn]
    · exact absurd ((hx a ha).trans (hx b hb).symm) hne
  · rcases hy with hy | ⟨hy, -⟩
    · exact absurd ((hy a ha).trans (hy b hb).symm) hne
    · rw [hx, hy]

theorem isJoinOf_self (m : Machine) : IsJoinOf (· = m) m where
  registers := by simp
  stack := by simp
  pushed := .inl (by simp)
  comparison := .inl (by simp)

/-- The join of two joins is the join of all their states. -/
theorem IsJoinOf.join (hS : ∃ n, S n) (hT : ∃ n, T n) (hm : IsJoinOf S m) (hn : IsJoinOf T n) :
    IsJoinOf (fun k => S k ∨ T k) (m.join n) where
  registers r v := by
    rw [Machine.join, FinMap.get?_agree, hm.registers, hn.registers]
    simp only [or_imp, forall_and]
  stack slot v := by
    rw [Machine.join, FinMap.get?_agree, hm.stack, hn.stack]
    simp only [or_imp, forall_and]
  pushed := hm.pushed.join hS hT hn.pushed
  comparison := hm.comparison.join hS hT hn.comparison

/-- One more state is joined. -/
theorem IsJoinOf.add (hS : ∃ n, S n) (h : IsJoinOf S m) (n : Machine) :
    IsJoinOf (fun k => S k ∨ k = n) (m.join n) := by
  have hn : ∃ k, k = n := ⟨n, rfl⟩
  exact h.join hS hn (isJoinOf_self n)

theorem IsJoinOf.of_iff (h : IsJoinOf S m) (hST : ∀ n, S n ↔ T n) : IsJoinOf T m := by
  obtain rfl : S = T := funext fun n => propext (hST n)
  exact h

/-- A nonempty set of states has one join. -/
theorem IsJoinOf.alike (hS : ∃ n, S n) (hm : IsJoinOf S m) (hn : IsJoinOf S n) : m.Alike n where
  registers r := Option.ext fun v => (hm.registers r v).trans (hn.registers r v).symm
  stack slot := Option.ext fun v => (hm.stack slot v).trans (hn.stack slot v).symm
  pushed := hm.pushed.unique hS hn.pushed
  comparison := hm.comparison.unique hS hn.comparison

/-- Joining states one after another gives the join of them all. -/
theorem isJoinOf_foldl (m : Machine) (ms : List Machine) :
    IsJoinOf (· ∈ m :: ms) (ms.foldl Machine.join m) := by
  induction ms using List.reverseRecOn with
  | nil => exact (isJoinOf_self m).of_iff fun n => by simp
  | append_singleton ms n ih =>
    rw [List.foldl_append, List.foldl_cons, List.foldl_nil]
    refine (ih.add ⟨m, List.mem_cons_self ..⟩ n).of_iff fun k => ?_
    simp [or_assoc]

/-- What is on its way to a target to which the states of `S` were brought. -/
def Awaits (S : Machine → Prop) : Option Machine → Prop
  | none => ∀ n, ¬S n
  | some m => (∃ n, S n) ∧ IsJoinOf S m

theorem Awaits.add {waiting : Option Machine} (h : Awaits S waiting) (m : Machine) :
    Awaits (fun n => S n ∨ n = m) (some (waiting.elim m fun n => n.join m)) := by
  refine ⟨⟨m, .inr rfl⟩, ?_⟩
  cases waiting with
  | none => exact (isJoinOf_self m).of_iff fun n => by simp [h n]
  | some n => exact h.2.add h.1 m

theorem Awaits.of_iff {waiting : Option Machine} (h : Awaits S waiting) (hST : ∀ n, S n ↔ T n) :
    Awaits T waiting := by
  obtain rfl : S = T := funext fun n => propext (hST n)
  exact h

end

end Machine

namespace Walk

open Machine

variable {s : Setting} {w : Walk} {i j : Instruction} {k t : Nat} {target : UInt64}

/-! ## Branches met on the way -/

/-- The state was brought to the target by a branch before position `k`. -/
def Brought (s : Setting) (target : UInt64) (k : Nat) (m : Machine) : Prop :=
  ∃ l i, l < k ∧ s.body[l]? = some i ∧ branchTarget? s i = some target ∧ (before s l).machine = m

theorem brought_succ (hi : s.body[k]? = some i) {m : Machine} :
    Brought s target (k + 1) m ↔ Brought s target k m ∨
      branchTarget? s i = some target ∧ m = (before s k).machine := by
  constructor
  · rintro ⟨l, i', hl, hi', ht, rfl⟩
    rcases Nat.lt_succ_iff_lt_or_eq.mp hl with hl | rfl
    · exact .inl ⟨l, i', hl, hi', ht, rfl⟩
    · cases hi.symm.trans hi'
      exact .inr ⟨ht, rfl⟩
  · rintro (⟨l, i', hl, hi', ht, rfl⟩ | ⟨ht, rfl⟩)
    · exact ⟨l, i', by omega, hi', ht, rfl⟩
    · exact ⟨k, i, by omega, hi, ht, rfl⟩

theorem direct_of_branchTarget? (h : branchTarget? s i = some target) :
    (s.isa.kind i).isDirectBranch = true ∧ i.target? = some target ∧
      s.isInside target = true := by
  unfold branchTarget? at h
  split at h
  · rename_i hd
    obtain ⟨ht, hin⟩ := Option.filter_eq_some_iff.mp h
    exact ⟨hd, ht, hin⟩
  · cases h

/-- A branch inside the body does not change the state. -/
theorem machine_step_of_branch (h : branchTarget? s i = some target) (ls : Locals) (fresh : Nat)
    (m : Machine) : (s.step ls fresh m i).machine = m := by
  obtain ⟨hd, ht, hin⟩ := direct_of_branchTarget? h
  unfold Setting.step
  cases hk : s.isa.kind i with
  | jump => simp [Setting.stepJump, ht, hin]
  | conditionalJump c => rfl
  | compareZeroAndBranch c => rfl
  | nop | move | load | store | loadAddress | arithmetic _ | compare | test | indirectJump | call
  | indirectCall | ret | push | pop | trap | invalid | unknown =>
    simp [hk, InstructionKind.isDirectBranch, InstructionKind.isConditional] at hd

/-- A branch ahead is the only thing that changes what is on its way to a target. -/
theorem incoming_branch (hahead : i.address < target) :
    (w.branch s i).incoming.get? target =
      if branchTarget? s i = some target then
        some ((w.incoming.get? target).elim w.machine fun m => m.join w.machine)
      else w.incoming.get? target := by
  unfold branch
  cases hb : branchTarget? s i with
  | none => simp
  | some other =>
    by_cases hother : other = target
    · subst hother
      simp only [UInt64.not_le.mpr hahead, if_false, branchAhead, FinMap.get?_insert, if_true]
      cases w.incoming.get? other <;> rfl
    · simp only [Option.some.injEq, hother, if_false]
      split
      · unfold branchBack
        split
        · rfl
        · split <;> rfl
      · simp [branchAhead, FinMap.get?_insert, Ne.symm hother]

theorem incoming_arrive (hahead : i.address < target) :
    (w.arrive s i).incoming.get? target = w.incoming.get? target := by
  unfold arrive
  split
  · simp [enter, FinMap.get?_erase, (UInt64.ne_of_lt hahead).symm]
  · rfl

/-- What one visit adds to what is on its way to a target ahead. -/
theorem incoming_upTo_succ (hi : s.body[k]? = some i) (hahead : i.address < target) :
    (upTo s (k + 1)).incoming.get? target =
      if branchTarget? s i = some target then
        some (((upTo s k).incoming.get? target).elim (before s k).machine
          fun m => m.join (before s k).machine)
      else (upTo s k).incoming.get? target := by
  have hvisit : (upTo s (k + 1)).incoming = (((before s k).advance s i).branch s i).incoming := by
    rw [upTo_succ hi, before_eq hi]
    rfl
  have harrive : ((before s k).advance s i).incoming.get? target =
      (upTo s k).incoming.get? target := by
    rw [before_eq hi]
    exact incoming_arrive hahead
  rw [hvisit, incoming_branch hahead, harrive]
  split
  · rename_i hb
    have hmachine : ((before s k).advance s i).machine = (before s k).machine :=
      machine_step_of_branch hb ..
    rw [hmachine]
  · rfl

/-- As long as the target is ahead, the join of all that was brought to it is on its way. -/
theorem awaits_upTo (hahead : ∀ l i, l < k → s.body[l]? = some i → i.address < target)
    (hk : k ≤ s.body.length) :
    Awaits (Brought s target k) ((upTo s k).incoming.get? target) := by
  induction k with
  | zero =>
    rintro n ⟨l, -, hl, -⟩
    omega
  | succ k ih =>
    have hi : s.body[k]? = some s.body[k] := List.getElem?_eq_getElem hk
    have hprev := ih (fun l i hl => hahead l i (by omega)) (by omega)
    rw [incoming_upTo_succ hi (hahead k _ (by omega) hi)]
    split
    · rename_i hb
      exact (hprev.add _).of_iff fun n => by simp [brought_succ hi, hb]
    · rename_i hb
      exact hprev.of_iff fun n => by simp [brought_succ hi, hb]

/-! ## At the target -/

/-- A state that comes to a position: along a branch from before it, or from the instruction before
it if control passes on. -/
inductive Arrives (s : Setting) (t : Nat) : Machine → Prop
  | branch {k : Nat} {i j : Instruction} : k < t → s.body[k]? = some i → s.body[t]? = some j →
      branchTarget? s i = some j.address → Arrives s t (before s k).machine
  | fall {k : Nat} {i : Instruction} : t = k + 1 → s.body[k]? = some i → passes s i = true →
      Arrives s t (recorded s k).machine

theorem arrives_iff (hj : s.body[t]? = some j) {m : Machine} :
    Arrives s t m ↔ Brought s j.address t m ∨
      ∃ k i, t = k + 1 ∧ s.body[k]? = some i ∧ passes s i = true ∧ m = (recorded s k).machine := by
  constructor
  · intro h
    cases h with
    | branch hk hi hj' hb =>
      cases hj.symm.trans hj'
      exact .inl ⟨_, _, hk, hi, hb, rfl⟩
    | fall ht hi hp => exact .inr ⟨_, _, ht, hi, hp, rfl⟩
  · rintro (⟨k, i, hk, hi, hb, rfl⟩ | ⟨k, i, ht, hi, hp, rfl⟩)
    · exact .branch hk hi hj hb
    · exact .fall ht hi hp

/-- Coming to a target to which branches lead, the walk has the join of all that arrives. -/
theorem isJoinOf_before (haddress : s.body.Pairwise fun i j => i.address < j.address)
    (hj : s.body[t]? = some j) (hbranch : ∃ m, Brought s j.address t m) :
    IsJoinOf (Arrives s t) (before s t).machine := by
  obtain ⟨m, hm⟩ := hbranch
  obtain ⟨l, i, hl, hi, hb, -⟩ := id hm
  have ht : t < s.body.length := (List.getElem?_eq_some_iff.mp hj).1
  have hlabel := label_of_branch (List.mem_of_getElem? hi) hb
  have hwait : Awaits (Brought s j.address t) ((upTo s t).incoming.get? j.address) :=
    awaits_upTo (fun l i hl hi => address_lt haddress hi hj hl) (by omega)
  -- There is an instruction before the target, since a branch stands there.
  obtain ⟨k, rfl⟩ : ∃ k, t = k + 1 := ⟨t - 1, by omega⟩
  have hk : s.body[k]? = some s.body[k] := List.getElem?_eq_getElem (by omega)
  have hfalls : (upTo s (k + 1)).fallsThrough = passes s s.body[k] := by rw [upTo_succ hk]; rfl
  have harrives : ∀ n, Arrives s (k + 1) n ↔ Brought s j.address (k + 1) n ∨
      passes s s.body[k] = true ∧ n = (recorded s k).machine := by
    intro n
    rw [arrives_iff hj]
    refine or_congr_right ⟨?_, fun h => ⟨k, _, rfl, hk, h⟩⟩
    rintro ⟨k', i', hk', hi', hp, rfl⟩
    obtain rfl : k = k' := by omega
    cases hk.symm.trans hi'
    exact ⟨hp, rfl⟩
  rw [before_eq hj, arrive, if_pos hlabel, enter]
  cases hincoming : (upTo s (k + 1)).incoming.get? j.address with
  | none =>
    rw [hincoming] at hwait
    exact absurd hm (hwait m)
  | some n =>
    rw [hincoming] at hwait
    simp only [hfalls]
    split
    · rename_i hp
      rw [machine_upTo_succ hk]
      have hrecorded : ∃ n, n = (recorded s k).machine := ⟨_, rfl⟩
      refine (IsJoinOf.join hrecorded hwait.1 (isJoinOf_self _) hwait.2).of_iff fun n => ?_
      simp [harrives n, hp, or_comm]
    · rename_i hp
      exact hwait.2.of_iff fun n => by simp [harrives n, hp]

theorem entered_branch : (w.branch s i).entered = w.entered := by
  unfold branch
  split
  · split
    · unfold branchBack
      split
      · rfl
      · split <;> rfl
    · rfl
  · rfl

/-- The state with which a branch target was entered is kept to the end of the walk. -/
theorem entered_run (haddress : s.body.Pairwise fun i j => i.address < j.address)
    (hj : s.body[t]? = some j)
    (hlabel : (Graph.branchTargets s.isa s.body).contains j.address = true) :
    (run s).entered.get? j.address = some (before s t).machine := by
  have ht : t < s.body.length := (List.getElem?_eq_some_iff.mp hj).1
  have hkept : ∀ k, t + 1 ≤ k → k ≤ s.body.length →
      (upTo s k).entered.get? j.address = some (before s t).machine := by
    intro k hk
    induction k, hk using Nat.le_induction with
    | base =>
      intro _
      have harrive : (upTo s t).arrive s j = (upTo s t).enter j.address := if_pos hlabel
      rw [upTo_succ hj, before_eq hj, visit, entered_branch, ← arrive, harrive]
      simp [advance, enter, FinMap.get?_insert]
    | succ k hk ih =>
      intro hlength
      have hi : s.body[k]? = some s.body[k] := List.getElem?_eq_getElem hlength
      have hne : j.address ≠ s.body[k].address :=
        UInt64.ne_of_lt (address_lt haddress hj hi (by omega))
      rw [upTo_succ hi, visit, entered_branch, ← arrive, ← ih (by omega)]
      unfold advance arrive
      split
      · simp [enter, FinMap.get?_insert, hne]
      · rfl
  rw [run_eq_upTo]
  exact hkept _ ht (Nat.le_refl _)

/-- A branch target to which an earlier instruction branches is entered with what all states that
arrive there agree on: the states at the earlier branches to it, and the state after the instruction
before it if control passes on. Joining these states gives the same in whatever order, also if some
of them are joined more than once. -/
theorem entered_with_join (s : Setting)
    (haddress : s.body.Pairwise fun i j => i.address < j.address) (t : Nat) (j : Instruction)
    (hj : s.body[t]? = some j)
    (hbranch : ∃ k i, k < t ∧ s.body[k]? = some i ∧ branchTarget? s i = some j.address) :
    ∃ m, (run s).entered.get? j.address = some m ∧ m = (before s t).machine ∧
      IsJoinOf (Arrives s t) m ∧
      ∀ n ns, (∀ k, k ∈ n :: ns ↔ Arrives s t k) → m.Alike (ns.foldl Machine.join n) := by
  obtain ⟨k, i, hk, hi, hb⟩ := hbranch
  have hjoin := isJoinOf_before haddress hj ⟨_, k, i, hk, hi, hb, rfl⟩
  have hentered := entered_run haddress hj (label_of_branch (List.mem_of_getElem? hi) hb)
  refine ⟨_, hentered, rfl, hjoin, ?_⟩
  intro n ns hns
  exact hjoin.alike ⟨_, .branch hk hi hj hb⟩ ((isJoinOf_foldl n ns).of_iff hns)

end Walk

/-- Two branches and the way straight on meet at the last move. They agree on the argument and on
the flags, but not on `rdx` or on what is pushed. -/
def meetingBody : List Instruction :=
  [.ofText 0x1000 (List.replicate 3 0x90) "mov" "rdx, rcx",
   .ofText 0x1003 (List.replicate 1 0x90) "push" "rcx",
   .ofText 0x1004 (List.replicate 3 0x90) "test" "rcx, rcx",
   .ofText 0x1007 (List.replicate 2 0x90) "je" "0x1013",
   .ofText 0x1009 (List.replicate 7 0x90) "mov" "rdx, 5",
   .ofText 0x1010 (List.replicate 2 0x90) "jg" "0x1013",
   .ofText 0x1012 (List.replicate 1 0x90) "pop" "rax",
   .ofText 0x1013 (List.replicate 3 0x90) "mov" "rax, rcx",
   .ofText 0x1016 (List.replicate 1 0x90) "ret" ""]

theorem Walk.entered_with_join_meeting :
    let s := plainSetting meetingBody
    let j := Instruction.ofText 0x1013 (List.replicate 3 0x90) "mov" "rax, rcx"
    (s.body.Pairwise fun i j => i.address < j.address) ∧ s.body[7]? = some j ∧
      (∃ k i, k < 7 ∧ s.body[k]? = some i ∧ branchTarget? s i = some j.address) ∧
      ∃ m, (run s).entered.get? 0x1013 = some m ∧
        m.registers.get? "rcx" = some (.local 0) ∧ m.registers.get? "rdx" = none ∧
        m.pushed = [] ∧ m.comparison.isSome = true ∧ Machine.IsJoinOf (Arrives s 7) m := by
  intro s j
  have haddress : s.body.Pairwise fun i j => i.address < j.address := by decide +kernel
  have hj : s.body[7]? = some j := by decide +kernel
  have hbranch : ∃ k i, k < 7 ∧ s.body[k]? = some i ∧ branchTarget? s i = some j.address :=
    ⟨3, .ofText 0x1007 (List.replicate 2 0x90) "je" "0x1013", by decide +kernel⟩
  have hknown : ((run s).entered.get? 0x1013).any (fun m =>
      m.registers.get? "rcx" = some (.local 0) ∧ m.registers.get? "rdx" = none ∧
        m.pushed = [] ∧ m.comparison.isSome = true) = true := by decide +kernel
  obtain ⟨m, hm, -, hjoin, -⟩ := entered_with_join s haddress 7 j hj hbranch
  have hm : (run s).entered.get? 0x1013 = some m := hm
  rw [hm] at hknown
  obtain ⟨hcx, hdx, hpushed, hcomparison⟩ := of_decide_eq_true hknown
  exact ⟨haddress, hj, hbranch, m, hm, hcx, hdx, hpushed, hcomparison, hjoin⟩

end MethodLift
