import MethodLift.Proofs.DefinedBeforeUse
import MethodLift.Proofs.Provenance

/-!
# The state the walk had at each position

The walk visits the body once, in order. `Walk.before s k` is the walk as it takes the step of the
instruction at position `k`, and `Walk.recorded s k` is that step. Later visits only add locals and
actions (`Extends`), so with the locals of the whole walk the step is the same.

`Walk.follows` are the ways that control may take from one position to the next. If a way leads
ahead, the state at its end knows nothing but what the step at its start left: see `before_ahead`.
Where a way leads back, nothing of the kind holds.
-/

namespace MethodLift

/-- Whatever `m` knows, `n` knows too. -/
def Machine.Below (m n : Machine) : Prop :=
  ∀ x c, m.content x = some c → n.content x = some c

namespace Setting

variable {s : Setting} {ls ls' : Locals} {n fresh : Nat} {m : Machine} {i : Instruction}

/-! ## Steps under more locals -/

theorem fieldAt?_locals (h : ∀ id < n, ls'[id]? = ls[id]?) {base : Value}
    (hb : ValueInScope n (some base)) (offset : Int64) :
    s.fieldAt? ls' base offset = s.fieldAt? ls base offset := by
  cases base with
  | «local» id => simp only [fieldAt?, h id ((ValueInScope.local_iff n id).mp hb)]
  | constant _ | field _ _ | classPointer _ | staticFields _ => rfl

/-- Locals made later play no part in a step. -/
theorem step_locals (h : ∀ id < n, ls'[id]? = ls[id]?) (hm : m.InScope n) :
    s.step ls' fresh m i = s.step ls fresh m i := by
  have hload : s.stepLoad ls' fresh m i = s.stepLoad ls fresh m i := by
    unfold stepLoad
    split
    · split
      · rename_i ref _
        split
        · rfl
        · cases hp : s.place m i ref with
          | relative base offset =>
            have hfield := fieldAt?_locals (s := s) h (place_inScope hm hp) offset
            cases base <;> simp only [loadFrom, loadField, hfield]
          | stack slot => rfl
          | global a => rfl
          | unknown => rfl
      · rfl
    · rfl
  have hstore : s.stepStore ls' m i = s.stepStore ls m i := by
    unfold stepStore
    split
    · rfl
    · rename_i ref source _
      simp only
      cases hp : s.place m i ref with
      | relative base offset =>
        have hfield := fieldAt?_locals (s := s) h (place_inScope hm hp) offset
        simp only [hfield]
      | stack slot => rfl
      | global a => rfl
      | unknown => rfl
  unfold step
  cases s.isa.kind i with
  | load => exact hload
  | store => exact hstore
  | nop | trap | move | loadAddress | arithmetic _ | compare | test | conditionalJump _
  | compareZeroAndBranch _ | jump | call | indirectCall | indirectJump | ret | push | pop | invalid
  | unknown => rfl

end Setting

namespace Walk

variable {s : Setting} {w w' : Walk} {i : Instruction}

/-! ## Later visits -/

/-- The walk went on from `w` to `w'`. -/
structure Extends (w w' : Walk) : Prop where
  locals : w.locals <+: w'.locals
  actions : w.actions <+: w'.actions
  imports : w.imports <+: w'.imports

theorem Extends.refl (w : Walk) : w.Extends w :=
  ⟨List.prefix_rfl, List.prefix_rfl, List.prefix_rfl⟩

theorem Extends.trans {u : Walk} (h : w.Extends w') (h' : w'.Extends u) : w.Extends u :=
  ⟨h.locals.trans h'.locals, h.actions.trans h'.actions, h.imports.trans h'.imports⟩

/-- Arrive at an instruction, which may be a branch target. -/
def arrive (s : Setting) (w : Walk) (i : Instruction) : Walk :=
  if (Graph.branchTargets s.isa s.body).contains i.address then w.enter i.address else w

theorem locals_arrive : (w.arrive s i).locals = w.locals := by
  unfold arrive
  split <;> rfl

theorem nextSlot_arrive : (w.arrive s i).nextSlot = w.nextSlot := by
  unfold arrive
  split <;> rfl

theorem extends_arrive : w.Extends (w.arrive s i) := by
  unfold arrive
  split
  · exact ⟨List.prefix_rfl, List.prefix_append _ _, List.prefix_rfl⟩
  · exact .refl w

theorem extends_branch : w.Extends (w.branch s i) := by
  unfold branch
  split
  · split
    · unfold branchBack
      split
      · exact .refl w
      · split
        · exact .refl w
        · exact ⟨List.prefix_rfl, List.prefix_append _ _, List.prefix_rfl⟩
    · exact ⟨List.prefix_rfl, List.prefix_rfl, List.prefix_rfl⟩
  · exact .refl w

theorem extends_advance : w.Extends (w.advance s i) :=
  ⟨List.prefix_append _ _, List.prefix_append _ _, List.prefix_append _ _⟩

theorem extends_step : ((w.arrive s i).advance s i).Extends (visit s w i) :=
  ⟨extends_branch.locals, extends_branch.actions, extends_branch.imports⟩

theorem extends_visit : w.Extends (visit s w i) :=
  (extends_arrive.trans extends_advance).trans extends_step

theorem extends_foldl (is : List Instruction) (w : Walk) : w.Extends (is.foldl (visit s) w) := by
  induction is generalizing w with
  | nil => exact .refl w
  | cons i is ih => exact extends_visit.trans (ih _)

/-! ## Positions -/

/-- The walk over the first `k` instructions. -/
def upTo (s : Setting) (k : Nat) : Walk := (s.body.take k).foldl (visit s) (start s)

/-- The walk as it takes the step at position `k`. -/
def before (s : Setting) (k : Nat) : Walk :=
  match s.body[k]? with
  | some i => (upTo s k).arrive s i
  | none => upTo s k

/-- The step that the walk took at position `k`. -/
def recorded (s : Setting) (k : Nat) : Step :=
  match s.body[k]? with
  | some i => s.step (before s k).locals (before s k).locals.length (before s k).machine i
  | none => { machine := (before s k).machine }

variable {k t : Nat}

theorem before_eq (h : s.body[k]? = some i) : before s k = (upTo s k).arrive s i := by
  simp [before, h]

theorem recorded_eq (h : s.body[k]? = some i) : recorded s k =
    s.step (before s k).locals (before s k).locals.length (before s k).machine i := by
  simp [recorded, h]

theorem locals_before : (before s k).locals = (upTo s k).locals := by
  unfold before
  split
  · exact locals_arrive
  · rfl

theorem upTo_succ (h : s.body[k]? = some i) : upTo s (k + 1) = visit s (upTo s k) i := by
  simp [upTo, List.take_add_one, h]

theorem extends_run (k : Nat) : (upTo s k).Extends (run s) := by
  have h : run s = (s.body.drop k).foldl (visit s) (upTo s k) := by
    rw [upTo, ← List.foldl_append, List.take_append_drop, run]
  rw [h]
  exact extends_foldl _ _

theorem upTo_wellScoped (k : Nat) : (upTo s k).WellScoped s :=
  List.foldlRecOn _ _ (.start s) fun _ h i _ => h.visit i

theorem before_inScope (k : Nat) : (before s k).machine.InScope (upTo s k).locals.length := by
  have h := upTo_wellScoped (s := s) k
  unfold before
  split
  · unfold arrive
    split
    · exact (h.enter _).machine
    · exact h.machine
  · exact h.machine

/-- With the locals of the whole walk, the step at a position is the one that was recorded. -/
theorem recorded_eq_step (h : s.body[k]? = some i) : recorded s k =
    s.step (run s).locals (upTo s k).locals.length (before s k).machine i := by
  rw [recorded_eq h, locals_before]
  refine (Setting.step_locals (n := (upTo s k).locals.length) (fun id hid => ?_)
    (before_inScope k)).symm
  obtain ⟨later, hlater⟩ := (extends_run (s := s) k).locals
  rw [← hlater, List.getElem?_append_left hid]

/-- What was recorded at a position is among the actions of the walk. -/
theorem recorded_mem (h : s.body[k]? = some i) {e : Effect} (he : e ∈ (recorded s k).effects) :
    ⟨i.address, e⟩ ∈ (run s).actions := by
  refine (extends_run (k + 1)).actions.subset ?_
  rw [upTo_succ h]
  refine extends_step.actions.subset (List.mem_append_right _ (List.mem_map_of_mem ?_))
  rw [recorded_eq h, before_eq h] at he
  exact he

theorem before_zero : (before s 0).machine = s.entryMachine := by
  unfold before
  split
  · unfold arrive
    split <;> rfl
  · rfl

/-! ## Ways -/

/-- Control may pass from one position to another: to the next one, or along a branch. -/
def follows (s : Setting) (k t : Nat) : Bool :=
  match s.body[k]?, s.body[t]? with
  | some i, some j => (passes s i && t == k + 1) || branchTarget? s i == some j.address
  | _, _ => false

theorem follows_cases (h : follows s k t = true) : ∃ i j, s.body[k]? = some i ∧
    s.body[t]? = some j ∧
      ((passes s i = true ∧ t = k + 1) ∨ branchTarget? s i = some j.address) := by
  unfold follows at h
  split at h
  · rename_i i j hi hj
    refine ⟨i, j, hi, hj, ?_⟩
    simpa using h
  · cases h

/-- On its way to a target, `w` carries a state that knows no more than `m`. -/
def Carries (w : Walk) (target : UInt64) (m : Machine) : Prop :=
  ∃ n, w.incoming.get? target = some n ∧ n.Below m

theorem machine_branch : (w.branch s i).machine = w.machine := by
  unfold branch
  split
  · split
    · unfold branchBack
      split
      · rfl
      · split <;> rfl
    · rfl
  · rfl

namespace Carries

variable {target : UInt64} {m : Machine}

/-- A branch ahead brings the state along. -/
theorem start (w : Walk) (target : UInt64) : (w.branchAhead target).Carries target w.machine := by
  refine ⟨_, (FinMap.get?_insert _ _ _ _).trans (if_pos rfl), ?_⟩
  split
  · exact fun x c h => (Machine.content_join _ h).2
  · exact fun x c h => h

theorem branchAhead (h : w.Carries target m) (other : UInt64) :
    (w.branchAhead other).Carries target m := by
  obtain ⟨n, hn, hb⟩ := h
  by_cases ho : target = other
  · subst ho
    refine ⟨n.join w.machine, by simp [Walk.branchAhead, FinMap.get?_insert, hn], ?_⟩
    exact fun x c hc => hb x c (Machine.content_join _ hc).1
  · exact ⟨n, by simp [Walk.branchAhead, FinMap.get?_insert, ho, hn], hb⟩

theorem branch (h : w.Carries target m) (i : Instruction) : (w.branch s i).Carries target m := by
  unfold Walk.branch
  split
  · split
    · unfold branchBack
      split
      · exact h
      · split <;> exact h
    · exact h.branchAhead _
  · exact h

theorem arrive (h : w.Carries target m) (hne : target ≠ i.address) :
    (w.arrive s i).Carries target m := by
  unfold Walk.arrive
  split
  · obtain ⟨n, hn, hb⟩ := h
    exact ⟨n, by simp [enter, FinMap.get?_erase, hne, hn], hb⟩
  · exact h

/-- Other instructions on the way leave it as it is, or make it know less. -/
theorem visit (h : w.Carries target m) (hne : target ≠ i.address) :
    (visit s w i).Carries target m :=
  Carries.branch (w := (w.arrive s i).advance s i) (h.arrive hne) i

end Carries

/-- Once on its way, a state is carried until its target is reached. -/
theorem carries_upTo {target : UInt64} {m : Machine} (h : (upTo s (k + 1)).Carries target m)
    (hne : ∀ (l : Nat) (i : Instruction), k < l → l < t → s.body[l]? = some i → target ≠ i.address)
    (hkt : k < t) (htl : t ≤ s.body.length) : (upTo s t).Carries target m := by
  obtain ⟨d, rfl⟩ := Nat.exists_eq_add_of_lt hkt
  induction d with
  | zero => exact h
  | succ d ih =>
    have hlt : k + d + 1 < s.body.length := by omega
    have hi : s.body[k + d + 1]? = some s.body[k + d + 1] := List.getElem?_eq_getElem hlt
    have hprev : (upTo s (k + d + 1)).Carries target m :=
      ih (fun l i hl hl' => hne l i hl (by omega)) (by omega) (by omega)
    have hstep := hprev.visit (s := s) (hne _ _ (by omega) (by omega) hi)
    rw [← upTo_succ hi] at hstep
    exact hstep

/-- Falling into an instruction, the walk knows no more than before. -/
theorem below_of_fallsThrough (h : w.fallsThrough = true) (j : Instruction) :
    (w.arrive s j).machine.Below w.machine := by
  unfold arrive enter
  split
  · cases w.incoming.get? j.address with
    | some m => exact fun x c hc => (Machine.content_join _ hc).1
    | none => exact fun x c hc => hc
  · exact fun x c hc => hc

/-- At a branch target, the walk knows no more than each branch brought along. -/
theorem Carries.below {j : Instruction} {m : Machine} (h : w.Carries j.address m)
    (hlabel : (Graph.branchTargets s.isa s.body).contains j.address = true) :
    (w.arrive s j).machine.Below m := by
  obtain ⟨n, hn, hb⟩ := h
  unfold Walk.arrive enter
  simp only [hlabel, if_true, hn]
  split
  · exact fun x c hc => hb x c (Machine.content_join _ hc).2
  · exact hb

theorem label_of_branch {j : Instruction} (hi : i ∈ s.body)
    (h : branchTarget? s i = some j.address) :
    (Graph.branchTargets s.isa s.body).contains j.address = true := by
  unfold branchTarget? at h
  split at h
  · rename_i hd
    rw [List.contains_iff_mem]
    exact List.mem_filterMap.mpr ⟨i, List.mem_filter.mpr ⟨hi, hd⟩, h⟩
  · cases h

theorem machine_upTo_succ (h : s.body[k]? = some i) :
    (upTo s (k + 1)).machine = (recorded s k).machine := by
  rw [upTo_succ h, recorded_eq h, before_eq h]
  exact machine_branch

/-- Ahead, the state at the end of a way knows nothing but what the step at its start left. -/
theorem before_ahead (haddress : s.body.Pairwise fun i j => i.address < j.address)
    (h : follows s k t = true) (hlt : k < t) :
    (before s t).machine.Below (recorded s k).machine := by
  obtain ⟨i, j, hi, hj, hway⟩ := follows_cases h
  obtain ⟨hk, rfl⟩ := List.getElem?_eq_some_iff.mp hi
  obtain ⟨ht, rfl⟩ := List.getElem?_eq_some_iff.mp hj
  have increasing : ∀ {l l' : Nat} (hl : l < s.body.length) (hl' : l' < s.body.length), l < l' →
      s.body[l].address < s.body[l'].address := fun hl hl' hll =>
    List.pairwise_iff_getElem.mp haddress _ _ hl hl' hll
  rw [before_eq hj]
  rcases hway with ⟨hpass, rfl⟩ | hbranch
  · rw [← machine_upTo_succ hi]
    refine below_of_fallsThrough ?_ _
    rw [upTo_succ hi]
    exact hpass
  · have hahead := increasing hk ht hlt
    have hstart : (upTo s (k + 1)).Carries s.body[t].address (recorded s k).machine := by
      rw [upTo_succ hi, recorded_eq hi, before_eq hi]
      have hcarry := Carries.start (((upTo s k).arrive s s.body[k]).advance s s.body[k])
        s.body[t].address
      have hvisit : (((upTo s k).arrive s s.body[k]).advance s s.body[k]).branch s s.body[k] =
          (((upTo s k).arrive s s.body[k]).advance s s.body[k]).branchAhead s.body[t].address := by
        rw [branch, hbranch]
        exact if_neg (UInt64.not_le.mpr hahead)
      rw [← hvisit] at hcarry
      exact hcarry
    refine (carries_upTo hstart (fun l i hl hl' hli => ?_) hlt (Nat.le_of_lt ht)).below
      (label_of_branch (List.getElem_mem hk) hbranch)
    obtain ⟨hlen, rfl⟩ := List.getElem?_eq_some_iff.mp hli
    exact (UInt64.ne_of_lt (increasing hlen ht hl')).symm

end Walk

end MethodLift
