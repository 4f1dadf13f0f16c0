import MethodLift.Proofs.Replay
import MethodLift.Proofs.StepForms

/-!
# Where the code of an instruction stands

The actions of an emittable body are the parts that its instructions wrote, one after another in the
order of the body (`actions_run`); a part is a label, if a branch goes to the instruction, and then
what the instruction added. With increasing addresses the parts are told apart by the addresses of
their actions (`layout`, `actions_at`).

In the code of an effect nothing but the last instruction can be a label or send control elsewhere;
`Effect.Ends` says which instruction that is.
-/

namespace MethodLift

open Walk

/-! ## Control in the code of an effect -/

/-- The instruction marks a place that control may come to, or sends control elsewhere. -/
def Bytecode.isControl : Bytecode → Bool
  | label _ | branch _ _ | br _ | brtrue _ | brfalse _ | throw | ret => true
  | _ => false

theorem Bytecode.isControl_of_target? {b : Bytecode} {t : UInt64} (h : b.target? = some t) :
    b.isControl = true := by
  cases b with
  | branch _ _ | br _ | brtrue _ | brfalse _ => rfl
  | _ => cases h

/-- The instruction that the code of an effect ends with, if the effect does not go straight on. -/
inductive Effect.Ends : Effect → Bytecode → Prop
  | branch {condition : Condition} {comparison : Option Comparison} {target : UInt64}
      {b : Bytecode} : b.target? = some target → b ≠ .br target →
      Ends (.branch condition comparison target true) b
  | jump {target : UInt64} : Ends (.jump target true) (.br target)
  | label {target : UInt64} : Ends (.label target) (.label target)
  | throw {exception : Input} : Ends (.throw exception) .throw
  | throwNew {typeName : String} {d : TypeDefinition} : Ends (.throwNew typeName (some d)) .throw
  | ret {value : Option Input} : Ends (.ret value) .ret

theorem Effect.Ends.isStraight_eq_false {e : Effect} {b : Bytecode} (h : e.Ends b) :
    e.isStraight = false := by
  cases h <;> rfl

theorem Effect.Ends.eq_label {e : Effect} {target : UInt64} (h : e.Ends (.label target)) :
    e = .label target := by
  cases h with
  | branch ht _ => cases ht
  | label => rfl

section

variable {ls : Locals} {e : Effect} {code : List Bytecode} {method : Method}

theorem Local.isControl_load (l : Local) : l.load.isControl = false := by
  unfold Local.load
  split <;> rfl

theorem Local.isControl_store (l : Local) : l.store.isControl = false := by
  unfold Local.store
  split <;> rfl

theorem Value.isControl_load {v : Value} (h : v.load ls = .ok code) :
    ∀ b ∈ code, b.isControl = false := by
  unfold Value.load at h
  split at h
  · simp only [except_bind_eq_ok, except_pure_eq_ok] at h
    obtain ⟨l, -, rfl⟩ := h
    simp [l.isControl_load]
  · rename_i c
    cases h
    intro b hb
    rw [List.mem_singleton.mp hb]
    cases c <;> rfl
  · simp only [except_bind_eq_ok, except_pure_eq_ok] at h
    obtain ⟨l, -, rfl⟩ := h
    intro b hb
    simp only [List.mem_cons, List.not_mem_nil, or_false] at hb
    rcases hb with rfl | rfl
    · exact l.isControl_load
    · rfl
  · cases h
    intro b hb
    rw [List.mem_singleton.mp hb]
    rfl
  · cases h
  · cases h

theorem Input.isControl_load {i : Input} (h : i.load ls = .ok code) :
    ∀ b ∈ code, b.isControl = false := by
  obtain ⟨v, -, hv⟩ := load_eq_ok_iff.mp h
  exact v.isControl_load hv

theorem isControl_loadsTo {is : List Input} {codes : List (List Bytecode)}
    (h : LoadsTo ls is codes) : ∀ b ∈ codes.flatten, b.isControl = false := by
  intro b hb
  obtain ⟨c, hc, hbc⟩ := List.mem_flatten.mp hb
  obtain ⟨i, -, hi⟩ := mem_of_loadsTo h hc
  exact Input.isControl_load hi b hbc

theorem Comparison.Emits.control {c : Comparison} {target : UInt64} {condition : Condition}
    (h : c.Emits ls target condition code) : ∃ front b, code = front ++ [b] ∧
      (∀ x ∈ front, x.isControl = false) ∧ b.target? = some target ∧ b ≠ .br target := by
  cases h with
  | zero _ hl => exact ⟨_, _, rfl, Input.isControl_load hl, rfl, by simp⟩
  | nonzero _ hl => exact ⟨_, _, rfl, Input.isControl_load hl, rfl, by simp⟩
  | test _ hl hr _ =>
    refine ⟨_, _, rfl, fun x hx => ?_, rfl, by simp⟩
    rcases List.mem_append.mp hx with hx | hx
    · exact Input.isControl_load hl x hx
    · exact Input.isControl_load hr x hx

/-- The code of an effect holds no control, or only its last instruction does. -/
theorem Effect.Emits.control (h : e.Emits ls code) (hf : e.Fits method) :
    (e.isStraight = true ∧ ∀ b ∈ code, b.isControl = false) ∨
      ∃ front b, code = front ++ [b] ∧ (∀ x ∈ front, x.isControl = false) ∧ e.Ends b := by
  cases h with
  | arithmetic hl hr _ =>
    refine .inl ⟨rfl, fun b hb => ?_⟩
    simp only [List.mem_append, List.mem_cons, List.not_mem_nil, or_false] at hb
    rcases hb with (hb | hb) | rfl | rfl
    · exact Input.isControl_load hl b hb
    · exact Input.isControl_load hr b hb
    · rfl
    · exact Local.isControl_store _
  | convert hc _ =>
    refine .inl ⟨rfl, fun b hb => ?_⟩
    simp only [List.mem_append, List.mem_singleton] at hb
    rcases hb with (hb | hb) | rfl
    · exact Input.isControl_load hc b hb
    · obtain ⟨size, signed, rfl⟩ := hf b hb
      rfl
    · exact Local.isControl_store _
  | bookkeeping hi =>
    refine .inl ⟨?_, by simp⟩
    cases e <;> simp_all [isImportant, isStraight]
  | readField hc _ =>
    refine .inl ⟨rfl, fun b hb => ?_⟩
    simp only [List.mem_append, List.mem_singleton] at hb
    rcases hb with hb | rfl
    · exact Value.isControl_load hc b hb
    · exact Local.isControl_store _
  | writeObject _ hc =>
    refine .inl ⟨rfl, fun b hb => ?_⟩
    simp only [List.cons_append, List.mem_cons, List.mem_append, List.not_mem_nil, or_false] at hb
    rcases hb with rfl | hb | rfl
    · exact Local.isControl_load _
    · exact Input.isControl_load hc b hb
    · rfl
  | writeStatic hc =>
    refine .inl ⟨rfl, fun b hb => ?_⟩
    simp only [List.mem_append, List.mem_singleton] at hb
    rcases hb with hb | rfl
    · exact Input.isControl_load hc b hb
    · rfl
  | branch _ hc =>
    obtain ⟨front, b, rfl, hfront, htarget, hbr⟩ := hc.control
    exact .inr ⟨front, b, rfl, hfront, .branch htarget hbr⟩
  | jump => exact .inr ⟨[], _, rfl, by simp, .jump⟩
  | label => exact .inr ⟨[], _, rfl, by simp, .label⟩
  | call hc =>
    refine .inl ⟨rfl, fun b hb => ?_⟩
    rcases List.mem_append.mp hb with hb | hb
    · exact isControl_loadsTo hc b hb
    · rw [List.mem_singleton.mp hb]
      rfl
  | callResult hc _ =>
    refine .inl ⟨rfl, fun b hb => ?_⟩
    simp only [List.mem_append, List.mem_cons, List.not_mem_nil, or_false] at hb
    rcases hb with hb | rfl | rfl
    · exact isControl_loadsTo hc b hb
    · rfl
    · exact Local.isControl_store _
  | allocate _ =>
    refine .inl ⟨rfl, fun b hb => ?_⟩
    simp only [List.mem_cons, List.not_mem_nil, or_false] at hb
    rcases hb with rfl | rfl
    · rfl
    · exact Local.isControl_store _
  | allocateArray hc _ =>
    refine .inl ⟨rfl, fun b hb => ?_⟩
    simp only [List.mem_append, List.mem_cons, List.not_mem_nil, or_false] at hb
    rcases hb with hb | rfl | rfl
    · exact Input.isControl_load hc b hb
    · rfl
    · exact Local.isControl_store _
  | throw hc => exact .inr ⟨_, _, rfl, Input.isControl_load hc, .throw⟩
  | throwNew =>
    refine .inr ⟨[_], _, rfl, fun x hx => ?_, .throwNew⟩
    rw [List.mem_singleton.mp hx]
    rfl
  | retVoid => exact .inr ⟨[], _, rfl, by simp, .ret⟩
  | ret hc => exact .inr ⟨_, _, rfl, Input.isControl_load hc, .ret⟩

/-- A control instruction in the code of an effect is the last one, and the one that the effect
ends with. -/
theorem Effect.Ends.of_mem (h : e.bytecode ls = .ok code) (hf : e.Fits method)
    {front back : List Bytecode} {b : Bytecode} (hcode : code = front ++ b :: back)
    (hb : b.isControl = true) : back = [] ∧ e.Ends b := by
  rcases (emits_of_bytecode h).control hf with ⟨-, hnone⟩ | ⟨before, last, hlast, hbefore, hends⟩
  · rw [hnone b (by simp [hcode])] at hb
    cases hb
  · rcases List.eq_nil_or_concat back with rfl | ⟨init, x, rfl⟩
    · obtain ⟨-, hlast⟩ := List.append_inj' (hcode.symm.trans hlast) rfl
      cases hlast
      exact ⟨rfl, hends⟩
    · -- Otherwise it would stand before the last one.
      have hsplit : front ++ b :: init ++ [x] = before ++ [last] := by
        rw [← hlast, hcode]
        simp
      obtain ⟨hinit, -⟩ := List.append_inj' hsplit rfl
      rw [hbefore b (by simp [← hinit])] at hb
      cases hb

end

/-! ## The code of a list of actions -/

theorem emitAll_cons {ls : Locals} {a : Action} {as : List Action} {code : List Bytecode} :
    emitAll ls (a :: as) = .ok code ↔
      ∃ first rest, a.effect.bytecode ls = .ok first ∧ emitAll ls as = .ok rest ∧
        code = first ++ rest := by
  simp only [emitAll, except_bind_eq_ok, except_pure_eq_ok, Action.bytecode, except_mapError_eq_ok]
  constructor
  · rintro ⟨first, hfirst, rest, hrest, rfl⟩
    exact ⟨first, rest, hfirst, hrest, rfl⟩
  · rintro ⟨first, rest, hfirst, hrest, rfl⟩
    exact ⟨first, hfirst, rest, hrest, rfl⟩

/-- An instruction of the code comes from one of the actions. -/
theorem exists_action_of_mem {ls : Locals} {as : List Action} {code front back : List Bytecode}
    {b : Bytecode} (h : emitAll ls as = .ok code) (hcode : code = front ++ b :: back) :
    ∃ before a after c d p q, as = before ++ a :: after ∧ emitAll ls before = .ok c ∧
      a.effect.bytecode ls = .ok (p ++ b :: q) ∧ emitAll ls after = .ok d ∧
      front = c ++ p ∧ back = q ++ d := by
  induction as generalizing code front with
  | nil =>
    cases h
    simp at hcode
  | cons a as ih =>
    obtain ⟨first, rest, hfirst, hrest, rfl⟩ := emitAll_cons.mp h
    rcases List.append_eq_append_iff.mp hcode with ⟨p, rfl, hp⟩ | ⟨q, hq, hback⟩
    · obtain ⟨before, a', after, c, d, p', q, rfl, hc, ha', hd, rfl, rfl⟩ := ih hrest hp
      refine ⟨a :: before, a', after, first ++ c, d, p', q, rfl, ?_, ha', hd, by simp, rfl⟩
      exact emitAll_cons.mpr ⟨first, c, hfirst, hc, rfl⟩
    · cases q with
      | nil =>
        obtain ⟨before, a', after, c, d, p', q, rfl, hc, ha', hd, hp, rfl⟩ :=
          ih hrest (by simpa using hback.symm : rest = [] ++ b :: back)
        refine ⟨a :: before, a', after, first ++ c, d, p', q, rfl, ?_, ha', hd, ?_, rfl⟩
        · exact emitAll_cons.mpr ⟨first, c, hfirst, hc, rfl⟩
        · rw [List.append_assoc, ← hp]
          simpa using hq.symm
      | cons x q =>
        obtain ⟨rfl, rfl⟩ := List.cons.inj hback
        exact ⟨[], a, as, [], rest, front, q, rfl, rfl, hq ▸ hfirst, hrest, rfl, rfl⟩

section

variable {ls : Locals} {as : List Action} {code : List Bytecode} {method : Method}

/-- A control instruction ends the code of one of the actions. -/
theorem ends_of_mem (hf : ∀ a ∈ as, a.effect.Fits method) (h : emitAll ls as = .ok code)
    {b : Bytecode} (hb : b ∈ code) (hc : b.isControl = true) : ∃ a ∈ as, a.effect.Ends b := by
  obtain ⟨front, back, hcode⟩ := List.append_of_mem hb
  obtain ⟨before, a, after, c, d, p, q, rfl, -, ha, -, -, -⟩ := exists_action_of_mem h hcode
  have hmem : a ∈ before ++ a :: after := by simp
  exact ⟨a, hmem, (Effect.Ends.of_mem ha (hf a hmem) rfl hc).2⟩

/-- The code of an action that does not go straight on holds the instruction it ends with. -/
theorem exists_ends (hf : ∀ a ∈ as, a.effect.Fits method) (h : emitAll ls as = .ok code)
    {a : Action} (ha : a ∈ as) (hs : a.effect.isStraight = false) :
    ∃ b ∈ code, a.effect.Ends b := by
  obtain ⟨before, after, rfl⟩ := List.append_of_mem ha
  obtain ⟨front, rest, -, hrest, rfl⟩ := emitAll_append.mp h
  obtain ⟨first, back, hfirst, -, rfl⟩ := emitAll_cons.mp hrest
  rcases (emits_of_bytecode hfirst).control (hf a ha) with ⟨hstraight, -⟩ | ⟨p, b, rfl, -, hb⟩
  · rw [hs] at hstraight
    cases hstraight
  · exact ⟨b, by simp, hb⟩

end

/-! ## The parts of a body -/

namespace Walk

variable {s : Setting} {w : Walk} {i j : Instruction} {k l : Nat} {a : Action}

/-- The label of an instruction that a branch goes to. -/
def lead (s : Setting) (i : Instruction) : List Action :=
  if (Graph.branchTargets s.isa s.body).contains i.address then [⟨i.address, .label i.address⟩]
  else []

/-- The actions that the instruction at position `k` wrote. -/
def written (s : Setting) (k : Nat) : List Action :=
  match s.body[k]? with
  | some i => lead s i ++ (recorded s k).effects.map (Action.mk i.address)
  | none => []

theorem written_eq (h : s.body[k]? = some i) :
    written s k = lead s i ++ (recorded s k).effects.map (Action.mk i.address) := by
  simp [written, h]

theorem mem_lead : a ∈ lead s i ↔
    a = ⟨i.address, .label i.address⟩ ∧ i.address ∈ Graph.branchTargets s.isa s.body := by
  unfold lead
  split
  · rename_i h
    simp [List.contains_iff_mem.mp h]
  · rename_i h
    simp [mt List.contains_iff_mem.mpr h]

theorem address_of_mem_written (h : s.body[k]? = some i) (ha : a ∈ written s k) :
    a.address = i.address := by
  rw [written_eq h] at ha
  rcases List.mem_append.mp ha with ha | ha
  · rw [(mem_lead.mp ha).1]
  · obtain ⟨e, -, rfl⟩ := List.mem_map.mp ha
    rfl

theorem actions_arrive : (w.arrive s i).actions = w.actions ++ lead s i := by
  unfold arrive lead
  split
  · rfl
  · simp

/-- Following a branch adds nothing but a taint. -/
theorem actions_branch : ∃ carried, (w.branch s i).actions = w.actions ++ carried ∧
    ∀ a ∈ carried, ∃ instruction taint, a.effect = .unmodeled instruction taint := by
  unfold branch
  split
  · split
    · unfold branchBack
      split
      · exact ⟨[], by simp⟩
      · split
        · exact ⟨[], by simp⟩
        · exact ⟨_, rfl, by simp⟩
    · exact ⟨[], by simp [branchAhead]⟩
  · exact ⟨[], by simp⟩

theorem actions_upTo_succ (hemit : Emittable s) (k : Nat) :
    (upTo s (k + 1)).actions = (upTo s k).actions ++ written s k := by
  cases h : s.body[k]? with
  | none => simp [upTo, List.take_add_one, written, h]
  | some i =>
    obtain ⟨carried, hcarried, htaint⟩ :=
      actions_branch (s := s) (w := ((upTo s k).arrive s i).advance s i) (i := i)
    have hactions : (upTo s (k + 1)).actions = (upTo s k).actions ++ written s k ++ carried := by
      rw [upTo_succ h, written_eq h, recorded_eq h, before_eq h, ← List.append_assoc,
        ← actions_arrive]
      exact hcarried
    have hnil : carried = [] := by
      refine List.eq_nil_iff_forall_not_mem.mpr fun a ha => ?_
      have hmem : a ∈ (run s).actions :=
        (extends_run (k + 1)).actions.subset (hactions ▸ List.mem_append_right _ ha)
      obtain ⟨code, hcode⟩ := hemit a hmem
      obtain ⟨instruction, taint, he⟩ := htaint a ha
      rw [Action.bytecode, he, except_mapError_eq_ok] at hcode
      cases hcode
    rw [hactions, hnil, List.append_nil]

theorem actions_upTo (hemit : Emittable s) (k : Nat) :
    (upTo s k).actions = (List.range k).flatMap (written s) := by
  induction k with
  | zero => rfl
  | succ k ih => rw [actions_upTo_succ hemit, ih, List.range_succ, List.flatMap_append]; simp

theorem run_eq_upTo (s : Setting) : run s = upTo s s.body.length := by
  rw [upTo, List.take_length, run]

/-- The actions of an emittable body are the parts of its instructions, in order. -/
theorem actions_run (hemit : Emittable s) :
    (run s).actions = (List.range s.body.length).flatMap (written s) := by
  rw [run_eq_upTo, actions_upTo hemit]

theorem mem_actions_run (hemit : Emittable s) : a ∈ (run s).actions ↔
    ∃ k i, s.body[k]? = some i ∧ a ∈ written s k := by
  rw [actions_run hemit, List.mem_flatMap]
  constructor
  · rintro ⟨k, hk, ha⟩
    exact ⟨k, _, List.getElem?_eq_getElem (List.mem_range.mp hk), ha⟩
  · rintro ⟨k, i, hi, ha⟩
    exact ⟨k, List.mem_range.mpr (List.getElem?_eq_some_iff.mp hi).1, ha⟩

theorem adds_recorded (h : s.body[k]? = some i) : s.Adds i (recorded s k).effects := by
  rw [recorded_eq h]
  exact Setting.adds_step

/-- Every action fits the signatures it depends on. -/
theorem fits_of_mem (hemit : Emittable s) (ha : a ∈ (run s).actions) :
    a.effect.Fits s.method := by
  obtain ⟨k, i, hi, ha⟩ := (mem_actions_run hemit).mp ha
  rw [written_eq hi] at ha
  rcases List.mem_append.mp ha with ha | ha
  · rw [(mem_lead.mp ha).1]
    trivial
  · obtain ⟨e, he, rfl⟩ := List.mem_map.mp ha
    exact (adds_recorded hi).fits he

section

variable (haddress : s.body.Pairwise fun i j => i.address < j.address)

include haddress

theorem address_lt (hi : s.body[k]? = some i) (hj : s.body[l]? = some j) (h : k < l) :
    i.address < j.address := by
  obtain ⟨hk, rfl⟩ := List.getElem?_eq_some_iff.mp hi
  obtain ⟨hl, rfl⟩ := List.getElem?_eq_some_iff.mp hj
  exact List.pairwise_iff_getElem.mp haddress k l hk hl h

/-- What stands before the part of an instruction has lower addresses, and what stands behind it has
higher ones. -/
theorem layout (hemit : Emittable s) (hi : s.body[k]? = some i) :
    ∃ later, (run s).actions = (upTo s k).actions ++ written s k ++ later ∧
      (∀ a ∈ (upTo s k).actions, a.address < i.address) ∧ ∀ a ∈ later, i.address < a.address := by
  have hk := (List.getElem?_eq_some_iff.mp hi).1
  obtain ⟨d, hd⟩ := Nat.exists_eq_add_of_lt hk
  have hrange : List.range s.body.length =
      List.range (k + 1) ++ (List.range d).map (k + 1 + ·) := by
    rw [← List.range_add, hd]
    congr 1
    omega
  refine ⟨((List.range d).map (k + 1 + ·)).flatMap (written s), ?_, ?_, ?_⟩
  · rw [← actions_upTo_succ hemit, actions_run hemit, hrange, List.flatMap_append,
      ← actions_upTo hemit]
  · intro a ha
    rw [actions_upTo hemit] at ha
    obtain ⟨l, hl, ha⟩ := List.mem_flatMap.mp ha
    have hlt := List.mem_range.mp hl
    have hj : s.body[l]? = some s.body[l] := List.getElem?_eq_getElem (by omega)
    rw [address_of_mem_written hj ha]
    exact address_lt haddress hj hi hlt
  · intro a ha
    obtain ⟨l, hl, ha⟩ := List.mem_flatMap.mp ha
    obtain ⟨n, hn, rfl⟩ := List.mem_map.mp hl
    have hlt := List.mem_range.mp hn
    have hj : s.body[k + 1 + n]? = some s.body[k + 1 + n] := List.getElem?_eq_getElem (by omega)
    rw [address_of_mem_written hj ha]
    exact address_lt haddress hi hj (by omega)

/-- The actions with the address of an instruction are those that it wrote. -/
theorem actions_at (hemit : Emittable s) (hi : s.body[k]? = some i) :
    ((run s).actions.filter fun a => a.address == i.address) = written s k := by
  obtain ⟨later, hrun, hbefore, hlater⟩ := layout haddress hemit hi
  have hfront : ((upTo s k).actions.filter fun a => a.address == i.address) = [] := by
    simpa using fun a ha => UInt64.ne_of_lt (hbefore a ha)
  have hback : (later.filter fun a => a.address == i.address) = [] := by
    simpa using fun a ha => (UInt64.ne_of_lt (hlater a ha)).symm
  have hhere : ((written s k).filter fun a => a.address == i.address) = written s k := by
    simpa using fun a ha => address_of_mem_written hi ha
  rw [hrun, List.filter_append, List.filter_append, hfront, hback, hhere, List.nil_append,
    List.append_nil]

end

end Walk

/-- An emittable analysis has the code of its actions, and these are the actions of the walk. -/
theorem Analysis.code_of_emittable {e : Environment} {session : Session} {job : Job}
    (h : (run e session job).1.state = .emittable) :
    (run e session job).1.locals = (Walk.run (walked e session job)).locals ∧
      (run e session job).1.actions = (Walk.run (walked e session job)).actions ∧
      ∃ code, (run e session job).1.bytecode = .ok code ∧
        emitAll (run e session job).1.locals (run e session job).1.actions = .ok code := by
  have hbody := ((run_agrees e session job).emittable_iff.mp h).1
  obtain ⟨code, hcode⟩ := (run_agrees e session job).bytecode_iff.mp h
  obtain ⟨hlocals, hactions⟩ := run_eq_walk hbody
  refine ⟨hlocals, hactions, code, hcode, ?_⟩
  simpa [bytecode, hbody, except_mapError_eq_ok] using hcode

end MethodLift
