import MethodLift.Isa.X64
import MethodLift.Proofs.Scope
import MethodLift.Walk.Run

/-!
# Locals are defined before they are used

The walk over a body carries values through registers, stack slots, pushed values, the comparison
behind the flags, and the states that branches bring to their targets. Whatever way a value takes,
the local it reads was made by an earlier action of the list or is an argument.

`Walk.WellScoped` is the invariant: the current state and the states on their way to a target are in
scope of the locals made so far, and the actions so far are `Ordered`. One visit keeps it
(`Walk.WellScoped.visit`), so the whole walk does (`run_wellScoped`). `DefinedBeforeUse` is what
follows while the numbers of slots do not wrap around (`Locals.FitsSlots`): ids are positions, every
temporary is produced once, slots do not collide, and what an action reads or its code pushes is
defined by then.
-/

namespace MethodLift

/-! ## The arguments -/

theorem CallingConvention.length_slotsFrom (c : CallingConvention) (position integers : Nat)
    (floats : List Bool) : (c.slotsFrom position integers floats).length = floats.length := by
  induction floats generalizing position integers with
  | nil => rfl
  | cons b rest ih => cases b <;> simp [slotsFrom, ih]

theorem Setting.length_argumentsOf (m : Method) :
    (argumentsOf m).length = (if m.isStatic then 0 else 1) + m.parameters.length := by
  cases h : m.isStatic with
  | true => simp [argumentsOf, h]
  | false => simp [argumentsOf, h, Nat.add_comm]

theorem CallingConvention.length_argumentSlots (c : CallingConvention) (m : Method) :
    (c.argumentSlots m).length = (Setting.argumentsOf m).length := by
  rw [argumentSlots, length_slotsFrom, Setting.length_argumentsOf]
  cases m.isStatic with
  | true => simp
  | false => simp [Nat.add_comm]

/-- The first argument of an instance method is `this`; any other argument is a parameter whose slot
is its position. -/
theorem Setting.argumentsOf_kind {m : Method} {k : Nat} {a : LocalKind × String × Signature}
    (h : (argumentsOf m)[k]? = some a) : (a.1 = .this ∧ k = 0) ∨ a.1 = .parameter k.toUInt16 := by
  unfold argumentsOf at h
  cases hs : m.isStatic with
  | true =>
    simp only [hs, if_true, List.nil_append, List.getElem?_map, List.length_nil,
      List.getElem?_zipIdx, Option.map_map, Option.map_eq_some_iff] at h
    obtain ⟨p, -, rfl⟩ := h
    right; simp
  | false =>
    simp only [hs, Bool.false_eq_true, if_false] at h
    cases k with
    | zero => cases h; exact .inl ⟨rfl, rfl⟩
    | succ k =>
      simp only [List.singleton_append, List.getElem?_cons_succ, List.getElem?_map,
        List.length_singleton, List.getElem?_zipIdx, Option.map_map, Option.map_eq_some_iff] at h
      obtain ⟨p, -, rfl⟩ := h
      right; simp [Nat.add_comm]

/-! ## Numbered locals -/

/-- The locals stand at the positions of their ids: `a` arguments, pushed from the slots of their
positions, and behind them the temporaries with slots of their own from zero on. The numbers of
slots wrap around. -/
structure Locals.Numbered (a : Nat) (ls : Locals) : Prop where
  id_eq : ∀ (k : Nat) (l : Local), ls[k]? = some l → l.id = k
  argument : ∀ (k : Nat) (l : Local), ls[k]? = some l → k < a →
    (l.kind = .this ∧ k = 0) ∨ l.kind = .parameter k.toUInt16
  temporary : ∀ (k : Nat) (l : Local), ls[k]? = some l → a ≤ k →
    l.kind = .temporary (k - a).toUInt16
  le_length : a ≤ ls.length

/-- There are slots for all locals, `a` of which are arguments. -/
structure Locals.FitsSlots (a : Nat) (ls : Locals) : Prop where
  arguments : a ≤ UInt16.size
  temporaries : ls.length ≤ a + UInt16.size

theorem toNat_toUInt16_of_lt {n : Nat} (h : n < UInt16.size) : n.toUInt16.toNat = n :=
  UInt16.toNat_ofNat_of_lt' h

namespace Locals.Numbered

variable {a : Nat} {ls : Locals}

theorem isVariable_iff (h : ls.Numbered a) {k : Nat} {l : Local} (hk : ls[k]? = some l) :
    l.isVariable = true ↔ a ≤ k := by
  unfold Local.isVariable
  rcases Nat.lt_or_ge k a with hlt | hge
  · rcases h.argument k l hk hlt with ⟨he, -⟩ | he <;> rw [he] <;> simp <;> omega
  · rw [h.temporary k l hk hge]
    simp [hge]

/-- A local is pushed from its argument slot or from its temporary slot. -/
theorem load_eq (h : ls.Numbered a) {k : Nat} {l : Local} (hk : ls[k]? = some l) :
    l.load = if k < a then .ldarg k.toUInt16 else .ldloc (k - a).toUInt16 := by
  unfold Local.load
  rcases Nat.lt_or_ge k a with hlt | hge
  · rw [if_pos hlt]
    rcases h.argument k l hk hlt with ⟨he, rfl⟩ | he <;> rw [he] <;> rfl
  · rw [if_neg (by omega), h.temporary k l hk hge]

/-- Different locals are pushed by different instructions, if there are slots for all. -/
theorem load_injective (h : ls.Numbered a) (hfits : ls.FitsSlots a) {l l' : Local} (hl : l ∈ ls)
    (hl' : l' ∈ ls) (he : l.load = l'.load) : l = l' := by
  obtain ⟨k, hk⟩ := List.mem_iff_getElem?.mp hl
  obtain ⟨k', hk'⟩ := List.mem_iff_getElem?.mp hl'
  rw [h.load_eq hk, h.load_eq hk'] at he
  have hlt := (List.getElem?_eq_some_iff.mp hk).1
  have hlt' := (List.getElem?_eq_some_iff.mp hk').1
  obtain ⟨harguments, htemporaries⟩ := hfits
  have hinj : ∀ {m n : Nat}, m < UInt16.size → n < UInt16.size → m.toUInt16 = n.toUInt16 →
      m = n := by
    intro m n hm hn hmn
    rw [← toNat_toUInt16_of_lt hm, ← toNat_toUInt16_of_lt hn, hmn]
  have : k = k' := by
    split at he <;> split at he
    · exact hinj (by omega) (by omega) (Bytecode.ldarg.inj he)
    · cases he
    · cases he
    · have := hinj (by omega) (by omega) (Bytecode.ldloc.inj he)
      omega
  subst this
  rw [hk] at hk'
  cases hk'
  rfl

theorem append_temporary (h : ls.Numbered a) {l : Local} (hid : l.id = ls.length)
    (hkind : l.kind = .temporary (ls.length - a).toUInt16) : (ls ++ [l] : Locals).Numbered a := by
  have hle := h.le_length
  have last : ∀ {k : Nat} {l' : Local}, ls.length ≤ k → (ls ++ [l])[k]? = some l' →
      k = ls.length ∧ l' = l := by
    intro k l' hk hl
    rw [List.getElem?_append_right hk] at hl
    have hz : k - ls.length = 0 := by
      have := (List.getElem?_eq_some_iff.mp hl).1
      simp only [List.length_singleton] at this
      omega
    rw [hz] at hl
    cases hl
    exact ⟨by omega, rfl⟩
  refine ⟨fun k l' hl => ?_, fun k l' hl hk => ?_, fun k l' hl hk => ?_, by simp; omega⟩
  · rcases Nat.lt_or_ge k ls.length with hlt | hge
    · rw [List.getElem?_append_left hlt] at hl
      exact h.id_eq k l' hl
    · obtain ⟨rfl, rfl⟩ := last hge hl
      exact hid
  · rw [List.getElem?_append_left (by omega)] at hl
    exact h.argument k l' hl hk
  · rcases Nat.lt_or_ge k ls.length with hlt | hge
    · rw [List.getElem?_append_left hlt] at hl
      exact h.temporary k l' hl hk
    · obtain ⟨rfl, rfl⟩ := last hge hl
      exact hkind

end Locals.Numbered

namespace Setting

variable (s : Setting)

theorem length_entryLocals : s.entryLocals.length = Walk.argumentCount s.method := by
  simp [entryLocals, Walk.argumentCount, CallingConvention.length_argumentSlots]

theorem getElem?_entryLocals {k : Nat} {l : Local} (h : s.entryLocals[k]? = some l) :
    l.id = k ∧ ∃ name type, (argumentsOf s.method)[k]? = some (l.kind, name, type) := by
  simp only [entryLocals, List.getElem?_map, List.getElem?_zipIdx, Option.map_map,
    Option.map_eq_some_iff] at h
  obtain ⟨⟨⟨kind, name, type⟩, slot⟩, hz, rfl⟩ := h
  exact ⟨by simp, name, type, (List.getElem?_zip_eq_some.mp hz).1⟩

theorem entryLocals_numbered : s.entryLocals.Numbered (Walk.argumentCount s.method) := by
  refine ⟨fun k l hl => (s.getElem?_entryLocals hl).1, fun k l hl _ => ?_, fun k l hl hk => ?_, ?_⟩
  · obtain ⟨-, name, type, ha⟩ := s.getElem?_entryLocals hl
    exact argumentsOf_kind ha
  · have := (List.getElem?_eq_some_iff.mp hl).1
    rw [length_entryLocals] at this
    omega
  · exact Nat.le_of_eq s.length_entryLocals.symm

/-- Nothing is known but arguments, each in the register it comes in. -/
structure HoldsArguments (m : Machine) : Prop where
  registers : ∀ r v, m.registers.get? r = some v →
    ∃ l ∈ s.entryLocals, l.register = some r ∧ v = .local l.id
  stack : m.stack = ∅
  pushed : m.pushed = []
  comparison : m.comparison = none

theorem entryMachine_holdsArguments : s.HoldsArguments s.entryMachine := by
  unfold entryMachine
  refine List.foldlRecOn _ _ ⟨fun r v h => ?_, rfl, rfl, rfl⟩ fun m hm l hl => ?_
  · cases h
  · split
    next q hq =>
      refine ⟨fun r v h => ?_, hm.stack, hm.pushed, hm.comparison⟩
      rw [Machine.get?_setRegister] at h
      split at h
      next hr =>
        cases h
        exact ⟨l, hl, hr ▸ hq, rfl⟩
      next => exact hm.registers r v h
    next => exact hm

theorem entryMachine_inScope : s.entryMachine.InScope (Walk.argumentCount s.method) := by
  have h := s.entryMachine_holdsArguments
  refine ⟨fun r id hid => ?_, fun slot => ?_, by simp [h.pushed], by simp [h.comparison]⟩
  · obtain ⟨v, hv, hlocal⟩ := Option.bind_eq_some_iff.mp hid
    obtain ⟨l, hl, -, rfl⟩ := h.registers r v hv
    cases hlocal
    obtain ⟨k, hk⟩ := List.mem_iff_getElem?.mp hl
    have hlt := (List.getElem?_eq_some_iff.mp hk).1
    rw [(s.getElem?_entryLocals hk).1, ← s.length_entryLocals]
    exact hlt
  · rw [h.stack]
    exact .none _

end Setting

/-! ## The walk -/

theorem Walk.length_advance (w : Walk) (s : Setting) (i : Instruction) :
    (w.advance s i).locals.length =
      w.locals.length + (s.step w.locals w.locals.length w.machine i).result.toList.length := by
  simp only [advance, List.length_append]
  cases (s.step w.locals w.locals.length w.machine i).result <;> rfl

/-- The states of the walk are in scope of the locals made so far, and the actions so far produce
these in order. -/
structure Walk.WellScoped (s : Setting) (w : Walk) : Prop where
  machine : w.machine.InScope w.locals.length
  incoming : ∀ t m, w.incoming.get? t = some m → m.InScope w.locals.length
  actions : Ordered (argumentCount s.method) (w.actions.map Action.effect) w.locals.length
  locals : w.locals.Numbered (argumentCount s.method)
  nextSlot : w.nextSlot = (w.locals.length - argumentCount s.method).toUInt16

namespace Walk.WellScoped

variable {s : Setting} {w : Walk}

theorem start (s : Setting) : (Walk.start s).WellScoped s where
  machine := by
    have := s.entryMachine_inScope
    rw [← s.length_entryLocals] at this
    exact this
  incoming t m h := by cases h
  actions := s.length_entryLocals.symm
  locals := s.entryLocals_numbered
  nextSlot := by
    change 0 = (s.entryLocals.length - argumentCount s.method).toUInt16
    rw [s.length_entryLocals, Nat.sub_self]
    rfl

/-- Actions that neither read nor make a local may be added anywhere. -/
theorem addAction (h : w.WellScoped s) {address : UInt64} {e : Effect}
    (he : e.InScope w.locals.length) (hp : e.produced = none) :
    Ordered (argumentCount s.method) ((w.actions ++ [Action.mk address e]).map Action.effect)
      w.locals.length := by
  rw [List.map_append]
  exact h.actions.append (.single he hp)

theorem enter (h : w.WellScoped s) (address : UInt64) : (w.enter address).WellScoped s := by
  refine ⟨?_, fun t m ht => ?_, ?_, h.locals, h.nextSlot⟩
  · simp only [Walk.enter]
    split
    · rename_i m hm
      split
      · exact h.machine.join m
      · exact h.incoming _ _ hm
    · exact h.machine
  · simp only [Walk.enter, FinMap.get?_erase] at ht
    split at ht
    · cases ht
    · exact h.incoming t m ht
  · exact h.addAction (e := .label address) (.of_inputs rfl (by simp)) rfl

theorem advance (h : w.WellScoped s) (i : Instruction) : (w.advance s i).WellScoped s := by
  have hst : (s.step w.locals w.locals.length w.machine i).InScope w.locals.length :=
    Setting.step_inScope h.machine
  have hlen := w.length_advance s i
  refine ⟨?_, fun t m ht => ?_, ?_, ?_, ?_⟩
  · rw [hlen]
    exact hst.machine
  · exact (h.incoming t m ht).mono (by omega)
  · rw [hlen]
    simp only [Walk.advance, List.map_append, List.map_map]
    have : (s.step w.locals w.locals.length w.machine i).effects.map
        (Action.effect ∘ Action.mk i.address) =
        (s.step w.locals w.locals.length w.machine i).effects := by
      simp [Function.comp_def]
    rw [this]
    exact h.actions.append hst.effects
  · simp only [Walk.advance]
    cases (s.step w.locals w.locals.length w.machine i).result with
    | none => simpa using h.locals
    | some new => exact h.locals.append_temporary rfl (congrArg LocalKind.temporary h.nextSlot)
  · rw [hlen]
    simp only [Walk.advance, h.nextSlot]
    have hle := h.locals.le_length
    cases (s.step w.locals w.locals.length w.machine i).result with
    | none => rfl
    | some new =>
      have hsucc : w.locals.length + 1 - argumentCount s.method =
          w.locals.length - argumentCount s.method + 1 := by omega
      change _ = (w.locals.length + 1 - argumentCount s.method).toUInt16
      rw [hsucc]
      exact (UInt16.ofNat_add _ 1).symm

theorem branchAhead (h : w.WellScoped s) (target : UInt64) :
    (w.branchAhead target).WellScoped s := by
  refine ⟨h.machine, fun t m ht => ?_, h.actions, h.locals, h.nextSlot⟩
  simp only [Walk.branchAhead, FinMap.get?_insert] at ht
  split at ht
  · simp only [Option.some.injEq] at ht
    subst ht
    split
    · rename_i m hm
      exact (h.incoming _ _ hm).join _
    · exact h.machine
  · exact h.incoming t m ht

theorem branchBack (h : w.WellScoped s) (i : Instruction) (target : UInt64) :
    (w.branchBack s i target).WellScoped s := by
  unfold Walk.branchBack
  split
  · exact h
  · split
    · exact h
    · exact ⟨h.machine, h.incoming,
        h.addAction (e := .unmodeled i.plainText _) (.of_inputs rfl (by simp)) rfl, h.locals,
        h.nextSlot⟩

theorem branch (h : w.WellScoped s) (i : Instruction) : (w.branch s i).WellScoped s := by
  unfold Walk.branch
  split
  · split
    · exact h.branchBack i _
    · exact h.branchAhead _
  · exact h

theorem visit (h : w.WellScoped s) (i : Instruction) : (Walk.visit s w i).WellScoped s := by
  have key : ∀ w : Walk, w.WellScoped s → ({ (w.advance s i).branch s i with
      fallsThrough := passes s i } : Walk).WellScoped s := by
    intro w h
    have h' := (h.advance i).branch i
    exact ⟨h'.machine, h'.incoming, h'.actions, h'.locals, h'.nextSlot⟩
  unfold Walk.visit
  simp only
  split
  · exact key _ (h.enter _)
  · exact key _ h

end Walk.WellScoped

/-- What one visit keeps, the whole walk keeps. -/
theorem Walk.run_wellScoped (s : Setting) : (Walk.run s).WellScoped s :=
  List.foldlRecOn _ _ (.start s) fun _ h i _ => h.visit i

/-- A visit makes at most one local. -/
theorem Walk.length_visit_le (s : Setting) (w : Walk) (i : Instruction) :
    (Walk.visit s w i).locals.length ≤ w.locals.length + 1 := by
  have hbranch : ∀ w : Walk, (w.branch s i).locals = w.locals := by
    intro w
    unfold branch branchBack branchAhead
    split
    · split
      · split
        · rfl
        · split <;> rfl
      · rfl
    · rfl
  have hadvance : ∀ w : Walk, (w.advance s i).locals.length ≤ w.locals.length + 1 := by
    intro w
    rw [length_advance]
    cases (s.step w.locals w.locals.length w.machine i).result <;> simp
  have henter : (w.enter i.address).locals = w.locals := rfl
  unfold visit
  simp only [hbranch]
  split
  · rw [← henter]
    exact hadvance _
  · exact hadvance _

theorem Walk.length_run_le (s : Setting) :
    (Walk.run s).locals.length ≤ argumentCount s.method + s.body.length := by
  have fold : ∀ (body : List Instruction) (w : Walk),
      (body.foldl (visit s) w).locals.length ≤ w.locals.length + body.length := by
    intro body
    induction body with
    | nil => intro w; simp
    | cons i body ih =>
      intro w
      have h := ih (visit s w i)
      have := length_visit_le s w i
      simp only [List.foldl_cons, List.length_cons]
      omega
  have := fold s.body (start s)
  rw [← s.length_entryLocals]
  exact this

/-! ## Definition before use -/

/-- There are slots for all locals that a short body and a short list of parameters need. -/
theorem Walk.fitsSlots_run (s : Setting) (hbody : s.body.length < UInt16.size)
    (hparameters : s.method.parameters.length < UInt16.size) :
    (Walk.run s).locals.FitsSlots (argumentCount s.method) := by
  have hlen := length_run_le s
  have hargs := Setting.length_argumentsOf s.method
  have hone : (if s.method.isStatic then 0 else 1) ≤ 1 := by split <;> omega
  exact ⟨by unfold argumentCount; omega, by omega⟩

/-- The slot of a local among those of its kind. -/
def LocalKind.slot : LocalKind → UInt16
  | this => 0
  | parameter slot | temporary slot => slot

/-- The local is an argument, or one of the given actions produces it. -/
def Defined (ls : Locals) (earlier : List Action) (id : Nat) : Prop :=
  ∃ l, ls[id]? = some l ∧ (l.isVariable = true → ∃ a ∈ earlier, a.produced = some id)

/-- The locals and actions of a body are in definition-before-use form. -/
structure DefinedBeforeUse (ls : Locals) (as : List Action) : Prop where
  id_eq : ∀ (k : Nat) (l : Local), ls[k]? = some l → l.id = k
  produced_once : ∀ l ∈ ls, l.isVariable = true →
    ∃! n : Nat, (as[n]?).bind Action.produced = some l.id
  /-- No argument is ever produced. -/
  produced_variable : ∀ a ∈ as, ∀ id, a.produced = some id →
    ∃ l, ls[id]? = some l ∧ l.isVariable = true
  slots_distinct : ∀ l ∈ ls, ∀ l' ∈ ls, ∀ slot, l.kind = .temporary slot →
    l'.kind = .temporary slot → l = l'
  consumed_defined : ∀ (n : Nat) (a : Action), as[n]? = some a → ∀ id ∈ a.consumed,
    Defined ls (as.take n) id
  /-- An instruction of an action's code that pushes a local pushes exactly one of the list, which
  the action consumes and which is defined by then. -/
  pushed_defined : ∀ (n : Nat) (a : Action) (code : List Bytecode), as[n]? = some a →
    a.bytecode ls = .ok code → ∀ b ∈ code, b.isLoad = true →
    ∃ l ∈ ls, (b = l.load ∧ ∀ l' ∈ ls, b = l'.load → l' = l) ∧ l.id ∈ a.consumed ∧
      Defined ls (as.take n) l.id

namespace Walk.WellScoped

variable {s : Setting} {w : Walk}

theorem consumed_defined (h : w.WellScoped s) {n : Nat} {a : Action} (ha : w.actions[n]? = some a)
    {id : Nat} (hid : id ∈ a.consumed) : Defined w.locals (w.actions.take n) id := by
  have hn : (w.actions.map Action.effect)[n]? = some a.effect := by simp [ha]
  have hlt := (h.actions.inScope (List.mem_of_getElem? hn)).consumed hid
  obtain ⟨l, hl⟩ : ∃ l, w.locals[id]? = some l := ⟨_, List.getElem?_eq_getElem hlt⟩
  refine ⟨l, hl, fun hv => ?_⟩
  rcases h.actions.consumed_earlier hn hid with harg | ⟨e, he, hp⟩
  · have := (h.locals.isVariable_iff hl).mp hv
    omega
  · rw [← List.map_take] at he
    obtain ⟨b, hb, rfl⟩ := List.mem_map.mp he
    exact ⟨b, hb, hp⟩

theorem pushed_defined (h : w.WellScoped s)
    (hfits : w.locals.FitsSlots (argumentCount s.method)) {n : Nat} {a : Action}
    {code : List Bytecode} (ha : w.actions[n]? = some a) (hcode : a.bytecode w.locals = .ok code)
    {b : Bytecode} (hb : b ∈ code) (hl : b.isLoad = true) :
    ∃ l ∈ w.locals, (b = l.load ∧ ∀ l' ∈ w.locals, b = l'.load → l' = l) ∧ l.id ∈ a.consumed ∧
      Defined w.locals (w.actions.take n) l.id := by
  have hmem : a.effect ∈ w.actions.map Action.effect :=
    List.mem_map_of_mem (List.mem_of_getElem? ha)
  obtain ⟨id, hid, l, hloc, rfl⟩ := (emits_of_bytecode (except_mapError_eq_ok.mp hcode)).pushes
    (h.actions.inScope hmem).conversions hb hl
  have heq := h.locals.id_eq id l hloc
  refine ⟨l, List.mem_of_getElem? hloc, ⟨rfl, fun l' hl' he => ?_⟩, ?_, ?_⟩
  · exact (h.locals.load_injective hfits (List.mem_of_getElem? hloc) hl' he).symm
  · rw [heq]; exact hid
  · rw [heq]; exact h.consumed_defined ha hid

theorem definedBeforeUse (h : w.WellScoped s)
    (hfits : w.locals.FitsSlots (argumentCount s.method)) :
    DefinedBeforeUse w.locals w.actions where
  id_eq := h.locals.id_eq
  produced_once l hl hv := by
    obtain ⟨k, hk⟩ := List.mem_iff_getElem?.mp hl
    have hge := (h.locals.isVariable_iff hk).mp hv
    have hlt := (List.getElem?_eq_some_iff.mp hk).1
    obtain ⟨j, hj, huniq⟩ := h.actions.existsUnique hge hlt
    have hmap : ∀ n : Nat, ((w.actions.map Action.effect)[n]?).bind Effect.produced =
        (w.actions[n]?).bind Action.produced := by
      intro n
      rw [List.getElem?_map, Option.bind_map]
      rfl
    rw [h.locals.id_eq k l hk]
    exact ⟨j, (hmap j).symm.trans hj, fun n hn => huniq n ((hmap n).trans hn)⟩
  produced_variable a ha id hp := by
    obtain ⟨hge, hlt⟩ := h.actions.produced_mem (List.mem_map_of_mem ha) hp
    exact ⟨_, List.getElem?_eq_getElem hlt,
      (h.locals.isVariable_iff (List.getElem?_eq_getElem hlt)).mpr hge⟩
  slots_distinct l hl l' hl' slot hs hs' :=
    h.locals.load_injective hfits hl hl' (by simp [Local.load, hs, hs'])
  consumed_defined n a ha id hid := h.consumed_defined ha hid
  pushed_defined n a code ha hcode b hb hl := h.pushed_defined hfits ha hcode hb hl

end Walk.WellScoped

/-- For every body and parameter list shorter than `UInt16.size`, the walk leaves locals and actions
in definition-before-use form, and no number of a slot has wrapped around. -/
theorem run_definedBeforeUse (s : Setting) (hbody : s.body.length < UInt16.size)
    (hparameters : s.method.parameters.length < UInt16.size) :
    DefinedBeforeUse (Walk.run s).locals (Walk.run s).actions ∧
      ∀ (k : Nat) (l : Local), (Walk.run s).locals[k]? = some l → l.kind.slot.toNat =
        if l.isVariable then k - Walk.argumentCount s.method else k := by
  have h := Walk.run_wellScoped s
  have hfits := Walk.fitsSlots_run s hbody hparameters
  refine ⟨h.definedBeforeUse hfits, fun k l hk => ?_⟩
  obtain ⟨harguments, htemporaries⟩ := hfits
  have hlt := (List.getElem?_eq_some_iff.mp hk).1
  have hvariable := h.locals.isVariable_iff hk
  rcases Nat.lt_or_ge k (Walk.argumentCount s.method) with harg | htemp
  · rw [if_neg (by rw [hvariable]; omega)]
    rcases h.locals.argument k l hk harg with ⟨he, rfl⟩ | he
    · rw [he]
      rfl
    · rw [he]
      exact toNat_toUInt16_of_lt (by omega)
  · rw [if_pos (hvariable.mpr htemp), h.locals.temporary k l hk htemp]
    exact toNat_toUInt16_of_lt (by omega)

/-- The setting of a body of a static method `long F(long a)` without a runtime around it. -/
def plainSetting (body : List Instruction) : Setting where
  isa := X64.isa
  convention := X64.microsoft
  helpers := .empty
  symbols := {}
  table := ⟨[], ∅⟩
  findType? _ := none
  method :=
    { token := 0, name := "F", owner := TypeTable.supplied .object
      returnType := .definition (TypeTable.supplied .int64)
      isStatic := true
      parameters := [⟨"a", .definition (TypeTable.supplied .int64)⟩] }
  body

/-- A value is made before a branch and used on both ways behind it. -/
def branchingBody : List Instruction :=
  [.ofText 0x1000 (List.replicate 4 0x90) "add" "rcx, 1",
   .ofText 0x1004 (List.replicate 3 0x90) "test" "rcx, rcx",
   .ofText 0x1007 (List.replicate 2 0x90) "je" "0x100d",
   .ofText 0x1009 (List.replicate 4 0x90) "imul" "rcx, rcx",
   .ofText 0x100d (List.replicate 1 0x90) "ret" ""]

/-- Two temporaries are made; the second one reads the first, and so does the comparison behind the
branch over it. -/
theorem run_definedBeforeUse_branching :
    let w := Walk.run (plainSetting branchingBody)
    branchingBody.length < UInt16.size ∧
      w.locals.map (fun l => (l.id, l.kind)) =
        [(0, .parameter 0), (1, .temporary 0), (2, .temporary 1)] ∧
      w.actions.map (fun a => (a.address, a.consumed, a.produced)) =
        [(0x1000, [0], some 1), (0x1007, [1], none), (0x1009, [1, 1], some 2),
          (0x100d, [], none), (0x100d, [], none)] ∧
      DefinedBeforeUse w.locals w.actions :=
  ⟨by decide, by decide +kernel, by decide +kernel,
    (run_definedBeforeUse (plainSetting branchingBody) (by decide) (by decide)).1⟩

end MethodLift
