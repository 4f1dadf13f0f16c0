import MethodLift.Action.Emit

/-!
# The code of an effect, form by form

`Effect.bytecode` either fails or gives code of one of a few forms. `Effect.Emits` lists the forms
and `emits_of_bytecode` says that there are no others: statements about emitted code go through them
by cases and do not open the emitter again.
-/

namespace MethodLift

/-- A computation that may fail gives a result when both of its parts do. -/
theorem except_bind_eq_ok {ε α β : Type} {x : Except ε α} {f : α → Except ε β} {b : β} :
    (x >>= f) = .ok b ↔ ∃ a, x = .ok a ∧ f a = .ok b := by
  cases x with
  | error e => exact ⟨(fun h => by cases h), fun ⟨_, h, _⟩ => by cases h⟩
  | ok a => exact ⟨fun h => ⟨a, rfl, h⟩, fun ⟨_, h, hb⟩ => by cases h; exact hb⟩

theorem except_pure_eq_ok {ε α : Type} {a b : α} : (pure a : Except ε α) = .ok b ↔ a = b :=
  ⟨(fun h => by cases h; rfl), fun h => by cases h; rfl⟩

theorem except_mapError_eq_ok {ε δ α : Type} {x : Except ε α} {f : ε → δ} {a : α} :
    x.mapError f = .ok a ↔ x = .ok a := by
  cases x with
  | error e => exact ⟨(fun h => by cases h), fun h => by cases h⟩
  | ok b => exact ⟨(fun h => by cases h; rfl), fun h => by cases h; rfl⟩

/-- The inputs push `codes`, one each. -/
def LoadsTo (ls : Locals) : List Input → List (List Bytecode) → Prop
  | [], [] => True
  | i :: is, c :: cs => i.load ls = .ok c ∧ LoadsTo ls is cs
  | _, _ => False

theorem loadAll_eq_ok_iff {ls : Locals} {is : List Input} {code : List Bytecode} :
    loadAll ls is = .ok code ↔ ∃ codes, LoadsTo ls is codes ∧ code = codes.flatten := by
  induction is generalizing code with
  | nil =>
    constructor
    · intro h
      cases h
      exact ⟨[], trivial, rfl⟩
    · rintro ⟨codes, h, rfl⟩
      cases codes with
      | nil => rfl
      | cons c cs => exact h.elim
  | cons i is ih =>
    simp only [loadAll, except_bind_eq_ok, except_pure_eq_ok, ih]
    constructor
    · rintro ⟨c, hc, _, ⟨cs, hcs, rfl⟩, rfl⟩
      exact ⟨c :: cs, ⟨hc, hcs⟩, by simp⟩
    · rintro ⟨codes, h, rfl⟩
      cases codes with
      | nil => exact h.elim
      | cons c cs => exact ⟨c, h.1, cs.flatten, ⟨cs, h.2, rfl⟩, by simp⟩

theorem find_eq_ok_iff {ls : Locals} {id : Nat} {l : Local} :
    ls.find id = .ok l ↔ ls[id]? = some l := by
  unfold Locals.find
  cases ls[id]? <;> simp

theorem store_eq_ok_iff {ls : Locals} {id : Nat} {b : Bytecode} :
    ls.store id = .ok b ↔ ∃ l, ls[id]? = some l ∧ b = l.store := by
  unfold Locals.store Locals.find
  cases ls[id]? <;> simp [Except.map, eq_comm]

/-- The value of an input that can be pushed. -/
theorem load_eq_ok_iff {ls : Locals} {i : Input} {code : List Bytecode} :
    i.load ls = .ok code ↔ ∃ v, i.value = some v ∧ v.load ls = .ok code := by
  unfold Input.load
  cases i.value <;> simp

/-- The forms of the code of a conditional branch. -/
inductive Comparison.Emits (ls : Locals) (c : Comparison) (target : UInt64) :
    Condition → List Bytecode → Prop
  | zero {left : List Bytecode} : c.isWithZero = true → c.left.load ls = .ok left →
      Emits ls c target .equal (left ++ [.brfalse target])
  | nonzero {left : List Bytecode} : c.isWithZero = true → c.left.load ls = .ok left →
      Emits ls c target .notEqual (left ++ [.brtrue target])
  | test {condition : Condition} {test : BranchTest} {left right : List Bytecode} :
      ¬(c.isWithZero = true ∧ (condition = .equal ∨ condition = .notEqual)) →
      c.left.load ls = .ok left → c.right.load ls = .ok right → condition.test? = some test →
      Emits ls c target condition (left ++ right ++ [.branch test target])

theorem emits_of_branchCode {ls : Locals} {c : Comparison} {condition : Condition}
    {target : UInt64} {code : List Bytecode} (h : c.branchCode ls condition target = .ok code) :
    c.modeled = true ∧ c.Emits ls target condition code := by
  unfold Comparison.branchCode at h
  cases hm : c.modeled with
  | false =>
    simp only [hm, Bool.not_false, if_true, except_bind_eq_ok] at h
    obtain ⟨_, h, -⟩ := h
    cases h
  | true =>
    simp only [hm, Bool.not_true, Bool.false_eq_true, if_false, except_bind_eq_ok] at h
    obtain ⟨left, hl, h⟩ := h
    refine ⟨rfl, ?_⟩
    split at h
    · rename_i hc
      simp only [Bool.and_eq_true, beq_iff_eq] at hc
      obtain ⟨hz, rfl⟩ := hc
      cases h
      exact .zero hz hl
    · rename_i he
      split at h
      · rename_i hc
        simp only [Bool.and_eq_true, beq_iff_eq] at hc
        obtain ⟨hz, rfl⟩ := hc
        cases h
        exact .nonzero hz hl
      · rename_i hn
        simp only [except_bind_eq_ok] at h
        obtain ⟨right, hr, h⟩ := h
        split at h
        · rename_i test ht
          cases h
          refine .test ?_ hl hr ht
          rintro ⟨hz, rfl | rfl⟩
          · simp [hz] at he
          · simp [hz] at hn
        · cases h

/-- The forms of the code of an effect. -/
inductive Effect.Emits (ls : Locals) : Effect → List Bytecode → Prop
  | arithmetic {op : ArithmeticOp} {left right : Input} {result : Nat}
      {cl cr : List Bytecode} {l : Local} :
      left.load ls = .ok cl → right.load ls = .ok cr → ls[result]? = some l →
      Emits ls (.arithmetic op left right result) (cl ++ cr ++ [.arithmetic op, l.store])
  | convert {source : Input} {conversions c : List Bytecode} {result : Nat} {l : Local} :
      source.load ls = .ok c → ls[result]? = some l →
      Emits ls (.convert source conversions result) (c ++ conversions ++ [l.store])
  | bookkeeping {e : Effect} : e.isImportant = false → Emits ls e []
  | readField {origin : String} {v : Value} {result : Nat} {c : List Bytecode} {l : Local} :
      v.load ls = .ok c → ls[result]? = some l →
      Emits ls (.readField ⟨origin, some v⟩ (some result)) (c ++ [l.store])
  | writeObject {origin : String} {object : Nat} {ref : FieldRef} {value : Input} {l : Local}
      {c : List Bytecode} :
      ls[object]? = some l → value.load ls = .ok c →
      Emits ls (.writeField ⟨origin, some (.field (some object) ref)⟩ value)
        (l.load :: c ++ [.stfld ref])
  | writeStatic {origin : String} {ref : FieldRef} {value : Input} {c : List Bytecode} :
      value.load ls = .ok c →
      Emits ls (.writeField ⟨origin, some (.field none ref)⟩ value) (c ++ [.stsfld ref])
  | branch {condition : Condition} {c : Comparison} {target : UInt64} {code : List Bytecode} :
      c.modeled = true → c.Emits ls target condition code →
      Emits ls (.branch condition (some c) target true) code
  | jump {target : UInt64} : Emits ls (.jump target true) [.br target]
  | label {target : UInt64} : Emits ls (.label target) [.label target]
  | call {target : UInt64} {method : Method} {arguments : List Input}
      {codes : List (List Bytecode)} :
      LoadsTo ls arguments codes →
      Emits ls (.call target (some method) arguments 0 none) (codes.flatten ++ [.call method])
  | callResult {target : UInt64} {method : Method} {arguments : List Input} {result : Nat}
      {codes : List (List Bytecode)} {l : Local} :
      LoadsTo ls arguments codes → ls[result]? = some l →
      Emits ls (.call target (some method) arguments 0 (some result))
        (codes.flatten ++ [.call method, l.store])
  | allocate {origin : String} {d : TypeDefinition} {result : Nat} {l : Local} :
      ls[result]? = some l →
      Emits ls (.allocate ⟨origin, some (.classPointer d)⟩ (some result))
        [.newobj (.definition d), l.store]
  | allocateArray {origin : String} {d : TypeDefinition} {length : Input} {result : Nat}
      {c : List Bytecode} {l : Local} :
      length.load ls = .ok c → ls[result]? = some l →
      Emits ls (.allocateArray ⟨origin, some (.classPointer d)⟩ length (some result))
        (c ++ [.newarr (.definition d), l.store])
  | throw {exception : Input} {c : List Bytecode} :
      exception.load ls = .ok c → Emits ls (.throw exception) (c ++ [.throw])
  | throwNew {typeName : String} {d : TypeDefinition} :
      Emits ls (.throwNew typeName (some d)) [.newobj (.definition d), .throw]
  | retVoid : Emits ls (.ret none) [.ret]
  | ret {value : Input} {c : List Bytecode} :
      value.load ls = .ok c → Emits ls (.ret (some value)) (c ++ [.ret])

theorem emits_of_bytecode {ls : Locals} {e : Effect} {code : List Bytecode}
    (h : e.bytecode ls = .ok code) : e.Emits ls code := by
  unfold Effect.bytecode at h
  split at h
  · simp only [except_bind_eq_ok, except_pure_eq_ok, loadAll_eq_ok_iff, store_eq_ok_iff] at h
    obtain ⟨_, ⟨codes, hc, rfl⟩, _, ⟨l, hl, rfl⟩, rfl⟩ := h
    match codes, hc with
    | [cl, cr], ⟨hcl, hcr, _⟩ => simpa using Effect.Emits.arithmetic hcl hcr hl
  · simp only [except_bind_eq_ok, except_pure_eq_ok, store_eq_ok_iff] at h
    obtain ⟨c, hc, _, ⟨l, hl, rfl⟩, rfl⟩ := h
    exact .convert hc hl
  · cases h; exact .bookkeeping rfl
  · cases h; exact .bookkeeping rfl
  · cases h; exact .bookkeeping rfl
  · cases h; exact .bookkeeping rfl
  · cases h; exact .bookkeeping rfl
  · cases h; exact .bookkeeping rfl
  · simp only [except_bind_eq_ok, except_pure_eq_ok, store_eq_ok_iff] at h
    obtain ⟨c, hc, _, ⟨l, hl, rfl⟩, rfl⟩ := h
    exact .readField hc hl
  · cases h
  · simp only [except_bind_eq_ok, except_pure_eq_ok, find_eq_ok_iff] at h
    obtain ⟨l, hl, c, hc, rfl⟩ := h
    exact .writeObject hl hc
  · simp only [except_bind_eq_ok, except_pure_eq_ok] at h
    obtain ⟨c, hc, rfl⟩ := h
    exact .writeStatic hc
  · cases h
  · rename_i condition comparison target inside
    cases inside with
    | false => cases h
    | true =>
      cases comparison with
      | none => cases h
      | some c =>
        obtain ⟨hm, hc⟩ := emits_of_branchCode h
        exact .branch hm hc
  · split at h
    · rename_i hi
      cases h
      subst hi
      exact .jump
    · cases h
  · cases h; exact .label
  · cases h
  · rename_i target method arguments onStack result
    split at h
    · cases h
    · rename_i hs
      obtain rfl : onStack = 0 := by omega
      simp only [except_bind_eq_ok, loadAll_eq_ok_iff] at h
      obtain ⟨_, ⟨codes, hc, rfl⟩, h⟩ := h
      cases result with
      | none => cases h; exact .call hc
      | some result =>
        simp only [except_bind_eq_ok, except_pure_eq_ok, store_eq_ok_iff] at h
        obtain ⟨_, ⟨l, hl, rfl⟩, rfl⟩ := h
        exact .callResult hc hl
  · simp only [except_bind_eq_ok, except_pure_eq_ok, store_eq_ok_iff] at h
    obtain ⟨_, ⟨l, hl, rfl⟩, rfl⟩ := h
    exact .allocate hl
  · cases h
  · simp only [except_bind_eq_ok, except_pure_eq_ok, store_eq_ok_iff] at h
    obtain ⟨c, hc, _, ⟨l, hl, rfl⟩, rfl⟩ := h
    exact .allocateArray hc hl
  · cases h
  · simp only [except_bind_eq_ok, except_pure_eq_ok] at h
    obtain ⟨c, hc, rfl⟩ := h
    exact .throw hc
  · cases h; exact .throwNew
  · cases h
  · cases h; exact .retVoid
  · simp only [except_bind_eq_ok, except_pure_eq_ok] at h
    obtain ⟨c, hc, rfl⟩ := h
    exact .ret hc
  · cases h

/-! ## The locals that code pushes -/

/-- The instruction pushes a local. -/
def Bytecode.isLoad : Bytecode → Bool
  | ldarg _ | ldloc _ => true
  | _ => false

theorem Local.isLoad_store (l : Local) : l.store.isLoad = false := by
  unfold Local.store
  split <;> rfl

/-- `b` pushes a local that the effect reads. -/
def Effect.Pushes (ls : Locals) (e : Effect) (b : Bytecode) : Prop :=
  ∃ id ∈ e.consumed, ∃ l, ls[id]? = some l ∧ b = l.load

theorem pushed_of_value {ls : Locals} {v : Value} {c : List Bytecode} (h : v.load ls = .ok c)
    {b : Bytecode} (hb : b ∈ c) (hl : b.isLoad = true) :
    ∃ id, v.local? = some id ∧ ∃ l, ls[id]? = some l ∧ b = l.load := by
  unfold Value.load at h
  split at h
  · rename_i id
    simp only [except_bind_eq_ok, except_pure_eq_ok, find_eq_ok_iff] at h
    obtain ⟨l, hid, rfl⟩ := h
    exact ⟨id, rfl, l, hid, List.mem_singleton.mp hb⟩
  · rename_i k
    cases h
    rw [List.mem_singleton.mp hb] at hl
    cases k <;> cases hl
  · rename_i id f
    simp only [except_bind_eq_ok, except_pure_eq_ok, find_eq_ok_iff] at h
    obtain ⟨l, hid, rfl⟩ := h
    simp only [List.mem_cons, List.not_mem_nil, or_false] at hb
    rcases hb with rfl | rfl
    · exact ⟨id, rfl, l, hid, rfl⟩
    · cases hl
  · cases h
    rw [List.mem_singleton.mp hb] at hl
    cases hl
  · cases h
  · cases h

theorem Effect.pushes_of_input {ls : Locals} {e : Effect} {i : Input} (hi : i ∈ e.inputs)
    {c : List Bytecode} (h : i.load ls = .ok c) {b : Bytecode} (hb : b ∈ c)
    (hl : b.isLoad = true) : e.Pushes ls b := by
  obtain ⟨v, hv, hload⟩ := load_eq_ok_iff.mp h
  obtain ⟨id, hid, l, hloc, rfl⟩ := pushed_of_value hload hb hl
  exact ⟨id, List.mem_filterMap.mpr ⟨i, hi, by simp [Input.local?, hv, hid]⟩, l, hloc, rfl⟩

theorem mem_of_loadsTo {ls : Locals} {is : List Input} {codes : List (List Bytecode)}
    (h : LoadsTo ls is codes) {c : List Bytecode} (hc : c ∈ codes) :
    ∃ i ∈ is, i.load ls = .ok c := by
  induction is generalizing codes with
  | nil =>
    cases codes with
    | nil => simp at hc
    | cons d ds => exact h.elim
  | cons i is ih =>
    cases codes with
    | nil => exact h.elim
    | cons d ds =>
      rcases List.mem_cons.mp hc with rfl | hc
      · exact ⟨i, by simp, h.1⟩
      · obtain ⟨j, hj, hl⟩ := ih h.2 hc
        exact ⟨j, by simp [hj], hl⟩

theorem Comparison.Emits.pushes {ls : Locals} {c : Comparison} {target : UInt64}
    {condition : Condition} {code : List Bytecode} (h : c.Emits ls target condition code)
    {b : Bytecode} (hb : b ∈ code) (hl : b.isLoad = true) (inside : Bool) :
    (Effect.branch condition (some c) target inside).Pushes ls b := by
  have hleft : c.left ∈ (Effect.branch condition (some c) target inside).inputs := by
    simp [Effect.inputs]
  have hright : c.right ∈ (Effect.branch condition (some c) target inside).inputs := by
    simp [Effect.inputs]
  cases h with
  | zero _ h =>
    simp only [List.mem_append, List.mem_singleton] at hb
    rcases hb with hb | rfl
    · exact Effect.pushes_of_input hleft h hb hl
    · cases hl
  | nonzero _ h =>
    simp only [List.mem_append, List.mem_singleton] at hb
    rcases hb with hb | rfl
    · exact Effect.pushes_of_input hleft h hb hl
    · cases hl
  | test _ h h' _ =>
    simp only [List.mem_append, List.mem_singleton] at hb
    rcases hb with (hb | hb) | rfl
    · exact Effect.pushes_of_input hleft h hb hl
    · exact Effect.pushes_of_input hright h' hb hl
    · cases hl

/-- An effect's code pushes no other local than those the effect reads, provided that a conversion
does not. -/
theorem Effect.Emits.pushes {ls : Locals} {e : Effect} {code : List Bytecode}
    (h : e.Emits ls code)
    (hconv : ∀ source cs result, e = .convert source cs result → ∀ b ∈ cs, b.isLoad = false)
    {b : Bytecode} (hb : b ∈ code) (hl : b.isLoad = true) : e.Pushes ls b := by
  have hstore : ∀ l : Local, b ≠ l.store := fun l hs => by
    rw [hs, l.isLoad_store] at hl
    cases hl
  cases h with
  | arithmetic hcl hcr _ =>
    simp only [List.mem_append, List.mem_cons, List.not_mem_nil, or_false] at hb
    rcases hb with (hb | hb) | rfl | rfl
    · exact pushes_of_input (by simp [Effect.inputs]) hcl hb hl
    · exact pushes_of_input (by simp [Effect.inputs]) hcr hb hl
    · cases hl
    · exact absurd rfl (hstore _)
  | convert hc _ =>
    simp only [List.mem_append, List.mem_singleton] at hb
    rcases hb with (hb | hb) | rfl
    · exact pushes_of_input (by simp [Effect.inputs]) hc hb hl
    · rw [hconv _ _ _ rfl b hb] at hl
      cases hl
    · exact absurd rfl (hstore _)
  | bookkeeping _ => simp at hb
  | @readField origin v result c l hc _ =>
    simp only [List.mem_append, List.mem_singleton] at hb
    rcases hb with hb | rfl
    · exact pushes_of_input (i := ⟨origin, some v⟩) (by simp [Effect.inputs]) hc hb hl
    · exact absurd rfl (hstore _)
  | @writeObject origin object ref value l c hloc hc =>
    simp only [List.cons_append, List.mem_cons, List.mem_append, List.not_mem_nil, or_false] at hb
    rcases hb with rfl | hb | rfl
    · refine ⟨object, ?_, l, hloc, rfl⟩
      simp [Effect.consumed, Effect.inputs, Input.local?, Value.local?]
    · exact pushes_of_input (by simp [Effect.inputs]) hc hb hl
    · cases hl
  | writeStatic hc =>
    simp only [List.mem_append, List.mem_singleton] at hb
    rcases hb with hb | rfl
    · exact pushes_of_input (by simp [Effect.inputs]) hc hb hl
    · cases hl
  | branch _ hc => exact hc.pushes hb hl true
  | jump => rw [List.mem_singleton.mp hb] at hl; cases hl
  | label => rw [List.mem_singleton.mp hb] at hl; cases hl
  | call hc =>
    simp only [List.mem_append, List.mem_singleton, List.mem_flatten] at hb
    rcases hb with ⟨c, hmem, hb⟩ | rfl
    · obtain ⟨i, hi, hload⟩ := mem_of_loadsTo hc hmem
      exact pushes_of_input hi hload hb hl
    · cases hl
  | callResult hc _ =>
    simp only [List.mem_append, List.mem_cons, List.not_mem_nil, or_false, List.mem_flatten] at hb
    rcases hb with ⟨c, hmem, hb⟩ | rfl | rfl
    · obtain ⟨i, hi, hload⟩ := mem_of_loadsTo hc hmem
      exact pushes_of_input hi hload hb hl
    · cases hl
    · exact absurd rfl (hstore _)
  | allocate _ =>
    simp only [List.mem_cons, List.not_mem_nil, or_false] at hb
    rcases hb with rfl | rfl
    · cases hl
    · exact absurd rfl (hstore _)
  | allocateArray hc _ =>
    simp only [List.mem_append, List.mem_cons, List.not_mem_nil, or_false] at hb
    rcases hb with hb | rfl | rfl
    · exact pushes_of_input (by simp [Effect.inputs]) hc hb hl
    · cases hl
    · exact absurd rfl (hstore _)
  | throw hc =>
    simp only [List.mem_append, List.mem_singleton] at hb
    rcases hb with hb | rfl
    · exact pushes_of_input (by simp [Effect.inputs]) hc hb hl
    · cases hl
  | throwNew =>
    simp only [List.mem_cons, List.not_mem_nil, or_false] at hb
    rcases hb with rfl | rfl <;> cases hl
  | retVoid => rw [List.mem_singleton.mp hb] at hl; cases hl
  | ret hc =>
    simp only [List.mem_append, List.mem_singleton] at hb
    rcases hb with hb | rfl
    · exact pushes_of_input (by simp [Effect.inputs]) hc hb hl
    · cases hl

end MethodLift
