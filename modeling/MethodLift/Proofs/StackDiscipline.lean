import MethodLift.Proofs.Layout

/-!
# The evaluation stack of emitted code

`Bytecode.pops` and `Bytecode.pushes` are the stack effects of the bytecode, and `depth?` counts the
values on the stack along a list of instructions, until one of them asks for more than there are.
The code of every action is `Balanced`: it can run on any stack and leaves as many values as it
found. So a whole body never pops an empty stack and holds no value between two actions
(`StackDiscipline`), hence none where control comes in or goes out.

A call is balanced because the walk records one argument for each parameter of the callee, and a
result exactly if there is one (`Effect.Fits`).
-/

namespace MethodLift

open Walk

/-! ## Stack effects -/

namespace Bytecode

/-- The number of values that an instruction takes from the stack, in the body of `method`. -/
def pops (method : Method) : Bytecode → Nat
  | ldarg _ | ldloc _ | ldcI4 _ | ldcI8 _ | ldcR4 _ | ldcR8 _ | ldstr _ | ldnull | ldsfld _ => 0
  | ldfld _ | conv _ _ => 1
  | arithmetic _ => 2
  | starg _ | stloc _ | stsfld _ | brtrue _ | brfalse _ | throw => 1
  | branch _ _ | stfld _ => 2
  | call m => m.arity
  | newobj _ => 0
  | newarr _ => 1
  | ret => if method.returnsVoid then 0 else 1
  | br _ | label _ => 0

/-- The number of values that an instruction puts on the stack. -/
def pushes : Bytecode → Nat
  | ldarg _ | ldloc _ | ldcI4 _ | ldcI8 _ | ldcR4 _ | ldcR8 _ | ldstr _ | ldnull | ldsfld _ => 1
  | ldfld _ | conv _ _ | arithmetic _ | newobj _ | newarr _ => 1
  | call m => if m.returnsVoid then 0 else 1
  | _ => 0

end Bytecode

/-- The depth of the stack after the code, unless an instruction pops more than there is. -/
def depth? (method : Method) : Nat → List Bytecode → Option Nat
  | d, [] => some d
  | d, b :: code =>
    if b.pops method ≤ d then depth? method (d - b.pops method + b.pushes) code else none

/-- The code leaves `n` more values than it finds, on whatever stack. -/
def Stacks (method : Method) (n : Nat) (code : List Bytecode) : Prop :=
  ∀ d, depth? method d code = some (d + n)

/-- The code leaves as many values as it finds. -/
def Balanced (method : Method) (code : List Bytecode) : Prop := Stacks method 0 code

section

variable {method : Method} {ls : Locals} {code front back : List Bytecode} {b : Bytecode}
  {d n : Nat}

theorem depth?_append (method : Method) (d : Nat) (front back : List Bytecode) :
    depth? method d (front ++ back) =
      (depth? method d front).bind fun n => depth? method n back := by
  induction front generalizing d with
  | nil => rfl
  | cons b front ih =>
    simp only [List.cons_append, depth?]
    split
    · exact ih _
    · rfl

/-- Code that gets to its end never finds too few values. -/
theorem pops_le_of_depth? (h : depth? method d (front ++ b :: back) = some n) :
    ∃ k, depth? method d front = some k ∧ b.pops method ≤ k := by
  rw [depth?_append, Option.bind_eq_some_iff] at h
  obtain ⟨k, hk, hrest⟩ := h
  refine ⟨k, hk, ?_⟩
  rw [depth?] at hrest
  split at hrest
  · assumption
  · cases hrest

theorem Stacks.nil : Stacks method 0 [] := fun _ => rfl

theorem Stacks.append {k : Nat} (hf : Stacks method n front)
    (hb : ∀ d, depth? method (d + n) back = some (d + k)) : Stacks method k (front ++ back) := by
  intro d
  rw [depth?_append, hf d]
  exact hb d

/-- An instruction that takes all values leaves what it pushes. -/
theorem Stacks.concat (h : Stacks method n code) (b : Bytecode) (hb : b.pops method = n) :
    Stacks method b.pushes (code ++ [b]) := by
  refine h.append fun d => ?_
  rw [depth?, if_pos (by omega), depth?]
  congr 1
  omega

theorem Balanced.append (hf : Balanced method front) (hb : Balanced method back) :
    Balanced method (front ++ back) := Stacks.append hf hb

/-! ## The code of an effect -/

/-- A local is pushed on whatever stack there is. -/
theorem Stacks.load (l : Local) : Stacks method 1 [l.load] := by
  unfold Local.load
  split <;> exact Stacks.nil.concat _ rfl

/-- Code that makes one value is balanced once the value is stored. -/
theorem Stacks.store (h : Stacks method 1 code) (l : Local) :
    Balanced method (code ++ [l.store]) := by
  unfold Local.store
  split <;> exact h.concat _ rfl

theorem Value.stacks_load {v : Value} (h : v.load ls = .ok code) : Stacks method 1 code := by
  unfold Value.load at h
  split at h
  · simp only [except_bind_eq_ok, except_pure_eq_ok] at h
    obtain ⟨l, -, rfl⟩ := h
    exact .load l
  · rename_i c
    cases h
    cases c <;> exact Stacks.nil.concat _ rfl
  · simp only [except_bind_eq_ok, except_pure_eq_ok] at h
    obtain ⟨l, -, rfl⟩ := h
    exact (Stacks.load l).concat _ rfl
  · cases h
    exact Stacks.nil.concat _ rfl
  · cases h
  · cases h

theorem Input.stacks_load {i : Input} (h : i.load ls = .ok code) : Stacks method 1 code := by
  obtain ⟨v, -, hv⟩ := load_eq_ok_iff.mp h
  exact v.stacks_load hv

/-- Arguments are pushed one by one. -/
theorem stacks_loadsTo {is : List Input} {codes : List (List Bytecode)} (h : LoadsTo ls is codes) :
    Stacks method is.length codes.flatten := by
  induction is generalizing codes with
  | nil =>
    cases codes with
    | nil => exact .nil
    | cons c cs => exact h.elim
  | cons i is ih =>
    cases codes with
    | nil => exact h.elim
    | cons c cs =>
      refine (Input.stacks_load h.1).append fun d => ?_
      rw [ih h.2, List.length_cons, Nat.add_assoc, Nat.add_comm 1]

theorem Stacks.convert (h : Stacks method 1 code) {conversions : List Bytecode}
    (hc : ∀ b ∈ conversions, ∃ size signed, b = .conv size signed) :
    Stacks method 1 (code ++ conversions) := by
  induction conversions generalizing code with
  | nil => simpa using h
  | cons b conversions ih =>
    obtain ⟨size, signed, rfl⟩ := hc b (List.mem_cons_self ..)
    rw [List.append_cons]
    exact ih (h.concat _ rfl) fun c hmem => hc c (List.mem_cons_of_mem _ hmem)

/-- Two operands are pushed one after the other. -/
theorem Input.stacks_both {left right : Input} {cl cr : List Bytecode}
    (hl : left.load ls = .ok cl) (hr : right.load ls = .ok cr) : Stacks method 2 (cl ++ cr) :=
  (Input.stacks_load hl).append fun d => Input.stacks_load hr (d + 1)

theorem Comparison.Emits.balanced {c : Comparison} {target : UInt64} {condition : Condition}
    (h : c.Emits ls target condition code) : Balanced method code := by
  cases h with
  | zero _ hl => exact (Input.stacks_load hl).concat _ rfl
  | nonzero _ hl => exact (Input.stacks_load hl).concat _ rfl
  | test _ hl hr _ => exact (Input.stacks_both hl hr).concat _ rfl

/-- Every effect's code is balanced. -/
theorem Effect.Emits.balanced {e : Effect} (h : e.Emits ls code) (hf : e.Fits method) :
    Balanced method code := by
  cases h with
  | @arithmetic op _ _ _ cl cr l hl hr _ =>
    have hvalue : Stacks method 1 (cl ++ cr ++ [.arithmetic op]) :=
      (Input.stacks_both hl hr).concat _ rfl
    simpa using hvalue.store l
  | @convert _ _ _ _ l hc _ => exact ((Input.stacks_load hc).convert hf).store l
  | bookkeeping _ => exact .nil
  | @readField _ _ _ _ l hc _ => exact (Value.stacks_load hc).store l
  | @writeObject _ _ _ _ l c _ hc =>
    have hboth : Stacks method 2 (l.load :: c) :=
      (Stacks.load l).append fun d => Input.stacks_load hc (d + 1)
    exact hboth.concat _ rfl
  | writeStatic hc => exact (Input.stacks_load hc).concat _ rfl
  | branch _ hc => exact hc.balanced
  | jump => exact Stacks.nil.concat _ rfl
  | label => exact Stacks.nil.concat _ rfl
  | @call _ callee _ codes hc =>
    obtain ⟨harity, hvoid⟩ := hf
    have hcall : Stacks method (Bytecode.call callee).pushes (codes.flatten ++ [.call callee]) :=
      (stacks_loadsTo hc).concat _ harity.symm
    have hpushes : (Bytecode.call callee).pushes = 0 := if_pos (hvoid.mp rfl)
    rw [hpushes] at hcall
    exact hcall
  | @callResult _ callee _ _ codes l hc _ =>
    obtain ⟨harity, hvoid⟩ := hf
    have hcall : Stacks method (Bytecode.call callee).pushes (codes.flatten ++ [.call callee]) :=
      (stacks_loadsTo hc).concat _ harity.symm
    have hpushes : (Bytecode.call callee).pushes = 1 := if_neg fun hv => by cases hvoid.mpr hv
    rw [hpushes] at hcall
    simpa using hcall.store l
  | @allocate _ d _ l _ =>
    have hvalue : Stacks method 1 [.newobj (.definition d)] := Stacks.nil.concat _ rfl
    exact hvalue.store l
  | @allocateArray _ d _ _ c l hc _ =>
    have hvalue : Stacks method 1 (c ++ [.newarr (.definition d)]) :=
      (Input.stacks_load hc).concat _ rfl
    simpa using hvalue.store l
  | throw hc => exact (Input.stacks_load hc).concat _ rfl
  | @throwNew _ d =>
    have hvalue : Stacks method 1 [.newobj (.definition d)] := Stacks.nil.concat _ rfl
    exact hvalue.concat _ rfl
  | retVoid =>
    have hpops : Bytecode.ret.pops method = 0 := if_pos (hf.mp rfl)
    exact Stacks.nil.concat .ret hpops
  | ret hc =>
    have hpops : Bytecode.ret.pops method = 1 := if_neg fun hv => by cases hf.mpr hv
    exact (Input.stacks_load hc).concat .ret hpops

/-- So is the code of any list of actions. -/
theorem balanced_emitAll {as : List Action} (hf : ∀ a ∈ as, a.effect.Fits method)
    (h : emitAll ls as = .ok code) : Balanced method code := by
  induction as generalizing code with
  | nil =>
    cases h
    exact .nil
  | cons a as ih =>
    obtain ⟨first, rest, hfirst, hrest, rfl⟩ := emitAll_cons.mp h
    have hhead := (emits_of_bytecode hfirst).balanced (hf a (List.mem_cons_self ..))
    exact hhead.append (ih (fun b hb => hf b (List.mem_cons_of_mem a hb)) hrest)

end

/-! ## Whole bodies -/

/-- How the code of `actions` uses the stack in the body of `method`. -/
structure StackDiscipline (method : Method) (ls : Locals) (actions : List Action)
    (code : List Bytecode) : Prop where
  /-- No instruction finds fewer values than it takes. -/
  enough : ∀ front b back, code = front ++ b :: back →
    ∃ d, depth? method 0 front = some d ∧ b.pops method ≤ d
  /-- Between actions the stack is empty, and so it is before the first and behind the last one. -/
  boundary : ∀ before after, actions = before ++ after →
    ∃ front back, emitAll ls before = .ok front ∧ emitAll ls after = .ok back ∧
      code = front ++ back ∧ depth? method 0 front = some 0
  /-- The stack is empty where control may come in. -/
  label : ∀ front target back, code = front ++ .label target :: back →
    depth? method 0 front = some 0
  /-- The stack is empty where control goes out. -/
  leave : ∀ front b back, code = front ++ b :: back →
    b.target?.isSome = true ∨ b = .ret ∨ b = .throw → depth? method 0 (front ++ [b]) = some 0

theorem stackDiscipline_emitAll {method : Method} {ls : Locals} {as : List Action}
    {code : List Bytecode} (hf : ∀ a ∈ as, a.effect.Fits method) (h : emitAll ls as = .ok code) :
    StackDiscipline method ls as code where
  enough front b back hcode := by
    have hrun := balanced_emitAll hf h 0
    rw [hcode] at hrun
    exact pops_le_of_depth? hrun
  boundary before after has := by
    rw [has] at h hf
    obtain ⟨front, back, hfront, hback, rfl⟩ := emitAll_append.mp h
    exact ⟨front, back, hfront, hback, rfl,
      balanced_emitAll (fun a ha => hf a (List.mem_append_left _ ha)) hfront 0⟩
  label front target back hcode := by
    obtain ⟨before, a, after, c, d, p, q, rfl, hc, ha, -, rfl, -⟩ := exists_action_of_mem h hcode
    obtain ⟨rfl, hends⟩ := Effect.Ends.of_mem ha (hf a (by simp)) rfl rfl
    -- The label is all the code of its action, so what comes before it is that of whole actions.
    have hp : p = [] := by
      rw [hends.eq_label] at ha
      simpa [Effect.bytecode] using ha
    rw [hp, List.append_nil]
    exact balanced_emitAll (fun b hb => hf b (by simp [hb])) hc 0
  leave front b back hcode hb := by
    obtain ⟨before, a, after, c, d, p, q, rfl, hc, ha, -, rfl, -⟩ := exists_action_of_mem h hcode
    have hcontrol : b.isControl = true := by
      rcases hb with hb | rfl | rfl
      · obtain ⟨t, ht⟩ := Option.isSome_iff_exists.mp hb
        exact Bytecode.isControl_of_target? ht
      · rfl
      · rfl
    obtain ⟨rfl, -⟩ := Effect.Ends.of_mem ha (hf a (by simp)) rfl hcontrol
    have hbefore := balanced_emitAll (fun b hb => hf b (by simp [hb])) hc
    have haction := (emits_of_bytecode ha).balanced (hf a (by simp))
    rw [List.append_assoc]
    exact hbefore.append haction 0

/-- An emittable method has code, and that never pops an empty stack and holds nothing on it between
two actions. -/
theorem run_stackDiscipline (e : Environment) (session : Session) (job : Job)
    (hemit : (Analysis.run e session job).1.state = .emittable) :
    ∃ code, (Analysis.run e session job).1.bytecode = .ok code ∧
      StackDiscipline job.method (Analysis.run e session job).1.locals
        (Analysis.run e session job).1.actions code := by
  obtain ⟨-, hactions, code, hcode, hall⟩ := Analysis.code_of_emittable hemit
  refine ⟨code, hcode, stackDiscipline_emitAll (fun a ha => ?_) hall⟩
  rw [hactions] at ha
  exact fits_of_mem (Analysis.emittable_walk hemit) ha

/-- The exception that a failed check for null throws. -/
def nullReferenceType : TypeDefinition :=
  .topLevel { id := .listed 1, space := "System", name := "NullReferenceException" }

/-- A static method of a player, from integers to integers. -/
def integerMethod (name : String) : Method :=
  { token := 0, name, owner := playerType, isStatic := true
    returnType := .definition (TypeTable.supplied .int32)
    parameters := [⟨"a", .definition (TypeTable.supplied .int32)⟩] }

/-- `int Checked(int a)`: what `Lookup(a)` returns, unless that is zero. -/
def checkedRows : List ListingRow :=
  [⟨0x1000, 5, "call", "0x2000"⟩, ⟨0x1005, 2, "test", "eax, eax"⟩, ⟨0x1007, 2, "jne", "0x100e"⟩,
   ⟨0x1009, 5, "call", "0x3000"⟩, ⟨0x100e, 1, "ret", ""⟩]

def checkedEnvironment : Environment where
  backend := .x64 (.ofListing .x64 checkedRows)
  image := .raw .x64 0x1000 (Array.replicate 15 0x90)
  table := ⟨[playerType, nullReferenceType], ∅⟩
  helpers := HelperTable.empty.set .raiseNullReference 0x3000
  symbols := { methodAt? := fun a => if a = 0x2000 then some (integerMethod "Lookup") else none }
  options := { boundary := .recursive }

def checkedJob : Job := { address := 0x1000, method := integerMethod "Checked" }

theorem run_stackDiscipline_checked :
    (Analysis.run checkedEnvironment {} checkedJob).1.state = .emittable ∧
      ∃ code, (Analysis.run checkedEnvironment {} checkedJob).1.bytecode = .ok code ∧
        StackDiscipline checkedJob.method (Analysis.run checkedEnvironment {} checkedJob).1.locals
          (Analysis.run checkedEnvironment {} checkedJob).1.actions code := by
  have hemit : (Analysis.run checkedEnvironment {} checkedJob).1.state = .emittable := by
    decide +kernel
  exact ⟨hemit, run_stackDiscipline checkedEnvironment {} checkedJob hemit⟩

end MethodLift
