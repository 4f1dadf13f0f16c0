import MethodLift.Backend.Builtin
import MethodLift.Encoding.Listing
import MethodLift.Proofs.AllOrNothing
import MethodLift.Proofs.Operands
import MethodLift.Proofs.Recorded

/-!
# Running the body along its ways

The body is written from the states that the walk had in its one pass. When the code runs, control
may come to an instruction again, from further behind. `Replayed` are the states that arise at a
position when each instruction keeps the local it was given and control takes any way through the
body. Such a state is `Faithful` if the instruction would add to the body what the walk wrote there.

Along ways ahead every state is faithful. A way back may bring a state that is not: the walk looks
only at the straight line from the target to the branch, and a value that is read past an exit from
the loop escapes it. What has to hold is that each state brought back `Meets` the demands of the
code it comes to: a place demanded by some instruction further on, through whatever moves lie
between, still holds what the walk wrote for it. That condition is exact (`meets_of_faithful`,
`meets_of_around`), and it suffices to ask it of the walk's own states at the branches back
(`meets_of_back`).
-/

namespace MethodLift

open Walk

/-! ## Replays -/

/-- What the instruction at position `k` does in a state; it keeps the local it was given. -/
def Walk.replay (s : Setting) (k : Nat) (m : Machine) : Step :=
  match s.body[k]? with
  | some i => s.step (run s).locals (upTo s k).locals.length m i
  | none => { machine := m }

/-- The states that arise at positions along some of the ways through the body. -/
inductive Replayed (s : Setting) (way : Nat → Nat → Bool) : Nat → Machine → Prop
  | entry : Replayed s way 0 s.entryMachine
  | step {k t : Nat} {m : Machine} : Replayed s way k m → way k t = true →
      Replayed s way t (replay s k m).machine

/-- The positions lead from `k` on, one to the next. -/
def Walk.isPath (way : Nat → Nat → Bool) : Nat → List Nat → Bool
  | _, [] => true
  | k, t :: path => way k t && isPath way t path

/-- The position and the state at the end of a path. -/
def Walk.along (s : Setting) : Nat → Machine → List Nat → Nat × Machine
  | k, m, [] => (k, m)
  | k, m, t :: path => along s t (replay s k m).machine path

theorem Replayed.along {s : Setting} {way : Nat → Nat → Bool} {k : Nat} {m : Machine}
    (h : Replayed s way k m) (path : List Nat) (hp : isPath way k path = true) :
    Replayed s way (along s k m path).1 (along s k m path).2 := by
  induction path generalizing k m with
  | nil => exact h
  | cons t path ih =>
    obtain ⟨hway, hrest⟩ := Bool.and_eq_true_iff.mp hp
    exact ih (h.step hway) hrest

/-- Something that was recorded at position `k` shows in the body. -/
def Shows (s : Setting) (k : Nat) : Prop := ∃ e ∈ (recorded s k).effects, e.isImportant = true

/-- In state `m` the instruction at position `k` reads what was recorded for it. -/
def Faithful (s : Setting) (k : Nat) (m : Machine) : Prop :=
  Shows s k → (replay s k m).effects = (recorded s k).effects

/-- Every action of the walk has code. -/
def Emittable (s : Setting) : Prop :=
  ∀ a ∈ (run s).actions, ∃ code, a.bytecode (run s).locals = .ok code

/-- The ways that lead ahead. -/
def Walk.ahead (s : Setting) (k t : Nat) : Bool := follows s k t && decide (k < t)

/-! ## Demands -/

/-- From position `k` on, content `d` of place `x` is read as `g d` at the end of some path, where
`c` was recorded. -/
inductive Demands (s : Setting) (way : Nat → Nat → Bool) :
    Nat → Location → (Content → Option Content) → Content → Prop
  /-- The instruction writes the place into the body. -/
  | here {k : Nat} {i : Instruction} {x : Location} {c : Content} : s.body[k]? = some i →
      Shows s k → x ∈ s.operands i → (before s k).machine.content x = some c →
      Demands s way k x some c
  /-- The instruction moves the content to a place that is demanded further on. -/
  | later {k t : Nat} {x y : Location} {f g : Content → Option Content} {c : Content} :
      way k t = true → (∀ m, (replay s k m).machine.content y = (m.content x).bind f) →
      Demands s way t y g c → Demands s way k x (fun d => (f d).bind g) c

/-- The state holds what is demanded from position `k` on. -/
def Meets (s : Setting) (way : Nat → Nat → Bool) (k : Nat) (m : Machine) : Prop :=
  ∀ x g c, Demands s way k x g c → (m.content x).bind g = some c

section

variable {s : Setting} {way : Nat → Nat → Bool} {k t : Nat} {m : Machine} {i : Instruction}

theorem replay_before (s : Setting) (k : Nat) : replay s k (before s k).machine = recorded s k := by
  cases h : s.body[k]? with
  | some i => simp only [replay, h, recorded_eq_step h]
  | none => simp only [replay, recorded, h]

theorem traceable_replay (hr : s.ResultIsVolatile) (k : Nat) :
    Setting.Traceable fun m => (replay s k m).machine := by
  unfold replay
  split
  · exact Setting.traceable_step hr
  · exact Setting.traceable_still

/-- What was recorded at a position is fixed by the operands of its instruction, and fixes them. -/
theorem determines_replay (hr : s.ResultIsVolatile)
    (hemit : Emittable s) (hi : s.body[k]? = some i)
    (hs : Shows s k) :
    Determines (fun n => (replay s k n).effects) (s.operands i) (before s k).machine := by
  have hemitted : Emitted (run s).locals (recorded s k).effects := by
    refine ⟨fun e he => ?_, hs⟩
    obtain ⟨code, hc⟩ := hemit _ (recorded_mem hi he)
    exact ⟨code, except_mapError_eq_ok.mp hc⟩
  rw [recorded_eq_step hi] at hemitted
  simp only [replay, hi]
  exact Setting.determines_step hr hemitted

/-- A faithful state agrees with the walk on the operands. -/
theorem faithful_iff_agreeOn (hr : s.ResultIsVolatile)
    (hemit : Emittable s) (hi : s.body[k]? = some i)
    (hs : Shows s k) :
    Faithful s k m ↔ Machine.AgreeOn (s.operands i) (before s k).machine m := by
  rw [← (determines_replay hr hemit hi hs).eq_iff m, replay_before, Faithful]
  exact ⟨fun h => h hs, fun h _ => h⟩

theorem faithful_of_meets (hr : s.ResultIsVolatile)
    (hemit : Emittable s) (h : Meets s way k m) :
    Faithful s k m := by
  intro hs
  have ⟨e, he, _⟩ := hs
  cases hi : s.body[k]? with
  | none =>
    rw [recorded, hi] at he
    cases he
  | some i =>
    refine (faithful_iff_agreeOn hr hemit hi hs).mpr (fun x hx => ?_) hs
    obtain ⟨c, hc⟩ := Option.isSome_iff_exists.mp ((determines_replay hr hemit hi hs).known x hx)
    have hm := h x some c (.here hi hs hx hc)
    rw [hc]
    simpa using hm

/-- If all states are faithful, they hold what is demanded. -/
theorem meets_of_faithful (hr : s.ResultIsVolatile)
    (hemit : Emittable s)
    (h : ∀ k m, Replayed s way k m → Faithful s k m) (hm : Replayed s way k m) :
    Meets s way k m := by
  intro x g c hd
  induction hd generalizing m with
  | here hi hs hx hc =>
    have hagree := (faithful_iff_agreeOn hr hemit hi hs).mp (h _ m hm)
    rw [hagree _ hx, hc]
    rfl
  | later hway htakes _ ih =>
    have := ih (hm.step hway)
    rw [htakes m, Option.bind_assoc] at this
    exact this

/-! ## Meeting demands -/

/-- Demands are met along all ways if what instructions make without looking at the state meets
them. The other contents were demanded one instruction earlier. -/
theorem meets_of_made (hr : s.ResultIsVolatile) (hentry : Meets s way 0 s.entryMachine)
    (hmade : ∀ {k t : Nat} {m : Machine} {y : Location} {g : Content → Option Content}
      {c : Content} {d : Option Content}, Replayed s way k m → way k t = true →
      Demands s way t y g c → (∀ n, (replay s k n).machine.content y = d) → d.bind g = some c)
    (h : Replayed s way k m) : Meets s way k m := by
  induction h with
  | entry => exact hentry
  | @step k t m hm hway ih =>
    intro y g c hd
    obtain ⟨o, ho⟩ := traceable_replay hr k
    cases hy : o y with
    | taken x f =>
      have htakes : ∀ n, (replay s k n).machine.content y = (n.content x).bind f := by
        intro n
        rw [ho n y, hy]
        rfl
      rw [htakes m, Option.bind_assoc]
      exact ih x _ c (.later hway htakes hd)
    | made d =>
      have hconst : ∀ n, (replay s k n).machine.content y = d := by
        intro n
        rw [ho n y, hy]
        rfl
      rw [hconst m]
      exact hmade hm hway hd hconst

variable (haddress : s.body.Pairwise fun i j => i.address < j.address)
  (hfollows : ∀ k t, way k t = true → follows s k t = true)

include haddress hfollows

/-- Ahead, what the walk knows at the end of a way it knew after the step at its start. -/
theorem bind_recorded (hway : way k t = true) (hlt : k < t) {y : Location}
    {g : Content → Option Content} {c : Content}
    (h : ((before s t).machine.content y).bind g = some c) :
    ((recorded s k).machine.content y).bind g = some c := by
  obtain ⟨d, hd, hg⟩ := Option.bind_eq_some_iff.mp h
  rw [before_ahead haddress (hfollows k t hway) hlt y d hd]
  exact hg

section

variable (haround : ∀ k t m, Replayed s way k m → way k t = true → t ≤ k →
  Meets s way t (replay s k m).machine)

include haround

/-- What is demanded is known to the walk, unless it was lost in a join; then the state at hand has
it. -/
theorem known_of_demands {x : Location} {g : Content → Option Content} {c : Content}
    (hd : Demands s way k x g c) (hm : Replayed s way k m) :
    ((before s k).machine.content x).bind g = some c ∨ (m.content x).bind g = some c := by
  induction hd generalizing m with
  | here _ _ _ hc =>
    left
    rw [hc]
    rfl
  | @later k t x y f g c hway htakes hd ih =>
    have hthrough : ∀ n : Machine, ((replay s k n).machine.content y).bind g = some c →
        (n.content x).bind (fun d => (f d).bind g) = some c := by
      intro n hn
      rw [htakes n, Option.bind_assoc] at hn
      exact hn
    rcases Nat.lt_or_ge k t with hlt | hge
    · rcases ih (hm.step hway) with hwalk | hstate
      · left
        apply hthrough
        rw [replay_before]
        exact bind_recorded haddress hfollows hway hlt hwalk
      · exact .inr (hthrough m hstate)
    · exact .inr (hthrough m (haround k t m hm hway hge y g c hd))

/-- If the states brought back meet the demands, all states do. -/
theorem meets_of_around (hr : s.ResultIsVolatile) (hm : Replayed s way k m) : Meets s way k m := by
  refine meets_of_made hr (fun x g c hd => ?_) (fun {k t m y g c d} hm hway hd hconst => ?_) hm
  · rcases known_of_demands haddress hfollows haround hd .entry with hwalk | hstate
    · rw [before_zero] at hwalk
      exact hwalk
    · exact hstate
  · rw [← hconst m]
    rcases Nat.lt_or_ge k t with hlt | hge
    · rcases known_of_demands haddress hfollows haround hd (hm.step hway) with hwalk | hstate
      · have hrecorded := bind_recorded haddress hfollows hway hlt hwalk
        rw [← replay_before, hconst] at hrecorded
        rw [hconst]
        exact hrecorded
      · exact hstate
    · exact haround k t m hm hway hge y g c hd

end

section

variable (hback : ∀ k t, way k t = true → t ≤ k → Meets s way t (recorded s k).machine)

include hback

/-- What is demanded at the end of a way, the walk had after the step at its start. -/
theorem recorded_of_demands (hway : way k t = true) {y : Location} {g : Content → Option Content}
    {c : Content} (hd : Demands s way t y g c)
    (hwalk : ((before s t).machine.content y).bind g = some c) :
    ((recorded s k).machine.content y).bind g = some c := by
  rcases Nat.lt_or_ge k t with hlt | hge
  · exact bind_recorded haddress hfollows hway hlt hwalk
  · exact hback k t hway hge y g c hd

/-- If the walk's own states at the branches back meet the demands, the walk knows all it is asked
for. -/
theorem meets_before : Meets s way k (before s k).machine := by
  intro x g c hd
  induction hd with
  | here _ _ _ hc =>
    rw [hc]
    rfl
  | later hway htakes hd ih =>
    have hrecorded := recorded_of_demands haddress hfollows hback hway hd ih
    rw [← replay_before, htakes, Option.bind_assoc] at hrecorded
    exact hrecorded

/-- If the walk's own states at the branches back meet the demands, all states do. -/
theorem meets_of_back (hr : s.ResultIsVolatile) (hm : Replayed s way k m) : Meets s way k m := by
  refine meets_of_made hr (fun x g c hd => ?_) (fun {k t m y g c d} _ hway hd hconst => ?_) hm
  · rw [← before_zero]
    exact meets_before haddress hfollows hback x g c hd
  · have hrecorded := recorded_of_demands haddress hfollows hback hway hd
      (meets_before haddress hfollows hback y g c hd)
    rw [← replay_before, hconst] at hrecorded
    exact hrecorded

end

end

/-! ## The analysis -/

namespace Analysis

/-- The setting in which an analysis walks the body that it found. -/
def walked (e : Environment) (session : Session) (job : Job) : Setting :=
  setting e session.names job.method (run e session job).1.body

theorem resultIsVolatile {e : Environment}
    (hisa : e.backend.toInstructionSet = X64.isa ∨ e.backend.toInstructionSet = A64.isa)
    (session : Session) (job : Job) : (walked e session job).ResultIsVolatile := by
  unfold Setting.ResultIsVolatile walked setting
  rcases hisa with hisa | hisa
  · simp only [hisa]
    cases e.options.abi <;> decide
  · simp only [hisa]
    cases e.options.abi <;> decide

theorem emittable_walk {e : Environment} {session : Session} {job : Job}
    (h : (run e session job).1.state = .emittable) : Emittable (walked e session job) := by
  obtain ⟨hbody, hcode⟩ := (run_agrees e session job).emittable_iff.mp h
  obtain ⟨hlocals, hactions⟩ := run_eq_walk hbody
  rw [hlocals, hactions] at hcode
  exact hcode

end Analysis

/-- In an emittable body with increasing addresses, every state that arises along ways ahead is
faithful. The states that arise along all ways are faithful if and only if those brought back over a
branch meet the demands of the code they come to; for that it suffices that the walk's own states at
these branches do. -/
theorem replay_faithful_iff (e : Environment) (session : Session) (job : Job)
    (hisa : e.backend.toInstructionSet = X64.isa ∨ e.backend.toInstructionSet = A64.isa)
    (haddress : (Analysis.run e session job).1.body.Pairwise fun i j => i.address < j.address)
    (hemit : (Analysis.run e session job).1.state = .emittable) :
    let s := Analysis.walked e session job
    (∀ k m, Replayed s (ahead s) k m → Faithful s k m) ∧
      ((∀ k m, Replayed s (follows s) k m → Faithful s k m) ↔
        ∀ k t m, Replayed s (follows s) k m → follows s k t = true → t ≤ k →
          Meets s (follows s) t (replay s k m).machine) ∧
      ((∀ k t, follows s k t = true → t ≤ k → Meets s (follows s) t (recorded s k).machine) →
        ∀ k m, Replayed s (follows s) k m → Faithful s k m) := by
  intro s
  have hr : s.ResultIsVolatile := Analysis.resultIsVolatile hisa session job
  have hcode := Analysis.emittable_walk hemit
  refine ⟨fun k m hm => ?_, ⟨fun h k t m hm hway _ => ?_, fun haround k m hm => ?_⟩,
    fun hback k m hm => ?_⟩
  · refine faithful_of_meets hr hcode (meets_of_around haddress (fun k t h => ?_) ?_ hr hm)
    · exact (Bool.and_eq_true_iff.mp h).1
    · intro k t m _ hway hge
      have hlt := of_decide_eq_true (Bool.and_eq_true_iff.mp hway).2
      omega
  · exact meets_of_faithful hr hcode h (hm.step hway)
  · exact faithful_of_meets hr hcode
      (meets_of_around haddress (fun _ _ h => h) haround hr hm)
  · exact faithful_of_meets hr hcode (meets_of_back haddress (fun _ _ h => h) hback hr hm)

/-- A type with one field, the 32-bit integer `health` at offset 16. -/
def playerType : TypeDefinition := .topLevel { id := .listed 0, space := "Game", name := "Player" }

/-- `int Step(int b)` of a player: the result is zero, and becomes `b` in each round of a loop that
ends when `health` is zero. -/
def escapingRows : List ListingRow :=
  [⟨0x1000, 2, "xor", "eax, eax"⟩, ⟨0x1002, 4, "mov", "r8d, dword ptr [rcx + 0x10]"⟩,
   ⟨0x1006, 3, "test", "r8d, r8d"⟩, ⟨0x1009, 2, "je", "0x1016"⟩, ⟨0x100b, 2, "mov", "eax, edx"⟩,
   ⟨0x100d, 7, "mov", "dword ptr [rcx + 0x10], 0"⟩, ⟨0x1014, 2, "jmp", "0x1002"⟩,
   ⟨0x1016, 1, "ret", ""⟩]

def escapingEnvironment : Environment where
  backend := .x64 (.ofListing .x64 escapingRows)
  image := .raw .x64 0x1000 (Array.replicate 23 0x90)
  table :=
    ⟨[playerType],
      (∅ : FinMap TypeId (List Field)).insert playerType.id
        [⟨"health", .definition (TypeTable.supplied .int32), 16, false⟩]⟩
  options := { boundary := .recursive }

def escapingJob : Job where
  address := 0x1000
  method :=
    { token := 0, name := "Step", owner := playerType
      returnType := .definition (TypeTable.supplied .int32)
      parameters := [⟨"b", .definition (TypeTable.supplied .int32)⟩] }

def escaping : Setting := Analysis.walked escapingEnvironment {} escapingJob

/-- The body is emitted, but on leaving the loop after a round the result register holds `b`, and
not the zero that the walk wrote into the return. So over the branch back comes a state that does
not meet the demands of the code behind the loop. -/
theorem replay_faithful_iff_escaping :
    (Analysis.run escapingEnvironment {} escapingJob).1.state = .emittable ∧
      (¬∀ k m, Replayed escaping (follows escaping) k m → Faithful escaping k m) ∧
      ¬∀ k t m, Replayed escaping (follows escaping) k m → follows escaping k t = true → t ≤ k →
        Meets escaping (follows escaping) t (replay escaping k m).machine := by
  have hemit : (Analysis.run escapingEnvironment {} escapingJob).1.state = .emittable := by
    decide +kernel
  have hround : isPath (follows escaping) 0 [1, 2, 3, 4, 5, 6, 1, 2, 3, 7] = true := by
    decide +kernel
  have hshows : Shows escaping 7 := by
    unfold Shows
    decide +kernel
  have hreturn : ¬∀ k m, Replayed escaping (follows escaping) k m → Faithful escaping k m := by
    intro h
    exact absurd (h _ _ (Replayed.entry.along _ hround) hshows) (by decide +kernel)
  have hiff := (replay_faithful_iff escapingEnvironment {} escapingJob (.inl rfl)
    (by decide +kernel) hemit).2.1
  exact ⟨hemit, hreturn, mt hiff.mpr hreturn⟩

end MethodLift
