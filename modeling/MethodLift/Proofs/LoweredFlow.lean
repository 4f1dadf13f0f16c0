import MethodLift.Lowered.X64
import MethodLift.Proofs.Edges

/-!
# The control flow of lowered code

Building a graph and lowering it look at each instruction on their own, and lowering gives up on
some instructions that the graph takes for jumps. Where it does not give up the two agree: a node
that transfers control stands at the end of its block, and the last node of a block alone says which
edges leave it.

* `Lowers`: the nodes that an instruction of each kind may become; `lowers_lower` says that it
  becomes one of them.
* `Node.Determines`: the edges that a node stands for at the end of a block.
* `Block.Follows`: what a lowered block has in common with the block that it comes from.
-/

namespace MethodLift.Lowered

open MethodLift.Graph (LeadsTo)

/-! ## What a node says about control -/

/-- Nodes that transfer control to another place than the next node. -/
def Node.isControl (n : Node) : Bool :=
  match n.code with
  | .jump | .jumpIf _ | .ret | .interrupt => true
  | _ => false

/-- Control passes to the address `stop` and nowhere else. -/
def RunsOn (g : Graph) (stop : UInt64) (edges : List Edge) : Prop :=
  ∃ next, LeadsTo g (some stop) next ∧ edges = [⟨.fallThrough, next⟩]

/-- The edges that leave a block whose last node is `n`, where `stop` is the end of the block. An
opaque node says nothing about them. -/
def Node.Determines (helpers : HelperTable) (g : Graph) (stop : UInt64) (n : Node)
    (edges : List Edge) : Prop :=
  match n.code, n.values with
  | .ret, _ | .interrupt, _ => edges = []
  | .jump, [.target t] => ∃ target, LeadsTo g (some t) target ∧ edges = [⟨.unconditional, target⟩]
  | .jump, _ => edges = [⟨.unconditional, .unknown⟩]
  | .jumpIf _, [.target t] => ∃ target next, LeadsTo g (some t) target ∧
      LeadsTo g (some stop) next ∧ edges = [⟨.conditional, target⟩, ⟨.fallThrough, next⟩]
  | .jumpIf _, _ => False
  | .opaqueCode, _ => True
  | .call, [.target t] => if helpers.neverReturns t then edges = [] else RunsOn g stop edges
  | _, _ => RunsOn g stop edges

/-- `b` is block `id` of the graph in lowered form: one node an instruction, control nodes at the
end only, and the last of them in agreement with the edges. -/
structure Block.Follows (helpers : HelperTable) (g : Graph) (id : Nat) (source : MethodLift.Block)
    (b : Block) : Prop where
  id_eq : b.id = id
  start_eq : b.start = source.start
  successors_eq : b.successors = g.successors id
  addresses_eq : b.nodes.map Node.address = source.instructions.map Instruction.address
  control_last : ∀ n ∈ b.nodes.dropLast, n.isControl = false
  last_determines : ∃ n, b.nodes.getLast? = some n ∧
    n.Determines helpers g source.next b.successors

namespace X64

/-! ## The node of one instruction -/

/-- The codes that compute and leave control alone. -/
def isPlain : OpCode → Bool
  | .jump | .jumpIf _ | .call | .ret | .interrupt | .opaqueCode => false
  | _ => true

/-- The nodes that an instruction may become, by its kind. Only a direct jump, branch or call names
a target. -/
inductive Lowers (isa : InstructionSet) (i : Instruction) : Node → Prop
  | unknown : Lowers isa i (.opaqueNode i)
  | plain {code : OpCode} {values : List Value} : (isa.kind i).endsBlock = false →
      isa.kind i ≠ .call → isPlain code = true → Lowers isa i { address := i.address, code, values }
  | returns : isa.kind i = .ret →
      Lowers isa i { address := i.address, code := .ret, values := [] }
  | traps : isa.kind i = .trap →
      Lowers isa i { address := i.address, code := .interrupt, values := [] }
  | jumps {t : UInt64} : isa.kind i = .jump → i.target? = some t →
      Lowers isa i { address := i.address, code := .jump, values := [.target t] }
  | branches {t : UInt64} {c : Condition} : isa.kind i = .conditionalJump c →
      i.target? = some t →
      Lowers isa i { address := i.address, code := .jumpIf c, values := [.target t] }
  | calls {t : UInt64} : isa.kind i = .call → i.target? = some t →
      Lowers isa i { address := i.address, code := .call, values := [.target t] }
  | jumpsAnywhere {v : Value} : isa.kind i = .indirectJump → (∀ t, v ≠ .target t) →
      Lowers isa i { address := i.address, code := .jump, values := [v] }
  | callsAnywhere {v : Value} : isa.kind i = .indirectCall → (∀ t, v ≠ .target t) →
      Lowers isa i { address := i.address, code := .call, values := [v] }

/-- No operand becomes a code address. -/
theorem ne_target_of_mapM {operands : List Operand} {values : List Value}
    (h : operands.mapM (Value.ofOperand? stackPointer) = some values) :
    ∀ v ∈ values, ∀ t, v ≠ .target t := by
  induction operands generalizing values with
  | nil =>
    cases h
    simp
  | cons o operands ih =>
    simp only [List.mapM_cons, Option.bind_eq_bind, Option.bind_eq_some_iff, Option.pure_def,
      Option.some.injEq] at h
    obtain ⟨first, hfirst, rest, hrest, rfl⟩ := h
    intro v hv t
    rcases List.mem_cons.mp hv with rfl | hv
    · rintro rfl
      cases o with
      | register | immediate => cases hfirst
      | memory m =>
        simp only [Value.ofOperand?, Value.ofMemory, Option.some.injEq] at hfirst
        split at hfirst <;> cases hfirst
      | other => cases hfirst
    · exact ih hrest v hv t

section

variable {isa : InstructionSet} {helpers : HelperTable} {i : Instruction} {values : List Value}

theorem lowers_whenSize {code : OpCode} (size : Nat)
    (h : values.length = size → Lowers isa i { address := i.address, code, values }) :
    Lowers isa i (if values.length = size then { address := i.address, code, values }
      else .opaqueNode i) := by
  split
  · rename_i hsize
    exact h hsize
  · exact .unknown

theorem lowers_toTarget {code : OpCode}
    (h : ∀ t, i.target? = some t →
      Lowers isa i { address := i.address, code, values := [.target t] }) :
    Lowers isa i (match i.target? with
      | some t => { address := i.address, code, values := [.target t] }
      | none => .opaqueNode i) := by
  split
  · rename_i t ht
    exact h t ht
  · exact .unknown

/-- Each instruction becomes one of the nodes that its kind allows. -/
theorem lowers_lower (isa : InstructionSet) (i : Instruction) : Lowers isa i (lower isa i) := by
  unfold lower
  split
  · exact .unknown
  · rename_i values hvalues
    have hsingle : values.length = 1 → ∃ v, values = [v] ∧ ∀ t, v ≠ .target t := by
      intro hlength
      obtain ⟨v, rfl⟩ := List.length_eq_one_iff.mp hlength
      exact ⟨v, rfl, ne_target_of_mapM hvalues v (List.mem_singleton_self v)⟩
    cases hk : isa.kind i with
    | nop => exact .plain (by rw [hk]; rfl) (by simp [hk]) rfl
    | move | load | store | loadAddress | compare | test | push | pop =>
      exact lowers_whenSize _ fun _ => .plain (by rw [hk]; rfl) (by simp [hk]) rfl
    | arithmetic op =>
      have hplain : ∀ vs, Lowers isa i
          { address := i.address, code := .arithmetic op, values := vs } :=
        fun _ => .plain (by rw [hk]; rfl) (by simp [hk]) rfl
      simp only
      split
      · exact .plain (by rw [hk]; rfl) (by simp [hk]) rfl
      · exact hplain _
      · exact hplain _
      · split
        · exact hplain _
        · exact .unknown
      · exact .unknown
    | conditionalJump c =>
      cases c with
      | unmodeled => exact .unknown
      | _ => exact lowers_toTarget fun t ht => .branches hk ht
    | jump => exact lowers_toTarget fun t ht => .jumps hk ht
    | call => exact lowers_toTarget fun t ht => .calls hk ht
    | indirectJump =>
      refine lowers_whenSize 1 fun hlength => ?_
      obtain ⟨v, rfl, hv⟩ := hsingle hlength
      exact .jumpsAnywhere hk hv
    | indirectCall =>
      refine lowers_whenSize 1 fun hlength => ?_
      obtain ⟨v, rfl, hv⟩ := hsingle hlength
      exact .callsAnywhere hk hv
    | ret => exact .returns hk
    | trap => exact .traps hk
    | compareZeroAndBranch | invalid | unknown => exact .unknown

theorem Lowers.address {n : Node} (h : Lowers isa i n) : n.address = i.address := by
  cases h <;> rfl

/-- Only an instruction that ends a block becomes a control node. -/
theorem Lowers.endsBlock {n : Node} (h : Lowers isa i n) (hcontrol : n.isControl = true) :
    (isa.kind i).endsBlock = true := by
  cases h with
  | unknown => cases hcontrol
  | @plain code _ _ _ hplain =>
    cases code with
    | jump | jumpIf | ret | interrupt => cases hplain
    | _ => cases hcontrol
  | returns hk => rw [hk]; rfl
  | traps hk => rw [hk]; rfl
  | jumps hk => rw [hk]; rfl
  | branches hk => rw [hk]; rfl
  | calls hk => cases hcontrol
  | jumpsAnywhere hk => rw [hk]; rfl
  | callsAnywhere hk => cases hcontrol

theorem edgesFrom_of_runsOn {g : Graph} (hends : (isa.kind i).endsBlock = false)
    (hfinal : Graph.isFinalCall helpers (isa.kind i) i = false) :
    Graph.edgesFrom isa helpers g i = [⟨.fallThrough, g.resolve (some i.next)⟩] := by
  unfold Graph.edgesFrom
  cases hk : isa.kind i <;>
    simp_all [InstructionKind.endsBlock, InstructionKind.endsFlow, InstructionKind.isConditional]

/-- The node of an instruction stands for the edges that the instruction calls for. -/
theorem Lowers.determines {n : Node} {g : Graph} (h : Lowers isa i n)
    (hindexed : Graph.Indexed g) :
    n.Determines helpers g i.next (Graph.edgesFrom isa helpers g i) := by
  have hleads : ∀ target, LeadsTo g target (g.resolve target) := Graph.leadsTo_resolve hindexed
  have hruns : (isa.kind i).endsBlock = false →
      Graph.isFinalCall helpers (isa.kind i) i = false →
      RunsOn g i.next (Graph.edgesFrom isa helpers g i) :=
    fun hends hfinal => ⟨_, hleads _, edgesFrom_of_runsOn hends hfinal⟩
  cases h with
  | unknown => trivial
  | @plain code _ hends hcall hplain =>
    have hedges := hruns hends (by simp [Graph.isFinalCall, hcall])
    cases code with
    | jump | jumpIf | call | ret | interrupt | opaqueCode => cases hplain
    | _ => exact hedges
  | returns hk =>
    show Graph.edgesFrom isa helpers g i = []
    simp [Graph.edgesFrom, hk]
  | traps hk =>
    show Graph.edgesFrom isa helpers g i = []
    simp [Graph.edgesFrom, hk]
  | @jumps t hk ht =>
    refine ⟨g.resolve (some t), hleads _, ?_⟩
    simp [Graph.edgesFrom, Graph.isFinalCall, hk, ht]
  | @branches t c hk ht =>
    refine ⟨g.resolve (some t), g.resolve (some i.next), hleads _, hleads _, ?_⟩
    simp [Graph.edgesFrom, Graph.isFinalCall, InstructionKind.isConditional, hk, ht]
  | @calls t hk ht =>
    show if helpers.neverReturns t then _ else _
    split
    · rename_i hnever
      simp [Graph.edgesFrom, Graph.isFinalCall, hk, ht, hnever]
    · rename_i hreturns
      exact hruns (by rw [hk]; rfl) (by simp [Graph.isFinalCall, ht, hreturns])
  | @jumpsAnywhere v hk hv =>
    have hedges : Graph.edgesFrom isa helpers g i = [⟨.unconditional, .unknown⟩] := by
      simp [Graph.edgesFrom, Graph.isFinalCall, hk]
    cases v with
    | target t => exact absurd rfl (hv t)
    | _ => exact hedges
  | @callsAnywhere v hk hv =>
    have hedges := hruns (by rw [hk]; rfl) (by simp [Graph.isFinalCall, hk])
    cases v with
    | target t => exact absurd rfl (hv t)
    | _ => exact hedges

/-! ## The blocks of a lowered graph -/

/-- Before its last instruction a block has none that ends it. -/
theorem endsBlock_of_mem_dropLast {body : List Instruction} {b : MethodLift.Block}
    (haddress : body.Pairwise fun i j => i.address < j.address)
    (hb : b ∈ Graph.carve isa helpers body) (hi : i ∈ b.instructions.dropLast) :
    (isa.kind i).endsBlock = false := by
  have hchain := (Graph.straight_of_mem_carve haddress hb :)
  generalize b.instructions = run at hchain hi
  induction run with
  | nil => cases hi
  | cons first rest ih =>
    cases rest with
    | nil => cases hi
    | cons second rest =>
      obtain ⟨hpair, hrest⟩ := List.isChain_cons_cons.mp hchain
      rcases List.mem_cons.mp hi with rfl | hi
      · rw [← Bool.not_eq_true]
        exact fun hends => hpair (.inl hends)
      · exact ih hrest hi

/-- The lowered form of one block of a built graph follows it. -/
theorem follows_lower {body : List Instruction} {id : Nat} {source : MethodLift.Block}
    (haddress : body.Pairwise fun i j => i.address < j.address)
    (hsource : (Graph.carve isa helpers body)[id]? = some source) :
    let g := Graph.build isa helpers body
    Block.Follows helpers g id source
      { id, start := source.start, nodes := source.instructions.map (lower isa),
        successors := g.successors id } := by
  intro g
  have hmem := List.mem_of_getElem? hsource
  have hindexed : Graph.Indexed g := Graph.indexed_build (Graph.nodup_starts haddress)
  have hne : source.instructions ≠ [] := Graph.ne_nil_of_mem_cutBefore (Graph.mem_carve hmem).1
  have hlast := List.getLast?_eq_some_getLast hne
  refine ⟨rfl, rfl, rfl, ?_, ?_, ?_⟩
  · rw [List.map_map]
    exact List.map_congr_left fun i _ => (lowers_lower isa i).address
  · intro n hn
    rw [← List.map_dropLast, List.mem_map] at hn
    obtain ⟨i, hi, rfl⟩ := hn
    have hends := endsBlock_of_mem_dropLast haddress hmem hi
    rw [← Bool.not_eq_true]
    intro hcontrol
    rw [(lowers_lower isa i).endsBlock hcontrol] at hends
    cases hends
  · refine ⟨lower isa (source.instructions.getLast hne), by simp [List.getLast?_map, hlast], ?_⟩
    have hnext : source.next = (source.instructions.getLast hne).next := by
      simp [Block.next, hlast]
    rw [hnext]
    show Node.Determines helpers g _ _ (g.successors id)
    rw [Graph.successors_build hsource hlast]
    exact (lowers_lower isa _).determines hindexed

end

/-- The lowered form of a built graph has its blocks in their order. Each has the number, the start
and the edges of the block it comes from and a node for each instruction, control nodes stand at the
end only, and the last node determines the edges. -/
theorem lowerGraph_follows (isa : InstructionSet) (helpers : HelperTable)
    (body : List Instruction) (haddress : body.Pairwise fun i j => i.address < j.address) :
    let g := Graph.build isa helpers body
    (lowerGraph isa g).length = g.blocks.length ∧
      ∀ (id : Nat) (source : MethodLift.Block), g.blocks[id]? = some source →
        ∃ b : Block, (lowerGraph isa g)[id]? = some b ∧ b.Follows helpers g id source := by
  intro g
  refine ⟨by simp [lowerGraph], fun id source hsource => ?_⟩
  refine ⟨{ id, start := source.start, nodes := source.instructions.map (lower isa),
            successors := g.successors id }, ?_, ?_⟩
  · have hid : source.id = id :=
      (Graph.indexed_build (Graph.nodup_starts haddress)).id_eq _ _ hsource
    have hout : g.successors id = source.successors := by simp [Graph.successors, hsource]
    simp [lowerGraph, hsource, hid, hout]
  · obtain ⟨hnumber, hstart, hedges, hnodes, hcontrol, hlast⟩ :=
      follows_lower haddress (Graph.bare_of_build hsource)
    exact ⟨hnumber, hstart, hedges, hnodes, hcontrol, hlast⟩

theorem lowerGraph_follows_checking :
    (Graph.checkingBody.Pairwise fun i j => i.address < j.address) ∧
      (let g := Graph.build X64.isa Graph.checkingHelpers Graph.checkingBody
      (lowerGraph X64.isa g).map (fun b => b.nodes.map Node.code) =
        [[.test, .jumpIf .notEqual], [.call], [.move], [.ret]] ∧
      (lowerGraph X64.isa g).map Block.successors =
        [[⟨.conditional, .block 2⟩, ⟨.fallThrough, .block 1⟩], [],
          [⟨.fallThrough, .outside 0x100f⟩], []] ∧
      (lowerGraph X64.isa g).length = g.blocks.length ∧
        ∀ (id : Nat) (source : MethodLift.Block), g.blocks[id]? = some source →
          ∃ b : Block, (lowerGraph X64.isa g)[id]? = some b ∧
            b.Follows Graph.checkingHelpers g id source) := by
  have haddress : Graph.checkingBody.Pairwise fun i j => i.address < j.address := by
    decide +kernel
  exact ⟨haddress, by decide +kernel, by decide +kernel,
    lowerGraph_follows X64.isa Graph.checkingHelpers Graph.checkingBody haddress⟩

end X64

end MethodLift.Lowered
