import Mathlib.Data.List.Chain
import Mathlib.Data.List.Nodup
import MethodLift.Flow.Graph
import MethodLift.Isa.X64

/-!
# The blocks and edges of a graph

`Graph.build` finds the addresses at which blocks start, cuts the body there and adds the edges in a
second pass over the blocks. `Graph.FlowOf` says what comes out, without these passes: the blocks
are the body in order, two neighbours are in one block exactly when nothing `Separates` them, and
the edges of a block are those by which its last instruction `Leaves` it.

* `cutBefore`: the runs of a cut list, and the elements they begin with.
* `mem_leaders`: where a body with increasing addresses is cut.
* `SameBlocks`: adding edges changes nothing about the blocks but the edges.
* `Indexed`: the index of a graph has its blocks by their starts.
* `successors_foldl_wire`: the second pass gives each block the edges of its last instruction.
-/

namespace MethodLift

/-- The block without its edges. -/
def Block.bare (b : Block) : Block := { b with successors := [], predecessors := [] }

@[simp] theorem Block.start_bare (b : Block) : b.bare.start = b.start := rfl

@[simp] theorem Block.instructions_bare (b : Block) : b.bare.instructions = b.instructions := rfl

namespace Graph

/-! ## Cutting a list -/

section

variable {α : Type} {p : α → Bool} {xs run : List α}

theorem cutBefore_cons_ne_nil (p : α → Bool) (x : α) (xs : List α) :
    cutBefore p (x :: xs) ≠ [] := by
  rw [cutBefore]
  split
  · simp
  · split <;> simp

/-- The runs are the list again. -/
theorem flatten_cutBefore (p : α → Bool) (xs : List α) : (cutBefore p xs).flatten = xs := by
  induction xs with
  | nil => rfl
  | cons x xs ih =>
    rw [cutBefore]
    split
    · rename_i h
      rw [h] at ih
      simp [← ih]
    · rename_i run runs h
      rw [h] at ih
      split <;> simp [← ih]

theorem ne_nil_of_mem_cutBefore (h : run ∈ cutBefore p xs) : run ≠ [] := by
  induction xs generalizing run with
  | nil => simp [cutBefore] at h
  | cons x xs ih =>
    rw [cutBefore] at h
    split at h
    · simp_all
    · rename_i first runs hc
      rw [hc] at ih
      split at h
      · rcases List.mem_cons.mp h with rfl | h
        · simp
        · exact ih h
      · rcases List.mem_cons.mp h with rfl | h
        · simp
        · exact ih (List.mem_cons_of_mem _ h)

/-- Nothing inside a run calls for a cut. -/
theorem not_of_mem_tail (h : run ∈ cutBefore p xs) {y : α} (hy : y ∈ run.tail) : p y = false := by
  induction xs generalizing run with
  | nil => simp [cutBefore] at h
  | cons x xs ih =>
    rw [cutBefore] at h
    split at h
    · rw [List.mem_singleton.mp h] at hy
      simp at hy
    · rename_i first runs hc
      rw [hc] at ih
      split at h
      · rcases List.mem_cons.mp h with rfl | h
        · simp at hy
        · exact ih h hy
      · rename_i hfirst
        rcases List.mem_cons.mp h with rfl | h
        · -- The run grew at its front, so its old first element is inside it now.
          cases first with
          | nil => simp at hy
          | cons z zs =>
            rcases List.mem_cons.mp hy with rfl | hy
            · simpa using hfirst
            · exact ih (List.mem_cons_self ..) hy
        · exact ih (List.mem_cons_of_mem _ h) hy

/-- Besides the first element, a run begins with each element that calls for a cut and with no
other. -/
theorem heads_cutBefore (p : α → Bool) (x : α) (xs : List α) :
    (cutBefore p (x :: xs)).filterMap List.head? = x :: xs.filter p := by
  induction xs generalizing x with
  | nil => rfl
  | cons y ys ih =>
    have hy := ih y
    rw [cutBefore]
    split
    · rename_i h
      exact absurd h (cutBefore_cons_ne_nil p y ys)
    · rename_i run runs h
      rw [h] at hy
      have hne : run ≠ [] := ne_nil_of_mem_cutBefore (h ▸ List.mem_cons_self ..)
      obtain ⟨z, zs, rfl⟩ := List.exists_cons_of_ne_nil hne
      simp only [List.filterMap_cons, List.head?_cons, List.cons.injEq] at hy
      obtain ⟨rfl, hruns⟩ := hy
      by_cases hz : p z = true <;> simp [hz, hruns]

end

/-! ## Where a body is cut -/

/-- A direct branch of the body goes to the address. -/
def BranchedTo (isa : InstructionSet) (body : List Instruction) (address : UInt64) : Prop :=
  ∃ i ∈ body, (isa.kind i).isDirectBranch = true ∧ i.target? = some address

/-- Why two neighbours of a body are in different blocks: the first ends a block or never comes
back, the second does not begin where the first ends, or a branch goes to the second. -/
def Separates (isa : InstructionSet) (helpers : HelperTable) (body : List Instruction)
    (i j : Instruction) : Prop :=
  (isa.kind i).endsBlock = true ∨ isFinalCall helpers (isa.kind i) i = true ∨ j.address ≠ i.next ∨
    BranchedTo isa body j.address

section

variable {isa : InstructionSet} {helpers : HelperTable} {body : List Instruction}

theorem mem_branchTargets {t : UInt64} : t ∈ branchTargets isa body ↔
    BranchedTo isa body t ∧ ∃ j ∈ body, j.address = t := by
  simp only [branchTargets, List.mem_filterMap, List.mem_filter, Option.filter_eq_some_iff,
    List.any_eq_true, beq_iff_eq, BranchedTo]
  constructor
  · rintro ⟨i, ⟨hi, hd⟩, ht, hj⟩
    exact ⟨⟨i, hi, hd, ht⟩, hj⟩
  · rintro ⟨⟨i, hi, hd, ht⟩, hj⟩
    exact ⟨i, ⟨hi, hd⟩, ht, hj⟩

theorem mem_of_leadersAfter {i : Instruction} {rest : List Instruction} {t : UInt64}
    (h : t ∈ leadersAfter isa helpers (i :: rest)) : ∃ j ∈ rest, j.address = t := by
  induction rest generalizing i with
  | nil => simp [leadersAfter] at h
  | cons j rest ih =>
    rw [leadersAfter] at h
    rcases List.mem_append.mp h with h | h
    · split at h
      · exact ⟨j, List.mem_cons_self .., (List.mem_singleton.mp h).symm⟩
      · simp at h
    · obtain ⟨k, hk, ht⟩ := ih h
      exact ⟨k, List.mem_cons_of_mem j hk, ht⟩

/-- Of two neighbours, the second starts a block because of the first in three cases. -/
theorem isChain_leadersAfter (isa : InstructionSet) (helpers : HelperTable)
    (h : body.Pairwise fun i j => i.address < j.address) :
    body.IsChain fun i j => j.address ∈ leadersAfter isa helpers body ↔
      (isa.kind i).endsBlock = true ∨ isFinalCall helpers (isa.kind i) i = true ∨
        j.address ≠ i.next := by
  induction body with
  | nil => exact .nil
  | cons i body ih =>
    cases body with
    | nil => exact .singleton i
    | cons j rest =>
      have hrest := List.pairwise_cons.mp (List.pairwise_cons.mp h).2
      have hbehind : j.address ∉ leadersAfter isa helpers (j :: rest) := by
        intro hmem
        obtain ⟨k, hk, hkj⟩ := mem_of_leadersAfter hmem
        exact UInt64.ne_of_lt (hrest.1 k hk) hkj.symm
      refine List.IsChain.cons_cons ?_ ?_
      · rw [leadersAfter]
        simp only [List.mem_append, hbehind, or_false]
        split
        · rename_i hcut
          simpa [or_assoc] using hcut
        · rename_i hcut
          simpa [or_assoc] using hcut
      · refine (ih (List.pairwise_cons.mp h).2).imp_of_mem_tail_imp fun x y _ hy hxy => ?_
        have hne : y.address ≠ j.address := (UInt64.ne_of_lt (hrest.1 y hy)).symm
        rw [leadersAfter, ← hxy]
        simp only [List.mem_append]
        split <;> simp [hne]

/-- Behind the first instruction a block starts exactly where neighbours are separated. -/
theorem mem_leaders (isa : InstructionSet) (helpers : HelperTable)
    (h : body.Pairwise fun i j => i.address < j.address) :
    body.IsChain fun i j =>
      j.address ∈ leaders isa helpers body ↔ Separates isa helpers body i j := by
  refine (isChain_leadersAfter isa helpers h).imp_of_mem_tail_imp fun i j _ hj hij => ?_
  cases body with
  | nil => simp at hj
  | cons first rest =>
    have hfirst : j.address ≠ first.address :=
      (UInt64.ne_of_lt ((List.pairwise_cons.mp h).1 j hj)).symm
    have hbranch : j.address ∈ branchTargets isa (first :: rest) ↔
        BranchedTo isa (first :: rest) j.address := by
      rw [mem_branchTargets]
      exact ⟨fun hb => hb.1, fun hb => ⟨hb, j, List.mem_cons_of_mem first hj, rfl⟩⟩
    simp only [leaders, List.mem_append, hij, hbranch, Separates, List.head?_cons, Option.map_some,
      Option.toList_some, List.mem_singleton, hfirst, false_or, or_assoc]

end

/-! ## Blocks -/

section

variable {isa : InstructionSet} {helpers : HelperTable} {body : List Instruction}

/-- The instruction starts a block. -/
def isLeader (isa : InstructionSet) (helpers : HelperTable) (body : List Instruction)
    (i : Instruction) : Bool := (leaders isa helpers body).contains i.address

/-- The block of a run at a position. -/
def blockOf (run : List Instruction × Nat) : Block where
  id := run.2
  start := (run.1.head?.map Instruction.address).getD 0
  instructions := run.1

/-- Each run of the cut body is a block. -/
theorem carve_eq (isa : InstructionSet) (helpers : HelperTable) (body : List Instruction) :
    carve isa helpers body =
      (cutBefore (isLeader isa helpers body) body).zipIdx.map blockOf := by
  have hsome : ∀ run ∈ (cutBefore (isLeader isa helpers body) body).zipIdx,
      (run.1.head?.map fun i => ({ id := run.2, start := i.address, instructions := run.1 } :
        Block)) = some (blockOf run) := by
    intro run hrun
    have hne : run.1 ≠ [] := ne_nil_of_mem_cutBefore (List.fst_mem_of_mem_zipIdx hrun)
    obtain ⟨i, is, hi⟩ := List.exists_cons_of_ne_nil hne
    simp [blockOf, hi]
  exact (List.filterMap_congr hsome).trans (congrFun List.filterMap_eq_map' _)

theorem map_instructions_carve :
    (carve isa helpers body).map Block.instructions =
      cutBefore (isLeader isa helpers body) body := by
  rw [carve_eq, List.map_map]
  exact List.zipIdx_map_fst ..

theorem mem_carve {b : Block} (h : b ∈ carve isa helpers body) :
    b.instructions ∈ cutBefore (isLeader isa helpers body) body ∧
      ∃ i, b.instructions.head? = some i ∧ i.address = b.start := by
  rw [carve_eq] at h
  obtain ⟨run, hrun, rfl⟩ := List.mem_map.mp h
  have hmem := List.fst_mem_of_mem_zipIdx hrun
  obtain ⟨i, is, hi⟩ := List.exists_cons_of_ne_nil (ne_nil_of_mem_cutBefore hmem)
  exact ⟨hmem, i, by simp [blockOf, hi], by simp [blockOf, hi]⟩

/-- Blocks are numbered by their positions. -/
theorem id_of_carve {id : Nat} {b : Block} (h : (carve isa helpers body)[id]? = some b) :
    b.id = id := by
  rw [carve_eq, List.getElem?_map, List.getElem?_zipIdx, Option.map_map] at h
  obtain ⟨run, -, rfl⟩ := Option.map_eq_some_iff.mp h
  exact Nat.zero_add id

/-- Carved blocks have no edges yet. -/
theorem map_bare_carve (isa : InstructionSet) (helpers : HelperTable) (body : List Instruction) :
    (carve isa helpers body).map Block.bare = carve isa helpers body := by
  rw [carve_eq, List.map_map]
  rfl

theorem flatMap_instructions_carve (isa : InstructionSet) (helpers : HelperTable)
    (body : List Instruction) :
    (carve isa helpers body).flatMap Block.instructions = body := by
  rw [List.flatMap_def, map_instructions_carve, flatten_cutBefore]

/-- Blocks start at the leaders of the body. -/
theorem map_start_carve (isa : InstructionSet) (helpers : HelperTable) (body : List Instruction) :
    (carve isa helpers body).map Block.start =
      (body.filter (isLeader isa helpers body)).map Instruction.address := by
  have hheads : (carve isa helpers body).map Block.start =
      ((cutBefore (isLeader isa helpers body) body).filterMap List.head?).map
        Instruction.address := by
    rw [List.map_filterMap, ← map_instructions_carve, List.filterMap_map, ← List.filterMap_eq_map]
    refine List.filterMap_congr fun b hb => ?_
    obtain ⟨i, hi, hstart⟩ := (mem_carve hb).2
    simp [hi, hstart]
  rw [hheads]
  cases body with
  | nil => rfl
  | cons first rest =>
    have hfirst : isLeader isa helpers (first :: rest) first = true := by
      simp [isLeader, leaders]
    rw [heads_cutBefore, List.filter_cons_of_pos hfirst]

theorem exists_start_iff {j : Instruction} (hj : j ∈ body) :
    (∃ b ∈ carve isa helpers body, b.start = j.address) ↔ j.address ∈ leaders isa helpers body := by
  have hstart := congrArg (fun l => j.address ∈ l) (map_start_carve isa helpers body)
  simp only [List.mem_map, List.mem_filter, isLeader, List.contains_iff_mem, eq_iff_iff] at hstart
  rw [hstart]
  constructor
  · rintro ⟨i, ⟨-, hi⟩, ha⟩
    exact ha ▸ hi
  · exact fun h => ⟨j, ⟨hj, h⟩, rfl⟩

theorem nodup_starts (h : body.Pairwise fun i j => i.address < j.address) :
    ((carve isa helpers body).map Block.start).Nodup := by
  rw [map_start_carve]
  have hfilter := h.sublist (List.filter_sublist (p := isLeader isa helpers body))
  exact List.pairwise_map.mpr (hfilter.imp fun hlt => UInt64.ne_of_lt hlt)

end

/-! ## Adding edges -/

/-- `acc` has the blocks of `g`, but for their edges, and its index. -/
structure SameBlocks (g acc : Graph) : Prop where
  bare_eq : acc.blocks.map Block.bare = g.blocks.map Block.bare
  byStart_eq : acc.byStart = g.byStart

section

variable {g acc : Graph} {source target id : Nat} {edge e : Edge}

namespace SameBlocks

theorem refl (g : Graph) : SameBlocks g g := ⟨rfl, rfl⟩

theorem trans {h : Graph} (hg : SameBlocks g acc) (hacc : SameBlocks acc h) : SameBlocks g h :=
  ⟨hacc.bare_eq.trans hg.bare_eq, hacc.byStart_eq.trans hg.byStart_eq⟩

theorem symm (h : SameBlocks g acc) : SameBlocks acc g := ⟨h.bare_eq.symm, h.byStart_eq.symm⟩

theorem length_eq (h : SameBlocks g acc) : acc.blocks.length = g.blocks.length := by
  simpa using congrArg List.length h.bare_eq

/-- A block at a position has its like there in the other graph. -/
theorem exists_block (h : SameBlocks g acc) {b : Block} (hb : acc.blocks[id]? = some b) :
    ∃ c, g.blocks[id]? = some c ∧ c.bare = b.bare := by
  have hbare := congrArg (fun bs => bs[id]?) h.bare_eq
  simp only [List.getElem?_map, hb, Option.map_some] at hbare
  exact Option.map_eq_some_iff.mp hbare.symm

theorem edit {f : Block → Block} (h : SameBlocks g acc) (hf : ∀ b, (f b).bare = b.bare)
    (id : Nat) : SameBlocks g (acc.edit id f) := by
  refine ⟨?_, h.byStart_eq⟩
  rw [← h.bare_eq]
  refine List.ext_getElem? fun k => ?_
  rw [Graph.edit, List.getElem?_map, List.getElem?_map, List.getElem?_modify]
  cases acc.blocks[k]? with
  | none => rfl
  | some b =>
    by_cases hk : id = k
    · simp [hk, hf]
    · simp [hk]

theorem addEdge (h : SameBlocks g acc) (source : Nat) (edge : Edge) :
    SameBlocks g (acc.addEdge source edge) := by
  unfold Graph.addEdge
  split
  · exact h
  · have hout := h.edit (f := fun b => { b with successors := b.successors ++ [edge] })
      (fun _ => rfl) source
    simp only
    split
    · rename_i target _
      unfold notePredecessor
      split
      · exact hout
      · exact hout.edit (f := fun b => { b with predecessors := b.predecessors ++ [source] })
          (fun _ => rfl) target
    · exact hout
    · exact hout

end SameBlocks

theorem successors_edit_of_eq {f : Block → Block} (hf : ∀ b, (f b).successors = b.successors)
    (target : Nat) : (g.edit target f).successors id = g.successors id := by
  simp only [successors, edit, List.getElem?_modify]
  cases g.blocks[id]? with
  | none => rfl
  | some b => by_cases hid : target = id <;> simp [hid, hf]

theorem predecessors_edit_of_eq {f : Block → Block} (hf : ∀ b, (f b).predecessors = b.predecessors)
    (source : Nat) : (g.edit source f).predecessors id = g.predecessors id := by
  simp only [predecessors, edit, List.getElem?_modify]
  cases g.blocks[id]? with
  | none => rfl
  | some b => by_cases hid : source = id <;> simp [hid, hf]

theorem length_edit (f : Block → Block) : (g.edit id f).blocks.length = g.blocks.length := by
  simp [edit]

theorem successors_notePredecessor :
    (g.notePredecessor source target).successors id = g.successors id := by
  unfold notePredecessor
  split
  · rfl
  · exact successors_edit_of_eq (by intro _; rfl) target

theorem predecessors_notePredecessor (htarget : target < g.blocks.length) :
    (g.notePredecessor source target).predecessors id =
      if id = target ∧ source ∉ g.predecessors id then g.predecessors id ++ [source]
      else g.predecessors id := by
  unfold notePredecessor
  by_cases hid : id = target
  · subst hid
    split
    · rename_i hmem
      simp [List.contains_iff_mem.mp hmem]
    · rename_i hnew
      rw [List.contains_iff_mem] at hnew
      rw [if_pos ⟨rfl, hnew⟩]
      simp [predecessors, edit, htarget]
  · have hid' : target ≠ id := fun h => hid h.symm
    split
    · simp [hid]
    · simp [hid, hid', predecessors, edit]

/-- A new edge comes last among those of its block, and no other block gets it. -/
theorem successors_addEdge (hsource : source < g.blocks.length) :
    (g.addEdge source edge).successors id =
      if id = source ∧ edge ∉ g.successors id then g.successors id ++ [edge]
      else g.successors id := by
  have hout : (g.edit source fun b => { b with successors := b.successors ++ [edge] }).successors id
      = if id = source then g.successors id ++ [edge] else g.successors id := by
    by_cases hid : id = source
    · subst hid
      simp [successors, edit, hsource]
    · have hid' : source ≠ id := fun h => hid h.symm
      simp [hid, hid', successors, edit]
  unfold addEdge
  split
  · rename_i hmem
    have hid : ¬(id = source ∧ edge ∉ g.successors id) := by
      rintro ⟨rfl, hnew⟩
      exact hnew (List.contains_iff_mem.mp hmem)
    rw [if_neg hid]
  · rename_i hnew
    rw [List.contains_iff_mem] at hnew
    have hif : (id = source ∧ edge ∉ g.successors id) ↔ id = source :=
      ⟨fun h => h.1, fun h => ⟨h, h ▸ hnew⟩⟩
    simp only [hif]
    split
    · rw [successors_notePredecessor, hout]
    · exact hout
    · exact hout

/-- A new edge makes its block a predecessor of the one that it leads to, if it was none before. -/
theorem predecessors_addEdge (htarget : ∀ j, edge.target = .block j → j < g.blocks.length) :
    (g.addEdge source edge).predecessors id =
      if edge ∉ g.successors source ∧ edge.target = .block id ∧ source ∉ g.predecessors id then
        g.predecessors id ++ [source]
      else g.predecessors id := by
  have hout : (g.edit source fun b =>
      { b with successors := b.successors ++ [edge] }).predecessors id = g.predecessors id :=
    predecessors_edit_of_eq (by intro _; rfl) source
  unfold addEdge
  split
  · rename_i hmem
    simp [List.contains_iff_mem.mp hmem]
  · rename_i hnew
    rw [List.contains_iff_mem] at hnew
    simp only
    split
    · rename_i target ht
      rw [predecessors_notePredecessor (by rw [length_edit]; exact htarget target ht), hout, ht]
      simp only [hnew, not_false_eq_true, Successor.block.injEq, true_and, eq_comm (a := id)]
    · rename_i ht
      simp [ht, hout]
    · rename_i ht
      simp [ht, hout]

/-- Add edges from one block. -/
def addEdges (source : Nat) (es : List Edge) (g : Graph) : Graph :=
  es.foldl (fun acc e => acc.addEdge source e) g

theorem SameBlocks.addEdges (h : SameBlocks g acc) (source : Nat) (es : List Edge) :
    SameBlocks g (acc.addEdges source es) :=
  List.foldlRecOn es _ h fun _ hacc e _ => hacc.addEdge source e

theorem successors_addEdges_of_ne (hsource : source < g.blocks.length) (hid : id ≠ source)
    (es : List Edge) : (g.addEdges source es).successors id = g.successors id := by
  have hrun : SameBlocks g (g.addEdges source es) ∧
      (g.addEdges source es).successors id = g.successors id := by
    refine List.foldlRecOn
      (motive := fun acc => SameBlocks g acc ∧ acc.successors id = g.successors id) es _
      ⟨.refl g, rfl⟩ ?_
    rintro acc ⟨hsame, hacc⟩ e _
    refine ⟨hsame.addEdge source e, ?_⟩
    rw [successors_addEdge (by rwa [hsame.length_eq])]
    simp [hid, hacc]
  exact hrun.2

/-- New edges that differ are added as they come. -/
theorem successors_addEdges_self (hsource : source < g.blocks.length) {es : List Edge}
    (hes : es.Nodup) (h : ∀ e ∈ es, e ∉ g.successors source) :
    (g.addEdges source es).successors source = g.successors source ++ es := by
  induction es generalizing g with
  | nil => simp [addEdges]
  | cons e es ih =>
    have hfirst : (g.addEdge source e).successors source = g.successors source ++ [e] := by
      rw [successors_addEdge hsource, if_pos ⟨rfl, h e (List.mem_cons_self ..)⟩]
    obtain ⟨he, hrest⟩ := List.nodup_cons.mp hes
    have hnew : ∀ f ∈ es, f ∉ (g.addEdge source e).successors source := by
      intro f hf hmem
      rw [hfirst, List.mem_append, List.mem_singleton] at hmem
      rcases hmem with hmem | rfl
      · exact h f (List.mem_cons_of_mem e hf) hmem
      · exact he hf
    have hlen := ((SameBlocks.refl g).addEdge source e).length_eq
    have hadd := ih (by rwa [hlen]) hrest hnew
    rw [hfirst, List.append_assoc] at hadd
    exact hadd

end

section

variable {isa : InstructionSet} {helpers : HelperTable} {g acc : Graph}

/-- No instruction calls for an edge twice. -/
theorem nodup_edgesFrom (last : Instruction) : (edgesFrom isa helpers g last).Nodup := by
  unfold edgesFrom
  simp only
  split
  · simp
  · split
    · simp
    · split
      · simp
      · split <;> simp

/-- Where targets lead does not depend on the edges. -/
theorem SameBlocks.edgesFrom_eq (h : SameBlocks g acc) (last : Instruction) :
    edgesFrom isa helpers acc last = edgesFrom isa helpers g last := by
  have hresolve : acc.resolve = g.resolve := by
    funext target
    simp only [resolve, h.byStart_eq]
  simp only [edgesFrom, hresolve]

theorem SameBlocks.wire (h : SameBlocks g acc) (b : Block × Nat) :
    SameBlocks g (acc.wire isa helpers b) := by
  unfold Graph.wire
  split
  · exact h
  · exact h.addEdges b.2 _

theorem successors_wire_of_ne {b : Block × Nat} {id : Nat} (hb : b.2 < acc.blocks.length)
    (h : id ≠ b.2) : (acc.wire isa helpers b).successors id = acc.successors id := by
  unfold wire
  split
  · rfl
  · exact successors_addEdges_of_ne hb h _

theorem successors_wire_self {b : Block × Nat} {last : Instruction} (hb : b.2 < acc.blocks.length)
    (hl : b.1.instructions.getLast? = some last) (h : acc.successors b.2 = []) :
    (acc.wire isa helpers b).successors b.2 = edgesFrom isa helpers acc last := by
  have hwire : acc.wire isa helpers b = acc.addEdges b.2 (edgesFrom isa helpers acc last) := by
    simp only [wire, hl]
    rfl
  rw [hwire, successors_addEdges_self hb (nodup_edgesFrom last) (by simp [h]), h, List.nil_append]

/-- Blocks further on leave the edges of earlier ones alone. -/
theorem successors_foldl_wire_of_lt (bs : List Block) {n id : Nat} (h : id < n)
    (hlen : n + bs.length ≤ acc.blocks.length) :
    ((bs.zipIdx n).foldl (wire isa helpers) acc).successors id = acc.successors id := by
  induction bs generalizing n acc with
  | nil => rfl
  | cons b bs ih =>
    rw [List.length_cons] at hlen
    have hsame : (acc.wire isa helpers (b, n)).blocks.length = acc.blocks.length :=
      ((SameBlocks.refl acc).wire (b, n)).length_eq
    rw [List.zipIdx_cons, List.foldl_cons, ih (by omega) (by omega),
      successors_wire_of_ne (by simp only; omega) (by simp only; omega)]

/-- Each block gets the edges of its last instruction, and no others. -/
theorem successors_foldl_wire {bs : List Block} {n id : Nat} {b : Block} {last : Instruction}
    (hsame : SameBlocks g acc) (hlen : n + bs.length ≤ acc.blocks.length)
    (hacc : ∀ id, n ≤ id → acc.successors id = []) (hb : bs[id]? = some b)
    (hl : b.instructions.getLast? = some last) :
    ((bs.zipIdx n).foldl (wire isa helpers) acc).successors (n + id) =
      edgesFrom isa helpers g last := by
  induction bs generalizing n id acc with
  | nil => simp at hb
  | cons c bs ih =>
    rw [List.length_cons] at hlen
    have hlength : (acc.wire isa helpers (c, n)).blocks.length = acc.blocks.length :=
      ((SameBlocks.refl acc).wire (c, n)).length_eq
    rw [List.zipIdx_cons, List.foldl_cons]
    cases id with
    | zero =>
      cases hb
      rw [Nat.add_zero, successors_foldl_wire_of_lt _ (by omega) (by omega), ← hsame.edgesFrom_eq]
      exact successors_wire_self (b := (b, n)) (by simp only; omega) hl (hacc n (Nat.le_refl n))
    | succ id =>
      rw [show n + (id + 1) = n + 1 + id by omega]
      refine ih (hsame.wire _) (by omega) (fun k hk => ?_) (by simpa using hb)
      rw [successors_wire_of_ne (by simp only; omega) (by simp only; omega)]
      exact hacc k (by omega)

/-- A built graph has the blocks that were carved, but for their edges, and their index. -/
theorem sameBlocks_build (isa : InstructionSet) (helpers : HelperTable) (body : List Instruction) :
    SameBlocks (ofBlocks (carve isa helpers body)) (build isa helpers body) :=
  List.foldlRecOn _ _ (.refl _) fun _ hacc b _ => hacc.wire b

theorem bare_blocks_build (isa : InstructionSet) (helpers : HelperTable)
    (body : List Instruction) :
    (build isa helpers body).blocks.map Block.bare = carve isa helpers body :=
  (sameBlocks_build isa helpers body).bare_eq.trans (map_bare_carve isa helpers body)

end

section

variable {isa : InstructionSet} {helpers : HelperTable} {body : List Instruction}

theorem bare_of_build {id : Nat} {b : Block} (h : (build isa helpers body).blocks[id]? = some b) :
    (carve isa helpers body)[id]? = some b.bare := by
  rw [← bare_blocks_build, List.getElem?_map, h, Option.map_some]

theorem bare_mem_carve {b : Block} (h : b ∈ (build isa helpers body).blocks) :
    b.bare ∈ carve isa helpers body := by
  rw [← bare_blocks_build]
  exact List.mem_map_of_mem h

/-- A block starts at an address in the graph exactly if it was carved there. -/
theorem exists_start_build_iff {t : UInt64} :
    (∃ b ∈ (build isa helpers body).blocks, b.start = t) ↔
      ∃ b ∈ carve isa helpers body, b.start = t := by
  rw [← bare_blocks_build]
  simp

theorem successors_carve (isa : InstructionSet) (helpers : HelperTable) (body : List Instruction)
    (id : Nat) : (ofBlocks (carve isa helpers body)).successors id = [] := by
  simp only [successors, ofBlocks]
  rw [← map_bare_carve isa helpers body, List.getElem?_map, Option.map_map]
  cases (carve isa helpers body)[id]? <;> rfl

/-- A block has the edges that its last instruction calls for, in that order. -/
theorem successors_build {id : Nat} {b : Block} {last : Instruction}
    (hb : (carve isa helpers body)[id]? = some b) (hl : b.instructions.getLast? = some last) :
    (build isa helpers body).successors id =
      edgesFrom isa helpers (build isa helpers body) last := by
  rw [(sameBlocks_build isa helpers body).edgesFrom_eq, ← Nat.zero_add id]
  exact successors_foldl_wire (.refl _) (by simp [ofBlocks])
    (fun id _ => successors_carve isa helpers body id) hb hl

end

/-! ## The index -/

/-- Blocks stand at the positions that are their ids, and the index has each under its start and
nothing else. -/
structure Indexed (g : Graph) : Prop where
  id_eq : ∀ (k : Nat) (b : Block), g.blocks[k]? = some b → b.id = k
  byStart_iff : ∀ (t : UInt64) (k : Nat),
    g.byStart.get? t = some k ↔ ∃ b, g.blocks[k]? = some b ∧ b.start = t

section

variable {g acc : Graph}

theorem get?_foldl_index (bs : List Block) (index : FinMap UInt64 Nat) (t : UInt64) :
    (bs.foldl (fun index b => index.insert b.start b.id) index).get? t =
      ((bs.reverse.find? fun b => b.start == t).map Block.id).or (index.get? t) := by
  induction bs generalizing index with
  | nil => rfl
  | cons b bs ih =>
    rw [List.foldl_cons, ih, FinMap.get?_insert, List.reverse_cons, List.find?_append]
    cases bs.reverse.find? fun b => b.start == t with
    | some c => rfl
    | none =>
      by_cases hb : b.start = t
      · simp [hb]
      · have ht : t ≠ b.start := fun h => hb h.symm
        simp [hb, ht]

/-- No block is under an address in the index exactly if none starts there. -/
theorem byStart_eq_none_iff (bs : List Block) (t : UInt64) :
    (ofBlocks bs).byStart.get? t = none ↔ ∀ b ∈ bs, b.start ≠ t := by
  rw [ofBlocks, get?_foldl_index]
  simp [FinMap.empty, EmptyCollection.emptyCollection, FinMap.get?]

/-- Numbered blocks that start apart are indexed. -/
theorem indexed_ofBlocks {bs : List Block}
    (hid : ∀ (k : Nat) (b : Block), bs[k]? = some b → b.id = k)
    (hstarts : (bs.map Block.start).Nodup) : Indexed (ofBlocks bs) := by
  refine ⟨hid, fun t k => ?_⟩
  have hget : (ofBlocks bs).byStart.get? t =
      (bs.reverse.find? fun b => b.start == t).map Block.id := by
    rw [ofBlocks, get?_foldl_index]
    exact Option.or_none
  rw [hget, Option.map_eq_some_iff]
  constructor
  · rintro ⟨b, hfind, rfl⟩
    obtain ⟨k, hk⟩ := List.mem_iff_getElem?.mp
      (List.mem_reverse.mp (List.mem_of_find?_eq_some hfind))
    exact ⟨b, by rwa [hid k b hk], by simpa using List.find?_some hfind⟩
  · rintro ⟨b, hb, rfl⟩
    have hmem : b ∈ bs.reverse := List.mem_reverse.mpr (List.mem_of_getElem? hb)
    obtain ⟨c, hfind⟩ := Option.isSome_iff_exists.mp
      (List.find?_isSome.mpr ⟨b, hmem, by simp⟩ :
        (bs.reverse.find? fun d => d.start == b.start).isSome = true)
    -- Starts differ, so the block that is found is the one asked for.
    have hstart : c.start = b.start := by simpa using List.find?_some hfind
    have hc := List.mem_reverse.mp (List.mem_of_find?_eq_some hfind)
    obtain rfl := List.inj_on_of_nodup_map hstarts hc (List.mem_of_getElem? hb) hstart
    exact ⟨c, hfind, hid k c hb⟩

theorem SameBlocks.indexed (h : SameBlocks g acc) (hg : Indexed g) : Indexed acc := by
  refine ⟨fun k b hb => ?_, fun t k => ?_⟩
  · obtain ⟨c, hc, hbare⟩ := h.exists_block hb
    exact (congrArg Block.id hbare).symm.trans (hg.id_eq k c hc)
  · rw [h.byStart_eq, hg.byStart_iff]
    constructor
    · rintro ⟨b, hb, rfl⟩
      obtain ⟨c, hc, hbare⟩ := h.symm.exists_block hb
      exact ⟨c, hc, (congrArg Block.start hbare :)⟩
    · rintro ⟨b, hb, rfl⟩
      obtain ⟨c, hc, hbare⟩ := h.exists_block hb
      exact ⟨c, hc, (congrArg Block.start hbare :)⟩

theorem Indexed.blockAt?_iff (h : Indexed g) {t : UInt64} {id : Nat} :
    g.blockAt? t = some id ↔ ∃ b, g.blocks[id]? = some b ∧ b.start = t := by
  simp only [blockAt?, Option.bind_eq_bind, Option.bind_eq_some_iff, Option.pure_def,
    Option.some.injEq]
  constructor
  · rintro ⟨k, hk, b, hb, rfl⟩
    obtain ⟨c, hc, ht⟩ := (h.byStart_iff t k).mp hk
    rw [hb] at hc
    cases hc
    exact ⟨b, (h.id_eq k b hb).symm ▸ hb, ht⟩
  · rintro ⟨b, hb, ht⟩
    exact ⟨id, (h.byStart_iff t id).mpr ⟨b, hb, ht⟩, b, hb, h.id_eq id b hb⟩

end

theorem indexed_build {isa : InstructionSet} {helpers : HelperTable} {body : List Instruction}
    (hstarts : ((carve isa helpers body).map Block.start).Nodup) :
    Indexed (build isa helpers body) :=
  (sameBlocks_build isa helpers body).indexed
    (indexed_ofBlocks (fun _ _ => id_of_carve) hstarts)

/-! ## What a graph says -/

/-- Where a target leads: to the block that starts there, out of the body if no block does, and
nowhere known if there is no target. -/
inductive LeadsTo (g : Graph) : Option UInt64 → Successor → Prop
  | block {t : UInt64} {id : Nat} {b : Block} : g.blocks[id]? = some b → b.start = t →
      LeadsTo g (some t) (.block id)
  | outside {t : UInt64} : (∀ b ∈ g.blocks, b.start ≠ t) → LeadsTo g (some t) (.outside t)
  | unknown : LeadsTo g none .unknown

/-- The edges by which control leaves a block that ends with the instruction `last`. -/
inductive Leaves (isa : InstructionSet) (helpers : HelperTable) (g : Graph) (last : Instruction) :
    List Edge → Prop
  | ends : isa.kind last = .ret ∨ isa.kind last = .trap ∨
      isFinalCall helpers (isa.kind last) last = true → Leaves isa helpers g last []
  | jumps {target : Successor} : isa.kind last = .jump → LeadsTo g last.target? target →
      Leaves isa helpers g last [⟨.unconditional, target⟩]
  | jumpsAnywhere : isa.kind last = .indirectJump →
      Leaves isa helpers g last [⟨.unconditional, .unknown⟩]
  | branches {target next : Successor} : (isa.kind last).isConditional = true →
      LeadsTo g last.target? target → LeadsTo g (some last.next) next →
      Leaves isa helpers g last [⟨.conditional, target⟩, ⟨.fallThrough, next⟩]
  | runsOn {next : Successor} : (isa.kind last).endsBlock = false →
      isFinalCall helpers (isa.kind last) last = false → LeadsTo g (some last.next) next →
      Leaves isa helpers g last [⟨.fallThrough, next⟩]

section

variable {isa : InstructionSet} {helpers : HelperTable} {g : Graph}

theorem leadsTo_resolve (h : Indexed g) (target : Option UInt64) :
    LeadsTo g target (g.resolve target) := by
  cases target with
  | none => exact .unknown
  | some t =>
    unfold resolve
    simp only
    split
    · rename_i id hid
      obtain ⟨b, hb, ht⟩ := (h.byStart_iff t id).mp hid
      exact .block hb ht
    · rename_i hnone
      refine .outside fun b hb ht => ?_
      obtain ⟨id, hid⟩ := List.mem_iff_getElem?.mp hb
      rw [(h.byStart_iff t id).mpr ⟨b, hid, ht⟩] at hnone
      cases hnone

/-- The edges that an instruction calls for are those by which control leaves its block. -/
theorem leaves_edgesFrom (h : Indexed g) (last : Instruction) :
    Leaves isa helpers g last (edgesFrom isa helpers g last) := by
  have hresolve := leadsTo_resolve h
  unfold edgesFrom
  simp only
  split
  · rename_i hends
    exact .ends hends
  · rename_i hends
    simp only [not_or, Bool.not_eq_true] at hends
    obtain ⟨hret, htrap, hfinal⟩ := hends
    split
    · rename_i hjump
      exact .jumps hjump (hresolve _)
    · rename_i hjump
      split
      · rename_i hindirect
        exact .jumpsAnywhere hindirect
      · rename_i hindirect
        split
        · rename_i hcond
          exact .branches hcond (hresolve _) (hresolve _)
        · rename_i hcond
          refine .runsOn ?_ hfinal (hresolve _)
          cases hk : isa.kind last <;>
            simp_all [InstructionKind.endsBlock, InstructionKind.endsFlow,
              InstructionKind.isConditional]

end

/-- Blocks and edges are those of the body. -/
structure FlowOf (isa : InstructionSet) (helpers : HelperTable) (body : List Instruction)
    (g : Graph) : Prop where
  /-- The blocks hold the body in order. -/
  instructions_eq : g.blocks.flatMap Block.instructions = body
  /-- The id of a block is its position. It starts with its first instruction, and is found at its
  start. -/
  located : ∀ (id : Nat) (b : Block), g.blocks[id]? = some b → b.id = id ∧
    (∃ first, b.instructions.head? = some first ∧ first.address = b.start) ∧
      g.blockAt? b.start = some id
  /-- Inside a block nothing separates neighbours. -/
  straight : ∀ b ∈ g.blocks, b.instructions.IsChain fun i j => ¬Separates isa helpers body i j
  /-- A block starts at every branch target in the body. -/
  targets : ∀ j ∈ body, BranchedTo isa body j.address → ∃ b ∈ g.blocks, b.start = j.address
  /-- Of two neighbours, the second starts a block exactly if something separates them. -/
  boundary : body.IsChain fun i j =>
    (∃ b ∈ g.blocks, b.start = j.address) ↔ Separates isa helpers body i j
  /-- A body in which nothing separates neighbours is one block. -/
  whole : body ≠ [] → body.IsChain (fun i j => ¬Separates isa helpers body i j) →
    ∃ b, g.blocks = [b] ∧ b.instructions = body
  edges : ∀ (id : Nat) (b : Block) (last : Instruction), g.blocks[id]? = some b →
    b.instructions.getLast? = some last → Leaves isa helpers g last (g.successors id)

section

variable {isa : InstructionSet} {helpers : HelperTable} {body : List Instruction}

theorem exists_neighbour {α : Type} (x : α) {y : α} {xs : List α} (h : y ∈ xs) :
    ∃ before z after, x :: xs = before ++ z :: y :: after := by
  obtain ⟨front, after, rfl⟩ := List.append_of_mem h
  have hne : x :: front ≠ [] := List.cons_ne_nil x front
  refine ⟨(x :: front).dropLast, (x :: front).getLast hne, after, ?_⟩
  conv_lhs => rw [← List.cons_append, ← List.dropLast_append_getLast hne]
  simp

/-- A block is a run of the body. -/
theorem infix_of_mem_carve {b : Block} (hb : b ∈ carve isa helpers body) :
    b.instructions <:+: body := by
  have hflat := List.infix_of_mem_flatten (mem_carve hb).1
  rwa [flatten_cutBefore] at hflat

/-- Inside a block nothing separates neighbours. -/
theorem straight_of_mem_carve (h : body.Pairwise fun i j => i.address < j.address) {b : Block}
    (hb : b ∈ carve isa helpers body) :
    b.instructions.IsChain fun i j => ¬Separates isa helpers body i j := by
  have hrun := (mem_carve hb).1
  have hchain := List.IsChain.infix (mem_leaders isa helpers h) (infix_of_mem_carve hb)
  refine hchain.imp_of_mem_tail_imp fun i j _ hj hij hsep => ?_
  have hnot : isLeader isa helpers body j = false := not_of_mem_tail hrun hj
  rw [isLeader, ← Bool.not_eq_true, List.contains_iff_mem] at hnot
  exact hnot (hij.mpr hsep)

theorem boundary_carve (h : body.Pairwise fun i j => i.address < j.address) :
    body.IsChain fun i j =>
      (∃ b ∈ carve isa helpers body, b.start = j.address) ↔ Separates isa helpers body i j :=
  (mem_leaders isa helpers h).imp_of_mem_tail_imp fun _ _ _ hj hij =>
    (exists_start_iff (List.mem_of_mem_tail hj)).trans hij

/-- If no block starts behind the first instruction, there is one block. -/
theorem carve_eq_singleton (h : body.Pairwise fun i j => i.address < j.address) (hne : body ≠ [])
    (hstraight : body.IsChain fun i j => ¬Separates isa helpers body i j) :
    ∃ b, carve isa helpers body = [b] ∧ b.instructions = body := by
  obtain ⟨first, rest, rfl⟩ := List.exists_cons_of_ne_nil hne
  have hrest : ∀ j ∈ rest, isLeader isa helpers (first :: rest) j = false := by
    intro j hj
    obtain ⟨before, i, after, hsplit⟩ := exists_neighbour first hj
    have hleader :=
      List.isChain_iff_forall_rel_of_append_cons_cons.mp (mem_leaders isa helpers h) hsplit
    have hnot := List.isChain_iff_forall_rel_of_append_cons_cons.mp hstraight hsplit
    rw [isLeader, ← Bool.not_eq_true, List.contains_iff_mem]
    exact mt hleader.mp hnot
  have hone : ((carve isa helpers (first :: rest)).map Block.start).length ≤ 1 := by
    rw [map_start_carve, List.length_map, List.filter_cons]
    have hnil : rest.filter (isLeader isa helpers (first :: rest)) = [] := by
      simpa using hrest
    split <;> simp [hnil]
  have hall := flatMap_instructions_carve isa helpers (first :: rest)
  match hc : carve isa helpers (first :: rest), hone with
  | [], _ => rw [hc] at hall; cases hall
  | [b], _ => exact ⟨b, rfl, by rw [hc] at hall; simpa using hall⟩
  | _ :: _ :: _, hlen => simp at hlen

/-- For every instruction set and helper table, the graph of a body with increasing addresses has
the blocks and edges that the body calls for. -/
theorem build_flowOf (isa : InstructionSet) (helpers : HelperTable) (body : List Instruction)
    (h : body.Pairwise fun i j => i.address < j.address) :
    FlowOf isa helpers body (build isa helpers body) := by
  have hindexed : Indexed (build isa helpers body) := indexed_build (nodup_starts h)
  refine ⟨?_, fun id b hb => ⟨hindexed.id_eq id b hb, ?_, ?_⟩, fun b hb => ?_,
    fun j hj hbranch => ?_, ?_, fun hne hstraight => ?_, fun id b last hb hl => ?_⟩
  · have hall := flatMap_instructions_carve isa helpers body
    rwa [← bare_blocks_build, List.flatMap_map] at hall
  · exact (mem_carve (List.mem_of_getElem? (bare_of_build hb))).2
  · exact hindexed.blockAt?_iff.mpr ⟨b, hb, rfl⟩
  · exact (straight_of_mem_carve h (bare_mem_carve hb) :)
  · refine exists_start_build_iff.mpr ((exists_start_iff hj).mpr ?_)
    exact List.mem_append_right _ (mem_branchTargets.mpr ⟨hbranch, j, hj, rfl⟩)
  · simp only [exists_start_build_iff]
    exact boundary_carve h
  · obtain ⟨c, hcarve, hc⟩ := carve_eq_singleton h hne hstraight
    rw [← bare_blocks_build, List.map_eq_singleton_iff] at hcarve
    obtain ⟨b, hb, rfl⟩ := hcarve
    exact ⟨b, hb, hc⟩
  · rw [successors_build (bare_of_build hb) hl]
    exact leaves_edgesFrom hindexed last

end

/-- A check for null with a helper that never returns, and a return behind a gap. -/
def checkingBody : List Instruction :=
  [.ofText 0x1000 (List.replicate 3 0x90) "test" "rcx, rcx",
   .ofText 0x1003 (List.replicate 2 0x90) "jne" "0x100a",
   .ofText 0x1005 (List.replicate 5 0x90) "call" "0x2000",
   .ofText 0x100a (List.replicate 5 0x90) "mov" "eax, 1",
   .ofText 0x1012 (List.replicate 1 0x90) "ret" ""]

/-- The helper that `checkingBody` calls. -/
def checkingHelpers : HelperTable := HelperTable.empty.set .raiseNullReference 0x2000

theorem build_flowOf_checking :
    (checkingBody.Pairwise fun i j => i.address < j.address) ∧
      (build X64.isa checkingHelpers checkingBody).blocks.map Block.start =
        [0x1000, 0x1005, 0x100a, 0x1012] ∧
      FlowOf X64.isa checkingHelpers checkingBody
        (build X64.isa checkingHelpers checkingBody) := by
  have haddress : checkingBody.Pairwise fun i j => i.address < j.address := by decide +kernel
  exact ⟨haddress, by decide +kernel,
    build_flowOf X64.isa checkingHelpers checkingBody haddress⟩

end Graph

end MethodLift
