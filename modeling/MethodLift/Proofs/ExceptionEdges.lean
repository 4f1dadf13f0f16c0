import MethodLift.Proofs.Edges

/-!
# Edges to exception handlers

Exception edges are added to a graph that is already built, region by region and call by call. The
same edge may be asked for again: regions overlap, and a region may be attached twice. An edge that
is there is not added again, but edges of different kinds may run side by side, and a handler may
protect itself.

A block keeps two lists, its edges and its predecessors, and what is there already is told apart by
kind and target in the one and by the block alone in the other. `Graph.Linked` is that they say the
same all the same. It is kept by every edge between two blocks (`Linked.addEdge`), and so it holds
of a built graph and after any regions. `Graph.Guarded` is what the regions add, and that they add
nothing else.

* `Linked.addEdge`, `KeepsFlow.addEdge`: what one more edge keeps; the second pass of `build` and
  the regions follow by induction.
* `mem_successors_attachRegions`: the edges after a list of regions.
* `Guarded.attachRegions_eq_self`: regions attached before change nothing.
-/

namespace MethodLift.Graph

/-- The exception edges that a region calls for, by the blocks that they leave: from each block that
starts in the region to the block that starts at its handler. -/
def Catches (blocks : List Block) (region : ExceptionRegion) (source : Nat) (e : Edge) : Prop :=
  ∃ b handler j, blocks[source]? = some b ∧ blocks[j]? = some handler ∧
    region.start ≤ b.start ∧ b.start < region.stop ∧ handler.start = region.handler ∧
    e = ⟨.exception, .block j⟩

/-- The edges of a graph lead to its blocks, are the same seen from both ends, and are listed once
at either end. -/
structure Linked (g : Graph) : Prop where
  target_lt : ∀ i e j, e ∈ g.successors i → e.target = .block j → j < g.blocks.length
  predecessors_iff : ∀ i j, i ∈ g.predecessors j ↔ ∃ e ∈ g.successors i, e.target = .block j
  successors_nodup : ∀ i, (g.successors i).Nodup
  predecessors_nodup : ∀ j, (g.predecessors j).Nodup

/-- A graph is linked, and control falls out of a block in at most one way. -/
structure Consistent (g : Graph) : Prop extends Linked g where
  fallThrough_once : ∀ i, (g.successors i).countP (fun e => e.kind == .fallThrough) ≤ 1

/-- `g` is the graph `built` with the exception edges of the regions and no other change. -/
structure Guarded (built : Graph) (regions : List ExceptionRegion) (g : Graph) : Prop where
  same : SameBlocks built g
  others_eq : ∀ i, (g.successors i).filter (fun e => e.kind != .exception) = built.successors i
  exception_iff : ∀ i e, e ∈ g.successors i ∧ e.kind = .exception ↔
    ∃ region ∈ regions, Catches built.blocks region i e

/-! ## One more edge -/

section

variable {g acc : Graph} {source i j : Nat} {edge e : Edge}

theorem addEdge_eq_self (h : edge ∈ g.successors source) : g.addEdge source edge = g := by
  simp [addEdge, h]

theorem mem_successors_addEdge (hsource : source < g.blocks.length) :
    e ∈ (g.addEdge source edge).successors i ↔ e ∈ g.successors i ∨ i = source ∧ e = edge := by
  rw [successors_addEdge hsource]
  split
  · rename_i hnew
    simp [hnew.1]
  · rename_i hold
    refine (or_iff_left_of_imp ?_).symm
    rintro ⟨rfl, rfl⟩
    exact Decidable.not_not.mp fun hnew => hold ⟨rfl, hnew⟩

theorem mem_predecessors_addEdge (htarget : ∀ j, edge.target = .block j → j < g.blocks.length) :
    i ∈ (g.addEdge source edge).predecessors j ↔ i ∈ g.predecessors j ∨
      edge ∉ g.successors source ∧ edge.target = .block j ∧ i = source := by
  rw [predecessors_addEdge htarget]
  split
  · rename_i hnew
    simp [hnew.1, hnew.2.1]
  · rename_i hold
    refine (or_iff_left_of_imp ?_).symm
    rintro ⟨hnew, ht, rfl⟩
    exact Decidable.not_not.mp fun hmem => hold ⟨hnew, ht, hmem⟩

/-- An edge between blocks of the graph leaves it linked. -/
theorem Linked.addEdge (h : Linked g) (hsource : source < g.blocks.length)
    (htarget : ∀ j, edge.target = .block j → j < g.blocks.length) :
    Linked (g.addEdge source edge) := by
  have hlength := ((SameBlocks.refl g).addEdge source edge).length_eq
  refine ⟨?_, ?_, ?_, ?_⟩
  · intro i e j he hj
    rw [hlength]
    rcases (mem_successors_addEdge hsource).mp he with he | ⟨-, rfl⟩
    · exact h.target_lt i e j he hj
    · exact htarget j hj
  · intro i j
    simp only [mem_predecessors_addEdge htarget, mem_successors_addEdge hsource,
      h.predecessors_iff]
    constructor
    · rintro (⟨e, he, hj⟩ | ⟨-, hj, rfl⟩)
      · exact ⟨e, .inl he, hj⟩
      · exact ⟨edge, .inr ⟨rfl, rfl⟩, hj⟩
    · rintro ⟨e, he | ⟨rfl, rfl⟩, hj⟩
      · exact .inl ⟨e, he, hj⟩
      · -- The edge may be an old one; then the block is a predecessor already.
        by_cases hold : e ∈ g.successors i
        · exact .inl ⟨e, hold, hj⟩
        · exact .inr ⟨hold, hj, rfl⟩
  · intro i
    rw [successors_addEdge hsource]
    split
    · rename_i hnew
      exact List.nodup_append.mpr ⟨h.successors_nodup i, List.nodup_singleton edge, by grind⟩
    · exact h.successors_nodup i
  · intro j
    rw [predecessors_addEdge htarget]
    split
    · rename_i hnew
      exact List.nodup_append.mpr ⟨h.predecessors_nodup j, List.nodup_singleton source, by grind⟩
    · exact h.predecessors_nodup j

theorem Consistent.addEdge (h : Consistent g) (hsource : source < g.blocks.length)
    (hkind : edge.kind ≠ .fallThrough)
    (htarget : ∀ j, edge.target = .block j → j < g.blocks.length) :
    Consistent (g.addEdge source edge) := by
  refine ⟨h.toLinked.addEdge hsource htarget, fun i => ?_⟩
  have hold := h.fallThrough_once i
  rw [successors_addEdge hsource]
  split
  · simpa [hkind] using hold
  · exact hold

/-- `acc` has the blocks of `g` and its edges, but for exception edges. -/
structure KeepsFlow (g acc : Graph) : Prop where
  same : SameBlocks g acc
  others_eq : ∀ i, (acc.successors i).filter (fun e => e.kind != .exception) =
    (g.successors i).filter fun e => e.kind != .exception

theorem KeepsFlow.refl (g : Graph) : KeepsFlow g g := ⟨.refl g, fun _ => rfl⟩

theorem KeepsFlow.addEdge (h : KeepsFlow g acc) (hsource : source < g.blocks.length)
    (hkind : edge.kind = .exception) : KeepsFlow g (acc.addEdge source edge) := by
  refine ⟨h.same.addEdge source edge, fun i => ?_⟩
  rw [successors_addEdge (by rwa [h.same.length_eq])]
  split
  · simp [hkind, h.others_eq]
  · exact h.others_eq i

end

/-! ## Regions -/

/-- Add the edge of a block to the handler of a region. -/
def guardBlock (region : ExceptionRegion) (handler : Nat) (acc : Graph) (b : Block × Nat) : Graph :=
  if region.start ≤ b.1.start ∧ b.1.start < region.stop then
    acc.addEdge b.2 ⟨.exception, .block handler⟩
  else acc

section

variable {g acc : Graph}

theorem attachRegion_eq (g : Graph) (region : ExceptionRegion) : g.attachRegion region =
    match g.byStart.get? region.handler with
    | none => g
    | some handler => g.blocks.zipIdx.foldl (guardBlock region handler) g := rfl

/-- What holds of a graph holds after a region, if every exception edge between blocks keeps it. -/
theorem attachRegion_induction {P : Graph → Prop} (hg : P g)
    (hstep : ∀ acc source handler, P acc → source < g.blocks.length →
      handler < g.blocks.length → P (acc.addEdge source ⟨.exception, .block handler⟩))
    (hindexed : Indexed g) (region : ExceptionRegion) : P (g.attachRegion region) := by
  rw [attachRegion_eq]
  split
  · exact hg
  · rename_i handler hsome
    obtain ⟨b, hb, -⟩ := (hindexed.byStart_iff _ _).mp hsome
    refine List.foldlRecOn _ _ hg ?_
    intro acc hacc c hc
    unfold guardBlock
    split
    · exact hstep acc c.2 handler hacc
        (List.getElem?_eq_some_iff.mp (List.mem_zipIdx_iff_getElem?.mp hc)).1
        (List.getElem?_eq_some_iff.mp hb).1
    · exact hacc

theorem KeepsFlow.attachRegion (h : KeepsFlow g acc) (hindexed : Indexed g)
    (region : ExceptionRegion) : KeepsFlow g (acc.attachRegion region) := by
  refine attachRegion_induction h ?_ (h.same.indexed hindexed) region
  intro c source handler hc hsource _
  exact hc.addEdge (by rwa [← h.same.length_eq]) rfl

theorem keepsFlow_attachRegions (hindexed : Indexed g) (regions : List ExceptionRegion) :
    KeepsFlow g (g.attachRegions regions) :=
  List.foldlRecOn regions _ (.refl g) fun _ hacc region _ => hacc.attachRegion hindexed region

theorem Consistent.attachRegions (h : Consistent g) (hindexed : Indexed g)
    (regions : List ExceptionRegion) : Consistent (g.attachRegions regions) := by
  -- The blocks are carried along: an edge must lead between those of the graph at hand.
  have hrun : SameBlocks g (g.attachRegions regions) ∧ Consistent (g.attachRegions regions) := by
    refine List.foldlRecOn (motive := fun acc => SameBlocks g acc ∧ Consistent acc) regions _
      ⟨.refl g, h⟩ ?_
    rintro acc ⟨hsame, hacc⟩ region _
    refine attachRegion_induction (P := fun c => SameBlocks g c ∧ Consistent c) ⟨hsame, hacc⟩ ?_
      (hsame.indexed hindexed) region
    rintro c source handler ⟨hc, hcons⟩ hsource hhandler
    rw [hsame.length_eq, ← hc.length_eq] at hsource hhandler
    refine ⟨hc.addEdge source _, hcons.addEdge hsource (by simp) ?_⟩
    rintro j ⟨⟩
    exact hhandler
  exact hrun.2

theorem mem_successors_foldl_guardBlock {region : ExceptionRegion} {handler i : Nat}
    {bs : List (Block × Nat)} (hbs : ∀ b ∈ bs, b.2 < acc.blocks.length) {e : Edge} :
    e ∈ (bs.foldl (guardBlock region handler) acc).successors i ↔ e ∈ acc.successors i ∨
      ∃ b, (b, i) ∈ bs ∧ region.start ≤ b.start ∧ b.start < region.stop ∧
        e = ⟨.exception, .block handler⟩ := by
  induction bs generalizing acc with
  | nil => simp
  | cons c bs ih =>
    obtain ⟨c, k⟩ := c
    have hsame : SameBlocks acc (guardBlock region handler acc (c, k)) := by
      unfold guardBlock
      split
      · exact (SameBlocks.refl acc).addEdge ..
      · exact .refl acc
    have hstep : e ∈ (guardBlock region handler acc (c, k)).successors i ↔ e ∈ acc.successors i ∨
        i = k ∧ region.start ≤ c.start ∧ c.start < region.stop ∧
          e = ⟨.exception, .block handler⟩ := by
      unfold guardBlock
      split
      · rename_i hin
        rw [mem_successors_addEdge (hbs _ (List.mem_cons_self ..))]
        simp [hin]
      · rename_i hin
        simp only [iff_self_or]
        rintro ⟨-, hstart, hstop, -⟩
        exact absurd ⟨hstart, hstop⟩ hin
    have hrest : ∀ b ∈ bs, b.2 < (guardBlock region handler acc (c, k)).blocks.length := by
      intro b hb
      rw [hsame.length_eq]
      exact hbs b (List.mem_cons_of_mem _ hb)
    rw [List.foldl_cons, ih hrest, hstep, or_assoc]
    refine or_congr_right ?_
    constructor
    · rintro (⟨hk, hin⟩ | ⟨b, hb, hin⟩)
      · exact ⟨c, by simp [hk], hin⟩
      · exact ⟨b, List.mem_cons_of_mem _ hb, hin⟩
    · rintro ⟨b, hb, hin⟩
      rcases List.mem_cons.mp hb with hb | hb
      · obtain ⟨rfl, hk⟩ := Prod.mk.inj hb
        exact .inl ⟨hk, hin⟩
      · exact .inr ⟨b, hb, hin⟩

theorem mem_successors_attachRegion (hindexed : Indexed g) {region : ExceptionRegion} {i : Nat}
    {e : Edge} :
    e ∈ (g.attachRegion region).successors i ↔
      e ∈ g.successors i ∨ Catches g.blocks region i e := by
  have hhandler := hindexed.byStart_iff region.handler
  rw [attachRegion_eq]
  split
  · rename_i hnone
    refine iff_self_or.mpr ?_
    rintro ⟨b, handler, j, -, hj, -, -, hstart, -⟩
    rw [(hhandler j).mpr ⟨handler, hj, hstart⟩] at hnone
    cases hnone
  · rename_i j hsome
    obtain ⟨handler, hj, hstart⟩ := (hhandler j).mp hsome
    have hpositions : ∀ b ∈ g.blocks.zipIdx, b.2 < g.blocks.length := fun b hb =>
      (List.getElem?_eq_some_iff.mp (List.mem_zipIdx_iff_getElem?.mp hb)).1
    rw [mem_successors_foldl_guardBlock hpositions]
    refine or_congr_right ⟨?_, ?_⟩
    · rintro ⟨b, hb, hin, hout, he⟩
      exact ⟨b, handler, j, List.mem_zipIdx_iff_getElem?.mp hb, hj, hin, hout, hstart, he⟩
    · rintro ⟨b, handler', j', hb, hj', hin, hout, hstart', he⟩
      have hsame : j' = j := Option.some.inj
        (((hhandler j').mpr ⟨handler', hj', hstart'⟩).symm.trans hsome)
      exact ⟨b, List.mem_zipIdx_iff_getElem?.mpr hb, hin, hout, hsame ▸ he⟩

/-- The edges that a region calls for depend on the starts of the blocks only. -/
theorem SameBlocks.catches_iff (h : SameBlocks g acc) {region : ExceptionRegion} {i : Nat}
    {e : Edge} : Catches acc.blocks region i e ↔ Catches g.blocks region i e := by
  have hone : ∀ {g acc : Graph}, SameBlocks g acc → Catches acc.blocks region i e →
      Catches g.blocks region i e := by
    rintro g acc h ⟨b, handler, j, hb, hj, hin, hout, hstart, he⟩
    obtain ⟨c, hc, hcb⟩ := h.exists_block hb
    obtain ⟨d, hd, hdh⟩ := h.exists_block hj
    have hcb : c.start = b.start := (congrArg Block.start hcb :)
    have hdh : d.start = handler.start := (congrArg Block.start hdh :)
    exact ⟨c, d, j, hc, hd, hcb ▸ hin, hcb ▸ hout, hdh.trans hstart, he⟩
  exact ⟨hone h, hone h.symm⟩

/-- After a list of regions a graph has its old edges and those that the regions call for. -/
theorem mem_successors_attachRegions (hindexed : Indexed g) {regions : List ExceptionRegion}
    {i : Nat} {e : Edge} :
    e ∈ (g.attachRegions regions).successors i ↔
      e ∈ g.successors i ∨ ∃ region ∈ regions, Catches g.blocks region i e := by
  induction regions generalizing g with
  | nil => simp [attachRegions]
  | cons region regions ih =>
    have hsame := ((KeepsFlow.refl g).attachRegion hindexed region).same
    have hrest := ih (g := g.attachRegion region) (hsame.indexed hindexed)
    simp only [hsame.catches_iff, mem_successors_attachRegion hindexed] at hrest
    rw [show g.attachRegions (region :: regions) = (g.attachRegion region).attachRegions regions
      from rfl, hrest]
    simp only [List.mem_cons, exists_eq_or_imp, or_assoc]

theorem attachRegion_eq_self (hindexed : Indexed g) {region : ExceptionRegion}
    (h : ∀ source e, Catches g.blocks region source e → e ∈ g.successors source) :
    g.attachRegion region = g := by
  rw [attachRegion_eq]
  split
  · rfl
  · rename_i j hsome
    obtain ⟨handler, hj, hstart⟩ := (hindexed.byStart_iff _ _).mp hsome
    refine List.foldlRecOn (motive := fun acc => acc = g) _ _ rfl ?_
    rintro acc rfl b hb
    unfold guardBlock
    split
    · rename_i hin
      exact addEdge_eq_self (h _ _ ⟨b.1, handler, j, List.mem_zipIdx_iff_getElem?.mp hb, hj, hin.1,
        hin.2, hstart, rfl⟩)
    · rfl

/-- Attached to a graph without exception edges, regions add theirs and nothing else. -/
theorem guarded_attachRegions (hindexed : Indexed g)
    (hplain : ∀ i, ∀ e ∈ g.successors i, e.kind ≠ .exception) (regions : List ExceptionRegion) :
    Guarded g regions (g.attachRegions regions) := by
  have hkeeps := keepsFlow_attachRegions hindexed regions
  refine ⟨hkeeps.same, fun i => ?_, fun i e => ?_⟩
  · rw [hkeeps.others_eq, List.filter_eq_self]
    intro e he
    simpa using hplain i e he
  · rw [mem_successors_attachRegions hindexed]
    constructor
    · rintro ⟨he | he, hkind⟩
      · exact absurd hkind (hplain i e he)
      · exact he
    · rintro ⟨region, hregion, hcatches⟩
      refine ⟨.inr ⟨region, hregion, hcatches⟩, ?_⟩
      obtain ⟨b, handler, j, -, -, -, -, -, rfl⟩ := hcatches
      rfl

/-- Regions that were attached before change nothing. -/
theorem Guarded.attachRegions_eq_self {built : Graph} {regions again : List ExceptionRegion}
    (h : Guarded built regions g) (hindexed : Indexed built)
    (hagain : ∀ region ∈ again, region ∈ regions) : g.attachRegions again = g := by
  refine List.foldlRecOn (motive := fun acc => acc = g) again _ rfl ?_
  rintro acc rfl region hregion
  refine attachRegion_eq_self (h.same.indexed hindexed) fun source e hcatches => ?_
  rw [h.same.catches_iff] at hcatches
  exact ((h.exception_iff source e).mpr ⟨region, hagain region hregion, hcatches⟩).1

end

/-! ## Built graphs -/

section

variable {isa : InstructionSet} {helpers : HelperTable} {body : List Instruction} {g : Graph}

/-- Blocks of a body without repeated addresses start apart, in whatever order its instructions
come. -/
theorem nodup_starts_of_nodup (h : (body.map Instruction.address).Nodup) :
    ((carve isa helpers body).map Block.start).Nodup := by
  rw [map_start_carve]
  exact h.sublist (List.filter_sublist.map _)

/-- A built graph has no edges but those of the last instructions of its blocks. -/
theorem successors_build_cases (isa : InstructionSet) (helpers : HelperTable)
    (body : List Instruction) (id : Nat) :
    (build isa helpers body).successors id = [] ∨
      ∃ last, (build isa helpers body).successors id =
        edgesFrom isa helpers (build isa helpers body) last := by
  rcases hcase : (build isa helpers body).successors id with _ | ⟨e, es⟩
  · exact .inl rfl
  · have he : e ∈ (build isa helpers body).successors id := by simp [hcase]
    obtain ⟨b, last, hb, hl, -⟩ := mem_successors_build.mp he
    rw [← hcase]
    exact .inr ⟨last, successors_build hb hl⟩

theorem kind_ne_exception_of_mem_build {id : Nat} {e : Edge}
    (h : e ∈ (build isa helpers body).successors id) : e.kind ≠ .exception := by
  obtain ⟨b, last, -, -, he⟩ := mem_successors_build.mp h
  cases mem_edgesFrom.mp he <;> simp

theorem fallThrough_edgesFrom (last : Instruction) :
    (edgesFrom isa helpers g last).countP (fun e => e.kind == .fallThrough) ≤ 1 := by
  unfold edgesFrom
  simp only
  split
  · simp
  · split
    · simp
    · split
      · simp
      · split <;> simp

theorem lt_of_resolve (hindexed : Indexed g) (target : Option UInt64) {j : Nat}
    (h : g.resolve target = .block j) : j < g.blocks.length := by
  have hleads := leadsTo_resolve hindexed target
  rw [h] at hleads
  cases hleads with
  | block hb => exact (List.getElem?_eq_some_iff.mp hb).1

/-- The edges that an instruction calls for lead to blocks of the graph, if they lead to a block. -/
theorem lt_of_mem_edgesFrom (hindexed : Indexed g) {last : Instruction} {e : Edge}
    (he : e ∈ edgesFrom isa helpers g last) {j : Nat} (hj : e.target = .block j) :
    j < g.blocks.length := by
  cases mem_edgesFrom.mp he with
  | fallThrough => exact lt_of_resolve hindexed (some last.next) hj
  | branch => exact lt_of_resolve hindexed last.target? hj
  | jump => exact lt_of_resolve hindexed last.target? hj
  | jumpAnywhere => cases hj

theorem Linked.addEdges (h : Linked g) {source : Nat} (hsource : source < g.blocks.length)
    {es : List Edge} (hes : ∀ e ∈ es, ∀ j, e.target = .block j → j < g.blocks.length) :
    Linked (g.addEdges source es) := by
  have hrun : SameBlocks g (g.addEdges source es) ∧ Linked (g.addEdges source es) := by
    refine List.foldlRecOn (motive := fun acc => SameBlocks g acc ∧ Linked acc) es _
      ⟨.refl g, h⟩ ?_
    rintro acc ⟨hsame, hacc⟩ e he
    refine ⟨hsame.addEdge source e, hacc.addEdge ?_ ?_⟩ <;> rw [hsame.length_eq]
    · exact hsource
    · exact hes e he
  exact hrun.2

/-- The second pass leaves a graph linked. -/
theorem Linked.wire (h : Linked g) (hindexed : Indexed g) {b : Block × Nat}
    (hb : b.2 < g.blocks.length) : Linked (g.wire isa helpers b) := by
  unfold Graph.wire
  split
  · exact h
  · exact h.addEdges hb fun e he j hj => lt_of_mem_edgesFrom hindexed he hj

theorem linked_carve (isa : InstructionSet) (helpers : HelperTable) (body : List Instruction) :
    Linked (ofBlocks (carve isa helpers body)) := by
  have hout := successors_carve isa helpers body
  have hin : ∀ id, (ofBlocks (carve isa helpers body)).predecessors id = [] := by
    intro id
    simp only [predecessors, ofBlocks]
    rw [← map_bare_carve isa helpers body, List.getElem?_map, Option.map_map]
    cases (carve isa helpers body)[id]? <;> rfl
  constructor <;> simp [hout, hin]

theorem linked_build (h : ((carve isa helpers body).map Block.start).Nodup) :
    Linked (build isa helpers body) := by
  have hindexed := indexed_ofBlocks (fun _ _ => id_of_carve) h
  have hrun : SameBlocks (ofBlocks (carve isa helpers body)) (build isa helpers body) ∧
      Linked (build isa helpers body) := by
    refine List.foldlRecOn (motive := fun acc =>
      SameBlocks (ofBlocks (carve isa helpers body)) acc ∧ Linked acc) _ _
      ⟨.refl _, linked_carve isa helpers body⟩ ?_
    rintro acc ⟨hsame, hacc⟩ b hb
    refine ⟨hsame.wire b, hacc.wire (hsame.indexed hindexed) ?_⟩
    rw [hsame.length_eq]
    exact (List.getElem?_eq_some_iff.mp (List.mem_zipIdx_iff_getElem?.mp hb)).1
  exact hrun.2

theorem consistent_build (h : ((carve isa helpers body).map Block.start).Nodup) :
    Consistent (build isa helpers body) := by
  refine ⟨linked_build h, fun i => ?_⟩
  rcases successors_build_cases isa helpers body i with hnil | ⟨last, hlast⟩
  · simp [hnil]
  · rw [hlast]
    exact fallThrough_edgesFrom last

end

/-- Take the graph of a body without repeated addresses through any number of calls that attach
regions. Its edges lead to its blocks, are the same seen from both ends and are listed once; control
falls out of a block in at most one way. Its blocks and its other edges are those it was built with,
and its exception edges are those that the regions given so far call for. Attaching any of these
regions again changes nothing. -/
theorem attached_consistent (isa : InstructionSet) (helpers : HelperTable)
    (body : List Instruction) (hdistinct : (body.map Instruction.address).Nodup)
    (calls : List (List ExceptionRegion)) :
    let built := build isa helpers body
    let g := calls.foldl attachRegions built
    Consistent g ∧ Guarded built calls.flatten g ∧
      ∀ again, (∀ region ∈ again, region ∈ calls.flatten) → g.attachRegions again = g := by
  intro built g
  have hg : g = built.attachRegions calls.flatten := List.foldl_flatten.symm
  have hstarts : ((carve isa helpers body).map Block.start).Nodup := nodup_starts_of_nodup hdistinct
  have hindexed : Indexed built := indexed_build hstarts
  have hguarded : Guarded built calls.flatten g := by
    rw [hg]
    exact guarded_attachRegions hindexed (fun _ _ he => kind_ne_exception_of_mem_build he) _
  refine ⟨?_, hguarded, fun again hagain => hguarded.attachRegions_eq_self hindexed hagain⟩
  rw [hg]
  exact (consistent_build hstarts).attachRegions hindexed _

/-- A loop of one instruction with its exit. -/
def spinningBody : List Instruction :=
  [.ofText 0x1000 (List.replicate 2 0x90) "jne" "0x1000",
   .ofText 0x1002 (List.replicate 1 0x90) "ret" ""]

/-- Calls that attach overlapping regions to `spinningBody`: the loop handles its own exceptions and
those of the exit, and the exit those of the loop. -/
def spinningCalls : List (List ExceptionRegion) :=
  [[⟨0x1000, 0x1003, 0x1000⟩, ⟨0xff0, 0x1002, 0x1002⟩], [], [⟨0x1000, 0x1002, 0x1000⟩]]

theorem attached_consistent_spinning :
    (spinningBody.map Instruction.address).Nodup ∧
      (let built := build X64.isa .empty spinningBody
      let g := spinningCalls.foldl attachRegions built
      g.successors 0 = [⟨.conditional, .block 0⟩, ⟨.fallThrough, .block 1⟩,
        ⟨.exception, .block 0⟩, ⟨.exception, .block 1⟩] ∧
      g.predecessors 0 = [0, 1] ∧ g.predecessors 1 = [0] ∧
      Consistent g ∧ Guarded built spinningCalls.flatten g ∧
        ∀ again, (∀ region ∈ again, region ∈ spinningCalls.flatten) →
          g.attachRegions again = g) := by
  have hdistinct : (spinningBody.map Instruction.address).Nodup := by decide +kernel
  exact ⟨hdistinct, by decide +kernel, by decide +kernel, by decide +kernel,
    attached_consistent X64.isa .empty spinningBody hdistinct spinningCalls⟩

end MethodLift.Graph
