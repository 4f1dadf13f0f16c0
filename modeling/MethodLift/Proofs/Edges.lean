import Mathlib.Data.List.Nodup
import MethodLift.Body.Decode
import MethodLift.Encoding.Listing
import MethodLift.Proofs.Blocks

/-!
# Where the edges of a graph lead

An edge leads out of the body if no block starts at its address. For branches this means what it
says: a block starts at every address of the body that a branch goes to. Falling through is another
matter. The address after an instruction is made the start of a block only if it is that of the next
instruction in the list, and where instructions overlap the one that control falls into may stand
further on, inside a block that begins before it. `Overlooks` is this situation, and an edge leads
out to an address of the body there and nowhere else (`outside_iff_overlooks`).

* `mem_successors_build`: the edges of a block, by the last instruction of the block.
* `exists_last_iff`: the instructions that blocks end with.
-/

namespace MethodLift.Graph

/-! ## The edges of a graph -/

section

variable {isa : InstructionSet} {helpers : HelperTable} {body : List Instruction} {g : Graph}
  {last : Instruction} {e : Edge}

/-- The edges of a graph are those that the last instructions of its blocks call for. -/
theorem mem_successors_build {id : Nat} : e ∈ (build isa helpers body).successors id ↔
    ∃ b last, (carve isa helpers body)[id]? = some b ∧ b.instructions.getLast? = some last ∧
      e ∈ edgesFrom isa helpers (build isa helpers body) last := by
  constructor
  · intro he
    cases hb : (build isa helpers body).blocks[id]? with
    | none => simp [successors, hb] at he
    | some b =>
      have hcarved := bare_of_build hb
      have hne := ne_nil_of_mem_cutBefore (mem_carve (List.mem_of_getElem? hcarved)).1
      have hlast := List.getLast?_eq_some_getLast hne
      rw [successors_build hcarved hlast] at he
      exact ⟨b.bare, _, hcarved, hlast, he⟩
  · rintro ⟨b, last, hb, hl, he⟩
    rwa [successors_build hb hl]

/-- The edges that an instruction calls for at the end of a block, one by one. -/
inductive CallsFor (isa : InstructionSet) (helpers : HelperTable) (g : Graph)
    (last : Instruction) : Edge → Prop
  | fallThrough : (isa.kind last).endsFlow = false →
      isFinalCall helpers (isa.kind last) last = false →
      CallsFor isa helpers g last ⟨.fallThrough, g.resolve (some last.next)⟩
  | branch : (isa.kind last).isConditional = true →
      CallsFor isa helpers g last ⟨.conditional, g.resolve last.target?⟩
  | jump : isa.kind last = .jump →
      CallsFor isa helpers g last ⟨.unconditional, g.resolve last.target?⟩
  | jumpAnywhere : isa.kind last = .indirectJump →
      CallsFor isa helpers g last ⟨.unconditional, .unknown⟩

theorem isFinalCall_of_conditional (h : (isa.kind last).isConditional = true) :
    isFinalCall helpers (isa.kind last) last = false := by
  have hcall : isa.kind last ≠ .call := by
    intro hk
    rw [hk] at h
    cases h
  simp [isFinalCall, hcall]

theorem mem_edgesFrom : e ∈ edgesFrom isa helpers g last ↔ CallsFor isa helpers g last e := by
  constructor
  · intro h
    unfold edgesFrom at h
    simp only at h
    split at h
    · simp at h
    · rename_i hends
      simp only [not_or, Bool.not_eq_true] at hends
      obtain ⟨hret, htrap, hfinal⟩ := hends
      split at h
      · rename_i hjump
        rw [List.mem_singleton.mp h]
        exact .jump hjump
      · rename_i hjump
        split at h
        · rename_i hindirect
          rw [List.mem_singleton.mp h]
          exact .jumpAnywhere hindirect
        · rename_i hindirect
          have hflow : (isa.kind last).endsFlow = false := by
            cases hk : isa.kind last <;> simp_all [InstructionKind.endsFlow]
          split at h
          · rename_i hcond
            simp only [List.mem_cons, List.not_mem_nil, or_false] at h
            rcases h with rfl | rfl
            · exact .branch hcond
            · exact .fallThrough hflow hfinal
          · rw [List.mem_singleton.mp h]
            exact .fallThrough hflow hfinal
  · intro h
    cases h with
    | fallThrough hflow hfinal =>
      cases hk : isa.kind last <;>
        simp_all [edgesFrom, InstructionKind.endsFlow, InstructionKind.isConditional]
    | branch hcond =>
      have hfinal : isFinalCall helpers (isa.kind last) last = false :=
        isFinalCall_of_conditional hcond
      cases hk : isa.kind last <;> simp_all [edgesFrom, InstructionKind.isConditional]
    | jump hk => simp [edgesFrom, hk, isFinalCall]
    | jumpAnywhere hk => simp [edgesFrom, hk, isFinalCall]

/-- A direct target leads out of the body exactly if no block starts there. -/
theorem resolve_eq_outside_iff {target : Option UInt64} {t : UInt64} :
    (build isa helpers body).resolve target = .outside t ↔
      target = some t ∧ ∀ b ∈ carve isa helpers body, b.start ≠ t := by
  have hnone : ∀ u, (build isa helpers body).byStart.get? u = none ↔
      ∀ b ∈ carve isa helpers body, b.start ≠ u := by
    intro u
    rw [(sameBlocks_build isa helpers body).byStart_eq]
    exact byStart_eq_none_iff _ u
  cases target with
  | none => simp [resolve]
  | some u =>
    unfold resolve
    simp only
    split
    · rename_i id hid
      have hsome : ¬∀ b ∈ carve isa helpers body, b.start ≠ u := by
        rw [← hnone u, hid]
        simp
      simp only [reduceCtorEq, Option.some.injEq, false_iff, not_and]
      rintro rfl
      exact hsome
    · rename_i hid
      simp only [Successor.outside.injEq, Option.some.injEq]
      constructor
      · rintro rfl
        exact ⟨rfl, (hnone u).mp hid⟩
      · exact fun h => h.1

theorem resolve_eq_unknown_iff {target : Option UInt64} :
    g.resolve target = .unknown ↔ target = none := by
  cases target with
  | none => simp [resolve]
  | some u =>
    unfold resolve
    simp only
    split <;> simp

end

/-! ## The ends of blocks -/

section

variable {α : Type} {p : α → Bool} {run : List α}

/-- A cut before an element cuts the runs there. -/
theorem cutBefore_append {y : α} (hy : p y = true) (xs ys : List α) :
    cutBefore p (xs ++ y :: ys) = cutBefore p xs ++ cutBefore p (y :: ys) := by
  have hhead := heads_cutBefore p y ys
  obtain ⟨first, runs, hfirst⟩ := List.exists_cons_of_ne_nil (cutBefore_cons_ne_nil p y ys)
  have hne : first ≠ [] := ne_nil_of_mem_cutBefore (hfirst ▸ List.mem_cons_self ..)
  obtain ⟨z, zs, rfl⟩ := List.exists_cons_of_ne_nil hne
  have hz : p z = true := by
    rw [hfirst] at hhead
    simp only [List.filterMap_cons, List.head?_cons, List.cons.injEq] at hhead
    rw [hhead.1, hy]
  induction xs with
  | nil => rfl
  | cons x xs ih =>
    rw [hfirst] at ih ⊢
    rw [List.cons_append, cutBefore, ih, cutBefore]
    cases cutBefore p xs with
    | nil => simp [hz]
    | cons r rs =>
      simp only [List.cons_append]
      split <;> simp

/-- Every run but the first begins with an element that calls for a cut. -/
theorem head_of_mem_tail_cutBefore {xs : List α} (h : run ∈ (cutBefore p xs).tail) :
    run.head?.any p = true := by
  induction xs with
  | nil => simp [cutBefore] at h
  | cons x xs ih =>
    rw [cutBefore] at h
    generalize cutBefore p xs = runs at ih h
    cases runs with
    | nil => simp at h
    | cons r rs =>
      simp only [List.tail_cons] at ih h
      split at h
      · rename_i hr
        rcases List.mem_cons.mp h with rfl | h
        · exact hr
        · exact ih h
      · exact ih h

/-- The list ends where its last run ends. -/
theorem exists_run_getLast? (xs : List α) (x : α) :
    ∃ run ∈ cutBefore p (xs ++ [x]), run.getLast? = some x := by
  have hflat := flatten_cutBefore p (xs ++ [x])
  rcases List.eq_nil_or_concat (cutBefore p (xs ++ [x])) with hnil | ⟨init, run, hruns⟩
  · rw [hnil] at hflat
    simp at hflat
  · rw [List.concat_eq_append] at hruns
    have hmem : run ∈ cutBefore p (xs ++ [x]) := by
      rw [hruns]
      simp
    refine ⟨run, hmem, ?_⟩
    rw [hruns, List.flatten_append, List.flatten_singleton] at hflat
    have hlast := congrArg List.getLast? hflat
    rwa [List.getLast?_append_of_ne_nil _ (ne_nil_of_mem_cutBefore hmem),
      List.getLast?_concat] at hlast

/-- What stands behind the end of a run begins the next one. -/
theorem of_getLast?_cutBefore {front back : List α} {x y : α}
    (hnodup : (front ++ x :: y :: back).Nodup)
    (hrun : run ∈ cutBefore p (front ++ x :: y :: back)) (hlast : run.getLast? = some x) :
    p y = true := by
  obtain ⟨before, after, hsplit⟩ := List.append_of_mem hrun
  have hflat := flatten_cutBefore p (front ++ x :: y :: back)
  obtain ⟨init, rfl⟩ := List.getLast?_eq_some_iff.mp hlast
  rw [hsplit, List.flatten_append, List.flatten_cons, List.append_assoc, ← List.append_assoc,
    List.singleton_append] at hflat
  -- An element stands in one place only, so the rest of the list is what the later runs hold.
  have hx : x ∉ before.flatten ++ init ++ after.flatten := by
    rw [← hflat] at hnodup
    exact (List.nodup_cons.mp (List.nodup_middle.mp hnodup)).1
  rw [List.mem_append, not_or] at hx
  obtain ⟨-, -, hafter⟩ := (List.append_cons_inj_of_notMem hx.1 hx.2).mp hflat
  cases after with
  | nil => simp at hafter
  | cons next runs =>
    have htail : next ∈ (cutBefore p (front ++ x :: y :: back)).tail := by
      rw [hsplit]
      cases before <;> simp
    obtain ⟨z, zs, rfl⟩ := List.exists_cons_of_ne_nil
      (ne_nil_of_mem_cutBefore (List.mem_of_mem_tail htail))
    simp only [List.flatten_cons, List.cons_append, List.cons.injEq] at hafter
    simpa [hafter.1] using head_of_mem_tail_cutBefore htail

end

section

variable {isa : InstructionSet} {helpers : HelperTable} {body : List Instruction}
  {i j : Instruction} (h : body.Pairwise fun i j => i.address < j.address)

include h

/-- Of two neighbours, the second starts a block exactly if something separates them. -/
theorem isLeader_iff_separates {front back : List Instruction}
    (hsplit : body = front ++ i :: j :: back) :
    isLeader isa helpers body j = true ↔ Separates isa helpers body i j := by
  rw [isLeader, List.contains_iff_mem]
  exact List.isChain_iff_forall_rel_of_append_cons_cons.mp (mem_leaders isa helpers h) hsplit

/-- A block ends with an instruction exactly if that is separated from what stands behind it. -/
theorem exists_last_iff (hi : i ∈ body) :
    (∃ b ∈ carve isa helpers body, b.instructions.getLast? = some i) ↔
      ∀ front j back, body = front ++ i :: j :: back → Separates isa helpers body i j := by
  have hruns : (∃ b ∈ carve isa helpers body, b.instructions.getLast? = some i) ↔
      ∃ run ∈ cutBefore (isLeader isa helpers body) body, run.getLast? = some i := by
    rw [← map_instructions_carve]
    simp
  rw [hruns]
  constructor
  · rintro ⟨run, hrun, hlast⟩ front j back hsplit
    have hnodup : body.Nodup := h.imp fun hlt heq => UInt64.ne_of_lt hlt (congrArg _ heq)
    refine (isLeader_iff_separates h hsplit).mp ?_
    generalize isLeader isa helpers body = p at hrun ⊢
    subst hsplit
    exact of_getLast?_cutBefore hnodup hrun hlast
  · intro hsep
    obtain ⟨front, back, hsplit⟩ := List.append_of_mem hi
    cases back with
    | nil =>
      generalize isLeader isa helpers body = p
      rw [hsplit]
      exact exists_run_getLast? front i
    | cons j back =>
      have hj := (isLeader_iff_separates h hsplit).mpr (hsep front j back hsplit)
      generalize isLeader isa helpers body = p at hj
      rw [hsplit, List.append_cons, cutBefore_append hj]
      obtain ⟨run, hrun, hlast⟩ := exists_run_getLast? (p := p) front i
      exact ⟨run, List.mem_append_left _ hrun, hlast⟩

end

/-! ## Edges out of the body -/

/-- Control falls from `i` to the address of `j`, but `j` is not the neighbour of `i`, and nothing
separates `j` from the instruction that stands before it. -/
structure Overlooks (isa : InstructionSet) (helpers : HelperTable) (body : List Instruction)
    (i j : Instruction) : Prop where
  passes : (isa.kind i).endsFlow = false ∧ isFinalCall helpers (isa.kind i) i = false
  next_eq : i.next = j.address
  apart : ∀ front back, body ≠ front ++ i :: j :: back
  joined : ∃ front k back, body = front ++ k :: j :: back ∧ ¬Separates isa helpers body k j

section

variable {isa : InstructionSet} {helpers : HelperTable} {body : List Instruction}
  {i j : Instruction}

/-- An edge to a branch target never leads out to an address of the body. -/
theorem not_outside_of_branch (hi : i ∈ body) (hbranch : (isa.kind i).isDirectBranch = true)
    (hj : j ∈ body) :
    (build isa helpers body).resolve i.target? ≠ .outside j.address := by
  intro hout
  obtain ⟨htarget, hstart⟩ := resolve_eq_outside_iff.mp hout
  have hleader : j.address ∈ leaders isa helpers body :=
    List.mem_append_right _ (mem_branchTargets.mpr ⟨⟨i, hi, hbranch, htarget⟩, j, hj, rfl⟩)
  obtain ⟨b, hb, hbj⟩ := (exists_start_iff hj).mpr hleader
  exact hstart b hb hbj

theorem mem_of_last {b : Block} (hb : b ∈ carve isa helpers body)
    (hlast : b.instructions.getLast? = some i) : i ∈ body := by
  rw [← flatMap_instructions_carve isa helpers body]
  exact List.mem_flatMap.mpr ⟨b, hb, List.mem_of_getLast? hlast⟩

variable (h : body.Pairwise fun i j => i.address < j.address)

include h

theorem eq_of_address (hi : i ∈ body) (hj : j ∈ body) (ha : i.address = j.address) : i = j := by
  have hnodup : (body.map Instruction.address).Nodup :=
    List.pairwise_map.mpr (h.imp fun hlt => UInt64.ne_of_lt hlt)
  exact List.inj_on_of_nodup_map hnodup hi hj ha

/-- No block starts at an instruction that nothing separates from the one before it, and at every
other instruction one does. -/
theorem not_start_iff (hj : j ∈ body) :
    (∀ b ∈ carve isa helpers body, b.start ≠ j.address) ↔
      ∃ front k back, body = front ++ k :: j :: back ∧ ¬Separates isa helpers body k j := by
  have hstart : (∀ b ∈ carve isa helpers body, b.start ≠ j.address) ↔
      ¬isLeader isa helpers body j = true := by
    rw [isLeader, List.contains_iff_mem, ← exists_start_iff hj]
    simp
  rw [hstart]
  constructor
  · intro hnot
    obtain ⟨first, rest, rfl⟩ := List.exists_cons_of_ne_nil (List.ne_nil_of_mem hj)
    rcases List.mem_cons.mp hj with rfl | hrest
    · exact absurd (by simp [isLeader, leaders]) hnot
    · obtain ⟨front, k, back, hsplit⟩ := exists_neighbour first hrest
      exact ⟨front, k, back, hsplit, mt (isLeader_iff_separates h hsplit).mpr hnot⟩
  · rintro ⟨front, k, back, hsplit, hnot⟩
    exact mt (isLeader_iff_separates h hsplit).mp hnot

/-- An edge leads out to an address of the body exactly where an instruction is overlooked, and then
it is a fall-through edge. -/
theorem outside_iff_overlooks (hj : j ∈ body) {kind : EdgeKind} :
    (∃ id, ⟨kind, .outside j.address⟩ ∈ (build isa helpers body).successors id) ↔
      kind = .fallThrough ∧ ∃ i ∈ body, Overlooks isa helpers body i j := by
  constructor
  · rintro ⟨id, he⟩
    obtain ⟨b, i, hb, hlast, he⟩ := mem_successors_build.mp he
    have hmem := List.mem_of_getElem? hb
    have hi := mem_of_last hmem hlast
    generalize hedge : (⟨kind, .outside j.address⟩ : Edge) = edge at he
    cases mem_edgesFrom.mp he with
    | fallThrough hflow hfinal =>
      obtain ⟨rfl, hout⟩ := Edge.mk.inj hedge
      obtain ⟨hnext, hstart⟩ := resolve_eq_outside_iff.mp hout.symm
      have hjoined := (not_start_iff h hj).mp hstart
      refine ⟨rfl, i, hi, ⟨hflow, hfinal⟩, Option.some.inj hnext, ?_, hjoined⟩
      -- Neighbours would be separated, since the block ends between them, and `j` would start one.
      intro front back hsplit
      have hsep := (exists_last_iff h hi).mp ⟨b, hmem, hlast⟩ front j back hsplit
      have hleader := (isLeader_iff_separates h hsplit).mpr hsep
      rw [isLeader, List.contains_iff_mem] at hleader
      obtain ⟨c, hc, hcj⟩ := (exists_start_iff hj).mpr hleader
      exact hstart c hc hcj
    | branch hcond =>
      obtain ⟨-, hout⟩ := Edge.mk.inj hedge
      have hbranch : (isa.kind i).isDirectBranch = true := by
        simp [InstructionKind.isDirectBranch, hcond]
      exact absurd hout.symm (not_outside_of_branch hi hbranch hj)
    | jump hjump =>
      obtain ⟨-, hout⟩ := Edge.mk.inj hedge
      have hbranch : (isa.kind i).isDirectBranch = true := by
        simp [InstructionKind.isDirectBranch, hjump]
      exact absurd hout.symm (not_outside_of_branch hi hbranch hj)
    | jumpAnywhere => cases hedge
  · rintro ⟨rfl, i, hi, hover⟩
    have hends : ∀ front k back, body = front ++ i :: k :: back →
        Separates isa helpers body i k := by
      intro front k back hsplit
      refine .inr (.inr (.inl fun hk => ?_))
      have hkj : k = j := eq_of_address h (by simp [hsplit]) hj (hk.trans hover.next_eq)
      exact hover.apart front back (hkj ▸ hsplit)
    obtain ⟨b, hb, hlast⟩ := (exists_last_iff h hi).mpr hends
    obtain ⟨id, hid⟩ := List.mem_iff_getElem?.mp hb
    have hout : (build isa helpers body).resolve (some i.next) = .outside j.address :=
      resolve_eq_outside_iff.mpr
        ⟨congrArg some hover.next_eq, (not_start_iff h hj).mpr hover.joined⟩
    refine ⟨id, mem_successors_build.mpr ⟨b, i, hid, hlast, mem_edgesFrom.mpr ?_⟩⟩
    rw [← hout]
    exact .fallThrough hover.passes.1 hover.passes.2

/-- Where every instruction ends at or before the next one, none is overlooked. -/
theorem not_overlooks (hforward : ∀ i ∈ body, i.address < i.next)
    (hdisjoint : body.IsChain fun i j => i.next ≤ j.address) (hi : i ∈ body) (hj : j ∈ body) :
    ¬Overlooks isa helpers body i j := by
  intro hover
  obtain ⟨front, back, hsplit⟩ := List.append_of_mem hi
  have hlt : i.address < j.address := hover.next_eq ▸ hforward i hi
  rw [hsplit] at h hdisjoint hj
  have hbehind := List.pairwise_append.mp h
  -- Addresses increase, so `j` can only stand behind `i`.
  have hback : j ∈ back := by
    rcases List.mem_append.mp hj with hfront | hrest
    · exact absurd (hbehind.2.2 j hfront i (List.mem_cons_self ..)) (UInt64.lt_asymm hlt)
    · rcases List.mem_cons.mp hrest with rfl | hback
      · exact absurd hlt (UInt64.lt_irrefl _)
      · exact hback
  obtain ⟨k, rest, rfl⟩ := List.exists_cons_of_ne_nil (List.ne_nil_of_mem hback)
  rcases List.mem_cons.mp hback with rfl | hrest
  · exact hover.apart front rest hsplit
  · have hkj : k.address < j.address :=
      (List.pairwise_cons.mp (List.pairwise_cons.mp hbehind.2.1).2).1 j hrest
    have hik : i.next ≤ k.address :=
      List.isChain_iff_forall_rel_of_append_cons_cons.mp hdisjoint rfl
    rw [hover.next_eq] at hik
    exact absurd hkj (UInt64.not_lt.mpr hik)

end

/-- For every instruction set and helper table, an edge in the graph of a body with increasing
addresses leads out to an address of the body exactly where control falls to an instruction that is
overlooked. It never does where instructions do not overlap. -/
theorem build_outside_iff (isa : InstructionSet) (helpers : HelperTable) (body : List Instruction)
    (h : body.Pairwise fun i j => i.address < j.address) :
    (∀ j ∈ body, ∀ kind,
      (∃ id, ⟨kind, .outside j.address⟩ ∈ (build isa helpers body).successors id) ↔
        kind = .fallThrough ∧ ∃ i ∈ body, Overlooks isa helpers body i j) ∧
    ((∀ i ∈ body, i.address < i.next) → (body.IsChain fun i j => i.next ≤ j.address) →
      ∀ j ∈ body, ∀ id kind,
        ⟨kind, .outside j.address⟩ ∉ (build isa helpers body).successors id) := by
  refine ⟨fun j hj kind => outside_iff_overlooks h hj, ?_⟩
  intro hforward hdisjoint j hj id kind he
  obtain ⟨-, i, hi, hover⟩ := (outside_iff_overlooks h hj).mp ⟨id, he⟩
  exact not_overlooks h hforward hdisjoint hi hj hover

/-- A branch into the middle of the instruction behind it; both ways lead to the return. -/
def overlappingRows : List ListingRow :=
  [⟨0x1000, 2, "je", "0x1004"⟩, ⟨0x1002, 4, "nop", ""⟩, ⟨0x1004, 2, "nop", ""⟩,
   ⟨0x1006, 1, "ret", ""⟩]

/-- What recursive descent finds there. -/
def overlappingBody : List Instruction :=
  Body.descend X64.isa (.ofListing .x64 overlappingRows)
    (.raw .x64 0x1000 (Array.replicate 7 0x90)) (Body.windowEnd 0x1000 0x100) 0x1000

/-- Control falls from the longer instruction into the return, which is in the body, and the edge
leads out all the same. In `checkingBody`, where there is a gap but no overlap, no edge does so. -/
theorem build_outside_iff_overlapping :
    (overlappingBody.Pairwise fun i j => i.address < j.address) ∧
      overlappingBody.map Instruction.address = [0x1000, 0x1002, 0x1004, 0x1006] ∧
      ⟨.fallThrough, .outside 0x1006⟩ ∈ (build X64.isa .empty overlappingBody).successors 1 ∧
      (∃ i ∈ overlappingBody, ∃ j ∈ overlappingBody, j.address = 0x1006 ∧
        Overlooks X64.isa .empty overlappingBody i j) ∧
      ∀ j ∈ checkingBody, ∀ id kind,
        ⟨kind, .outside j.address⟩ ∉
          (build X64.isa checkingHelpers checkingBody).successors id := by
  have haddress : overlappingBody.Pairwise fun i j => i.address < j.address := by decide +kernel
  have hedge : ⟨.fallThrough, .outside 0x1006⟩ ∈
      (build X64.isa .empty overlappingBody).successors 1 := by
    decide +kernel
  have hret : ∃ j ∈ overlappingBody, j.address = 0x1006 := by decide +kernel
  obtain ⟨j, hj, haddr⟩ := hret
  have hover := ((build_outside_iff X64.isa .empty overlappingBody haddress).1 j hj .fallThrough).mp
    ⟨1, haddr ▸ hedge⟩
  obtain ⟨-, i, hi, hover⟩ := hover
  refine ⟨haddress, by decide +kernel, hedge, ⟨i, hi, j, hj, haddr, hover⟩, ?_⟩
  exact (build_outside_iff X64.isa checkingHelpers checkingBody (by decide +kernel)).2
    (by decide +kernel) (by decide +kernel)

end MethodLift.Graph
