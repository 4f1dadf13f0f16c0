import MethodLift.Proofs.ExceptionEdges

/-!
# Blocks by address

`Graph.blockContaining?` looks at a single block: of those that start at or before the address, the
one that starts last. It then asks only whether the address lies before the end of that block. Both
are enough where the ranges of the instructions are in order (`InOrder`):

* `exists_covers`: neighbours in a block touch, so every address between its two ends lies in the
  range of an instruction.
* `start_le_of_covers`: the block of an instruction is the last one to start before the addresses
  that the instruction covers.
* `address_queries_exact`: both queries by address, on a built graph with any exception regions.
-/

namespace MethodLift

/-- The address lies in the range of the instruction. -/
def Instruction.Covers (i : Instruction) (address : UInt64) : Prop :=
  i.address ≤ address ∧ address < i.next

instance (i : Instruction) (address : UInt64) : Decidable (i.Covers address) :=
  inferInstanceAs (Decidable (_ ∧ _))

/-- The range of the one instruction comes before that of the other. -/
def Instruction.Precedes (i j : Instruction) : Prop := i.address < j.address ∧ i.next ≤ j.address

instance (i j : Instruction) : Decidable (i.Precedes j) := inferInstanceAs (Decidable (_ ∧ _))

theorem Instruction.Precedes.trans {i j k : Instruction} (hij : i.Precedes j)
    (hjk : j.Precedes k) : i.Precedes k :=
  ⟨UInt64.lt_trans hij.1 hjk.1, UInt64.le_trans hij.2 (UInt64.le_of_lt hjk.1)⟩

namespace Graph

/-- The ranges of the instructions increase and do not overlap. -/
structure InOrder (body : List Instruction) : Prop where
  /-- No range runs past the last address. -/
  forward : ∀ i ∈ body, i.address ≤ i.next
  /-- Each instruction ends at or below the address of the next one. -/
  ascending : body.IsChain Instruction.Precedes

section

variable {is body : List Instruction} {first last i : Instruction} {address : UInt64}

theorem InOrder.pairwise (h : InOrder body) : body.Pairwise Instruction.Precedes := by
  have htrans : Trans Instruction.Precedes Instruction.Precedes Instruction.Precedes :=
    ⟨Instruction.Precedes.trans⟩
  exact h.ascending.pairwise

theorem InOrder.addresses (h : InOrder body) : body.Pairwise fun i j => i.address < j.address :=
  h.pairwise.imp fun hij => hij.1

theorem InOrder.of_infix (h : InOrder body) (his : is <:+: body) : InOrder is :=
  ⟨fun i hi => h.forward i (his.subset hi), h.ascending.infix his⟩

/-- Instructions that touch leave no address between them uncovered. -/
theorem exists_covers (hchain : is.IsChain fun i j => j.address = i.next)
    (hfirst : is.head? = some first) (hlast : is.getLast? = some last)
    (hle : first.address ≤ address) (hlt : address < last.next) :
    ∃ i ∈ is, i.Covers address := by
  induction is generalizing first with
  | nil => cases hfirst
  | cons i rest ih =>
    cases hfirst
    by_cases hin : address < i.next
    · exact ⟨i, List.mem_cons_self .., hle, hin⟩
    · cases rest with
      | nil =>
        cases hlast
        exact absurd hlt hin
      | cons j rest =>
        obtain ⟨hij, hrest⟩ := List.isChain_cons_cons.mp hchain
        rw [List.getLast?_cons_cons] at hlast
        have hj : j.address ≤ address := hij ▸ UInt64.not_lt.mp hin
        obtain ⟨k, hk, hcovers⟩ := ih hrest rfl hlast hj
        exact ⟨k, List.mem_cons_of_mem i hk, hcovers⟩

/-- Nothing ends behind the last instruction. -/
theorem InOrder.next_le_of_last (h : InOrder is) (hlast : is.getLast? = some last) (hi : i ∈ is) :
    i.next ≤ last.next := by
  obtain ⟨front, rfl⟩ := List.getLast?_eq_some_iff.mp hlast
  rcases List.mem_append.mp hi with hfront | hback
  · have hij := (List.pairwise_append.mp h.pairwise).2.2 i hfront last (List.mem_singleton_self _)
    exact UInt64.le_trans hij.2 (h.forward last (by simp))
  · rw [List.mem_singleton.mp hback]
    exact UInt64.le_refl _

/-- Nothing begins before the first instruction. -/
theorem InOrder.address_le_of_first (h : InOrder is) (hfirst : is.head? = some first)
    (hi : i ∈ is) : first.address ≤ i.address := by
  obtain ⟨rest, rfl⟩ := List.head?_eq_some_iff.mp hfirst
  rcases List.mem_cons.mp hi with rfl | hrest
  · exact UInt64.le_refl _
  · exact UInt64.le_of_lt ((List.pairwise_cons.mp h.addresses).1 i hrest)

end

/-! ## The queries -/

section

variable {g : Graph} {address start : UInt64} {id : Nat}

/-- The addresses in the index are those where a block starts. -/
theorem Indexed.mem_keys_iff (h : Indexed g) :
    start ∈ g.byStart.entries.map Prod.fst ↔ ∃ b ∈ g.blocks, b.start = start := by
  rw [FinMap.mem_keys_iff]
  simp only [h.byStart_iff]
  constructor
  · rintro ⟨k, b, hb, hstart⟩
    exact ⟨b, List.mem_of_getElem? hb, hstart⟩
  · rintro ⟨b, hb, hstart⟩
    obtain ⟨k, hk⟩ := List.mem_iff_getElem?.mp hb
    exact ⟨k, b, hk, hstart⟩

theorem lastStart?_eq_some_iff (hindexed : Indexed g) : g.lastStart? address = some start ↔
    (∃ b ∈ g.blocks, b.start = start) ∧ start ≤ address ∧
      ∀ b ∈ g.blocks, b.start ≤ address → b.start ≤ start := by
  have hmax : ∀ x y : UInt64, max x y = if x ≤ y then y else x := fun _ _ => rfl
  have : Std.LawfulOrderMax UInt64 := {
    max_le_iff := fun x y z => by
      rw [hmax]
      split <;> simp only [UInt64.le_iff_toNat_le] at * <;> omega
    max_eq_or := fun x y => by
      rw [hmax]
      split <;> simp }
  simp only [lastStart?, List.max?_eq_some_iff, List.mem_filter, hindexed.mem_keys_iff,
    decide_eq_true_eq]
  constructor
  · rintro ⟨⟨hmem, hle⟩, hlast⟩
    exact ⟨hmem, hle, fun b hb hba => hlast b.start ⟨⟨b, hb, rfl⟩, hba⟩⟩
  · rintro ⟨hmem, hle, hlast⟩
    refine ⟨⟨hmem, hle⟩, ?_⟩
    rintro _ ⟨⟨b, hb, rfl⟩, hba⟩
    exact hlast b hb hba

/-- The block that is found starts last of those before the address, which it has not ended yet. -/
theorem blockContaining?_eq_some_iff (hindexed : Indexed g) :
    g.blockContaining? address = some id ↔ ∃ b, g.blocks[id]? = some b ∧ b.start ≤ address ∧
      address < b.next ∧ ∀ c ∈ g.blocks, c.start ≤ address → c.start ≤ b.start := by
  simp only [blockContaining?, Option.bind_eq_bind, Option.bind_eq_some_iff]
  constructor
  · rintro ⟨start, hstart, k, hk, b, hb, hfound⟩
    split at hfound
    · rename_i hlt
      cases hfound
      obtain ⟨-, hle, hlast⟩ := (lastStart?_eq_some_iff hindexed).mp hstart
      obtain ⟨c, hc, rfl⟩ := (hindexed.byStart_iff _ _).mp hk
      rw [hb] at hc
      cases hc
      rw [hindexed.id_eq k b hb]
      exact ⟨b, hb, hle, hlt, hlast⟩
    · cases hfound
  · rintro ⟨b, hb, hle, hlt, hlast⟩
    have hmem : b ∈ g.blocks := List.mem_of_getElem? hb
    refine ⟨b.start, (lastStart?_eq_some_iff hindexed).mpr ⟨⟨b, hmem, rfl⟩, hle, hlast⟩, id,
      (hindexed.byStart_iff _ _).mpr ⟨b, hb, rfl⟩, b, hb, ?_⟩
    rw [if_pos hlt, hindexed.id_eq id b hb]

end

/-! ## The blocks of a body -/

section

variable {isa : InstructionSet} {helpers : HelperTable} {body : List Instruction} {b c : Block}
  {i : Instruction} {address : UInt64}

/-- A block has a first and a last instruction, which are where it starts and ends. -/
theorem exists_ends_of_mem_carve (hb : b ∈ carve isa helpers body) :
    ∃ first last, b.instructions.head? = some first ∧ b.instructions.getLast? = some last ∧
      b.start = first.address ∧ b.next = last.next := by
  obtain ⟨-, first, hfirst, hstart⟩ := mem_carve hb
  have hne : b.instructions ≠ [] := by
    intro hnil
    rw [hnil] at hfirst
    cases hfirst
  have hlast := List.getLast?_eq_some_getLast hne
  refine ⟨first, b.instructions.getLast hne, hfirst, hlast, hstart.symm, ?_⟩
  rw [Block.next, hlast]

variable (h : InOrder body)

include h

/-- No block starts between the start of a block and an address that one of its instructions
covers. -/
theorem start_le_of_covers (hb : b ∈ carve isa helpers body) (hi : i ∈ b.instructions)
    (hcovers : i.Covers address) (hc : c ∈ carve isa helpers body) (hle : c.start ≤ address) :
    c.start ≤ b.start := by
  obtain ⟨first, -, hfirst, -, hstart, -⟩ := exists_ends_of_mem_carve hb
  obtain ⟨tail, hrun⟩ := List.head?_eq_some_iff.mp hfirst
  obtain ⟨before, after, hbody⟩ := infix_of_mem_carve hb
  obtain ⟨j, hj, hjc⟩ : ∃ j ∈ body.filter (isLeader isa helpers body), j.address = c.start := by
    have hmem := List.mem_map_of_mem (f := Block.start) hc
    rwa [map_start_carve, List.mem_map] at hmem
  obtain ⟨hj, hleader⟩ := List.mem_filter.mp hj
  have hpairs := h.pairwise
  rw [← hbody] at hj hpairs
  rw [← hjc] at hle ⊢
  rw [hstart]
  -- `c` starts with the leader `j`: before the block, in it, or behind it.
  rcases List.mem_append.mp hj with hj | hj
  · rcases List.mem_append.mp hj with hj | hj
    · have hsplit := (List.pairwise_append.mp (List.pairwise_append.mp hpairs).1).2.2
      exact UInt64.le_of_lt (hsplit j hj first (by simp [hrun])).1
    · rw [hrun] at hj
      rcases List.mem_cons.mp hj with rfl | htail
      · exact UInt64.le_refl _
      · have hinside : isLeader isa helpers body j = false :=
          not_of_mem_tail (mem_carve hb).1 (by rwa [hrun])
        rw [hleader] at hinside
        cases hinside
  · have hij := (List.pairwise_append.mp hpairs).2.2 i (List.mem_append_right _ hi) j hj
    have hend := UInt64.lt_of_lt_of_le hcovers.2 hij.2
    exact absurd hle (UInt64.not_le.mpr hend)

/-- An instruction of a block covers the address exactly if the block starts last of those before
the address and has not ended there. -/
theorem exists_covers_iff (hb : b ∈ carve isa helpers body) :
    (∃ i ∈ b.instructions, i.Covers address) ↔ b.start ≤ address ∧ address < b.next ∧
      ∀ c ∈ carve isa helpers body, c.start ≤ address → c.start ≤ b.start := by
  obtain ⟨first, last, hfirst, hlast, hstart, hnext⟩ := exists_ends_of_mem_carve hb
  have hrun : InOrder b.instructions := h.of_infix (infix_of_mem_carve hb)
  constructor
  · rintro ⟨i, hi, hcovers⟩
    refine ⟨?_, ?_, fun c hc hle => start_le_of_covers h hb hi hcovers hc hle⟩
    · rw [hstart]
      exact UInt64.le_trans (hrun.address_le_of_first hfirst hi) hcovers.1
    · rw [hnext]
      exact UInt64.lt_of_lt_of_le hcovers.2 (hrun.next_le_of_last hlast hi)
  · rintro ⟨hle, hlt, -⟩
    have htouch : b.instructions.IsChain fun i j => j.address = i.next := by
      refine (straight_of_mem_carve h.addresses hb).imp fun i j hij => ?_
      simp only [Separates, not_or, Decidable.not_not] at hij
      exact hij.2.2.1
    exact exists_covers htouch hfirst hlast (hstart ▸ hle) (hnext ▸ hlt)

end

/-- For every instruction set, helper table and body with increasing ranges that do not overlap, and
whatever exception regions are attached to its graph: a block is found for an address exactly if one
of its instructions covers the address, and is found at an address exactly if it starts there. -/
theorem address_queries_exact (isa : InstructionSet) (helpers : HelperTable)
    (body : List Instruction) (h : InOrder body) (regions : List ExceptionRegion)
    (address : UInt64) (id : Nat) :
    let g := (build isa helpers body).attachRegions regions
    (g.blockContaining? address = some id ↔
      ∃ b, g.blocks[id]? = some b ∧ ∃ i ∈ b.instructions, i.Covers address) ∧
    (g.blockAt? address = some id ↔ ∃ b, g.blocks[id]? = some b ∧ b.start = address) := by
  intro g
  have hsame : SameBlocks (ofBlocks (carve isa helpers body)) g :=
    (sameBlocks_build isa helpers body).trans
      (keepsFlow_attachRegions (indexed_build (nodup_starts h.addresses)) regions).same
  have hindexed : Indexed g :=
    hsame.indexed (indexed_ofBlocks (fun _ _ => id_of_carve) (nodup_starts h.addresses))
  have hbare : g.blocks.map Block.bare = carve isa helpers body :=
    hsame.bare_eq.trans (map_bare_carve isa helpers body)
  have hlater : ∀ start, (∀ c ∈ g.blocks, c.start ≤ address → c.start ≤ start) ↔
      ∀ c ∈ carve isa helpers body, c.start ≤ address → c.start ≤ start := by
    intro start
    rw [← hbare]
    simp
  have hmem : ∀ b ∈ g.blocks, b.bare ∈ carve isa helpers body := by
    intro b hb
    rw [← hbare]
    exact List.mem_map_of_mem hb
  refine ⟨?_, hindexed.blockAt?_iff⟩
  rw [blockContaining?_eq_some_iff hindexed]
  simp only [hlater]
  constructor
  · rintro ⟨b, hb, hfound⟩
    exact ⟨b, hb, (exists_covers_iff h (hmem b (List.mem_of_getElem? hb))).mpr hfound⟩
  · rintro ⟨b, hb, hcovers⟩
    exact ⟨b, hb, (exists_covers_iff h (hmem b (List.mem_of_getElem? hb))).mp hcovers⟩

/-- In `checkingBody` an address inside the call belongs to its block. The gap before the return
belongs to none, although it lies behind the start of a block. -/
theorem address_queries_exact_checking :
    let g := (build X64.isa checkingHelpers checkingBody).attachRegions [⟨0x1000, 0x100a, 0x1012⟩]
    InOrder checkingBody ∧ g.blockContaining? 0x1007 = some 1 ∧
      g.lastStart? 0x1010 = some 0x100a ∧ (∀ id, g.blockContaining? 0x1010 ≠ some id) ∧
      g.blockAt? 0x1012 = some 3 := by
  intro g
  have horder : InOrder checkingBody := ⟨by decide +kernel, by decide +kernel⟩
  have hexact := address_queries_exact X64.isa checkingHelpers checkingBody horder
    [⟨0x1000, 0x100a, 0x1012⟩]
  have hgap : ∀ b ∈ g.blocks, ∀ i ∈ b.instructions, ¬i.Covers 0x1010 := by decide +kernel
  let call : Instruction := .ofText 0x1005 (List.replicate 5 0x90) "call" "0x2000"
  let exit : Instruction := .ofText 0x1012 (List.replicate 1 0x90) "ret" ""
  refine ⟨horder, (hexact 0x1007 1).1.mpr ?_, by decide +kernel, fun id hid => ?_,
    (hexact 0x1012 3).2.mpr ?_⟩
  · exact ⟨⟨1, 0x1005, [call], [⟨.exception, .block 3⟩], [0]⟩, by decide +kernel, call,
      List.mem_singleton_self _, by decide +kernel⟩
  · obtain ⟨b, hb, i, hi, hcovers⟩ := (hexact 0x1010 id).1.mp hid
    exact hgap b (List.mem_of_getElem? hb) i hi hcovers
  · exact ⟨⟨3, 0x1012, [exit], [], [0, 1]⟩, by decide +kernel, rfl⟩

end Graph

end MethodLift
