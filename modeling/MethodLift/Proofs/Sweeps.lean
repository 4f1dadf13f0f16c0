import MethodLift.Body.Linear
import MethodLift.Encoding.A64
import MethodLift.Encoding.X64

/-!
# Sweeping a window

What a body decoder reads is fetched one instruction at a time, so what holds of one fetch holds of
every walk. A decoder that answers with a non-empty part of the bytes it was shown
(`Decoder.IsFaithful`, which both decoders of the library are) never makes `fetch?` leave the
window, whichever comes first: the end of the window, of the segment or of the file
(`fetch?_isIn`).

A sweep is a run of fetches, each where the one before it ended (`Run`). That is why its
instructions are contiguous and ascend. `ExactSweep` and `LinearSweep` are the sweeps as plain loops
that do not test whether they move on. `sweepExact` and `sweep` give a body exactly where these come
to an end (`sweepExact_eq_some_iff`), as they do wherever undecodable bytes are skipped at all
(`exists_sweepExact`, `exists_sweepFrom`).
-/

namespace MethodLift

/-- The instruction stands at the address and has a non-empty part of the code, from its start
on. -/
structure Instruction.IsCutFrom (code : List UInt8) (address : UInt64) (i : Instruction) :
    Prop where
  address_eq : i.address = address
  bytes_ne_nil : i.bytes ≠ []
  part : i.bytes <+: code

/-- The decoder answers with instructions that it was shown. -/
def Decoder.IsFaithful (decoder : Decoder) : Prop :=
  ∀ code address i, decoder.decode? code address = some i → i.IsCutFrom code address

/-! ## The decoders of the library -/

section Decoders

variable {code raw : List UInt8} {address : UInt64} {i : Instruction}

theorem isCutFrom_ofText (mnemonic operandText : String) (hraw : raw <+: code) (hne : raw ≠ []) :
    (Instruction.ofText address raw mnemonic operandText).IsCutFrom code address where
  address_eq := rfl
  bytes_ne_nil := by simp [Instruction.ofText, maxInstructionSize, hne]
  part := (List.take_prefix _ _).trans hraw

theorem isCutFrom_take {n : Nat} (mnemonic operandText : String) (hn : 0 < n) (hcode : code ≠ []) :
    (Instruction.ofText address (code.take n) mnemonic operandText).IsCutFrom code address :=
  isCutFrom_ofText mnemonic operandText (List.take_prefix _ _) (by simp [hcode]; omega)

namespace Encoding

theorem X64.isCutFrom_fixed? (h : X64.fixed? code address = some i) : i.IsCutFrom code address := by
  have hfixed : ∀ e ∈ X64.fixed, e.1 ≠ [] := by decide
  obtain ⟨e, he, rfl⟩ := Option.map_eq_some_iff.mp h
  have hpart := List.find?_some he
  exact isCutFrom_ofText _ _ (List.isPrefixOf_iff_prefix.mp hpart)
    (hfixed e (List.mem_of_find?_eq_some he))

theorem X64.isCutFrom_relative? (h : X64.relative? code address = some i) :
    i.IsCutFrom code address := by
  obtain ⟨opcode, hopcode, h⟩ := Option.bind_eq_some_iff.mp h
  obtain ⟨⟨mnemonic, size⟩, -, h⟩ := Option.bind_eq_some_iff.mp h
  dsimp only at h
  split at h
  next =>
    cases h
    refine isCutFrom_take _ _ (Nat.succ_pos size) ?_
    rintro rfl
    cases hopcode
  next => cases h

theorem X64.isCutFrom_throughMemory? (h : X64.throughMemory? code address = some i) :
    i.IsCutFrom code address := by
  unfold X64.throughMemory? at h
  split at h
  next =>
    split at h
    next =>
      cases h
      exact isCutFrom_take _ _ (by decide) (List.cons_ne_nil _ _)
    next => cases h
  next => cases h

theorem X64.isFaithful_decoder : X64.decoder.IsFaithful := by
  intro code address i h
  change X64.decode? code address = some i at h
  unfold X64.decode? at h
  cases hfixed : X64.fixed? code address with
  | some j =>
    rw [hfixed] at h
    cases h
    exact X64.isCutFrom_fixed? hfixed
  | none =>
    cases hrelative : X64.relative? code address with
    | some j =>
      rw [hfixed, hrelative] at h
      cases h
      exact X64.isCutFrom_relative? hrelative
    | none =>
      rw [hfixed, hrelative] at h
      exact X64.isCutFrom_throughMemory? h

theorem A64.isFaithful_decoder : A64.decoder.IsFaithful := by
  intro code address i h
  change A64.decode? code address = some i at h
  unfold A64.decode? at h
  dsimp only at h
  split at h
  next hlength =>
    obtain ⟨⟨mnemonic, operands⟩, -, h⟩ := Option.bind_eq_some_iff.mp h
    cases h
    refine isCutFrom_take _ _ (by decide) ?_
    rintro rfl
    cases hlength
  next => cases h

end Encoding

end Decoders

/-! ## Bytes of an image -/

theorem toNat_add_of_lt {address : UInt64} {n : Nat} (h : address.toNat + n < UInt64.size) :
    (address + n.toUInt64).toNat = address.toNat + n := by
  have hn : n.toUInt64.toNat = n := UInt64.toNat_ofNat_of_lt' (by omega)
  rw [UInt64.toNat_add, hn]
  exact Nat.mod_eq_of_lt h

namespace Image

variable {image : Image} {address : UInt64} {limit : Nat} {code bytes : List UInt8}

/-- All bytes from an address to the end of its segment or of the data. -/
def bytesFrom (image : Image) (address : UInt64) : List UInt8 :=
  match image.segmentFor? address with
  | none => []
  | some s =>
    let start := (s.position address).toNat
    (image.data.toList.drop start).take (s.fileEnd.toNat - start)

theorem toList_extract_min (data : Array UInt8) (start last limit : Nat) :
    (data.extract start (min (min last (start + limit)) data.size)).toList =
      ((data.toList.drop start).take (last - start)).take limit := by
  rw [Array.toList_extract, List.extract_eq_take_drop, List.take_take, List.take_eq_take_iff,
    ← Nat.sub_min_sub_right, ← Nat.sub_min_sub_right, Nat.add_sub_cancel_left]
  simp [Nat.min_comm, Nat.min_left_comm]

/-- A limit only cuts off bytes at the end. -/
theorem bytesAt?_getD (image : Image) (address : UInt64) (limit : Nat) :
    (image.bytesAt? address limit).getD [] = (image.bytesFrom address).take limit := by
  rw [bytesAt?, bytesFrom]
  cases hs : image.segmentFor? address with
  | none => exact List.take_nil.symm
  | some s =>
    dsimp only [Option.bind_eq_bind, Option.bind_some]
    rw [← toList_extract_min]
    split
    next => rfl
    next hlt =>
      rw [Option.getD_none, eq_comm, List.eq_nil_iff_length_eq_zero, Array.length_toList,
        Array.size_extract]
      exact Nat.sub_eq_zero_of_le (Nat.le_trans (Nat.min_le_left _ _) (Nat.not_lt.mp hlt))

theorem ne_nil_of_bytesAt? (h : image.bytesAt? address limit = some code) : code ≠ [] := by
  obtain ⟨s, -, hcode⟩ := Option.bind_eq_some_iff.mp h
  dsimp only at hcode
  split at hcode
  next hlt =>
    cases hcode
    rw [ne_eq, List.eq_nil_iff_length_eq_zero, Array.length_toList, Array.size_extract,
      Nat.min_eq_left (Nat.min_le_right _ _)]
    exact Nat.sub_ne_zero_of_lt hlt
  next => cases hcode

theorem eq_take_of_bytesAt? (h : image.bytesAt? address limit = some code) :
    code = (image.bytesFrom address).take limit := by
  rw [← bytesAt?_getD, h, Option.getD_some]

end Image

namespace Body

variable {isa : InstructionSet} {decoder : Decoder} {image : Image} {stop address : UInt64}
  {i : Instruction} {is : List Instruction}

theorem toNat_windowEnd (address length : UInt64) :
    (windowEnd address length).toNat = min (address.toNat + length.toNat) (UInt64.size - 1) := by
  rw [windowEnd]
  split
  next h => rw [UInt64.toNat_add, Nat.mod_eq_of_lt h]; omega
  next h =>
    have hlast : (0xFFFFFFFFFFFFFFFF : UInt64).toNat = UInt64.size - 1 := rfl
    omega

/-! ## One fetch -/

/-- The instruction lies in the window and has the bytes of the image. -/
structure IsIn (image : Image) (stop : UInt64) (i : Instruction) : Prop where
  lt : i.address < stop
  fits : i.address.toNat + i.size ≤ stop.toNat
  bytes : (image.bytesAt? i.address i.size).getD [] = i.bytes

theorem toNat_next (h : IsIn image stop i) : i.next.toNat = i.address.toNat + i.size :=
  toNat_add_of_lt (Nat.lt_of_le_of_lt h.fits stop.toNat_lt_size)

/-- What a fetch gives stands at its address and is a part of the bytes there. -/
theorem fetch?_part (hdecoder : decoder.IsFaithful)
    (h : fetch? decoder image stop address = some i) :
    i.address = address ∧
      i.bytes <+: (image.bytesFrom address).take (stop.toNat - address.toNat) ∧
      (0 < decoder.skip → i.bytes ≠ []) := by
  rw [fetch?, if_pos (lt_of_fetch? h)] at h
  obtain ⟨code, hcode, hi⟩ := Option.bind_eq_some_iff.mp h
  have hwindow : code <+: (image.bytesFrom address).take (stop.toNat - address.toNat) := by
    rw [Image.eq_take_of_bytesAt? hcode]
    exact List.take_prefix_take_left (Nat.min_le_left _ _)
  cases hdecode : decoder.decode? code address with
  | some j =>
    have hcut := hdecoder code address j hdecode
    rw [hdecode] at hi
    cases hi
    exact ⟨hcut.address_eq, hcut.part.trans hwindow, fun _ => hcut.bytes_ne_nil⟩
  | none =>
    rw [hdecode] at hi
    cases hi
    refine ⟨rfl, ((List.take_prefix _ _).trans (List.take_prefix _ _)).trans hwindow, ?_⟩
    intro hskip
    have hne := Image.ne_nil_of_bytesAt? hcode
    change ((code.take decoder.skip).take maxInstructionSize) ≠ []
    simp [List.take_eq_nil_iff, maxInstructionSize, hne]
    omega

theorem fetch?_isIn (hdecoder : decoder.IsFaithful)
    (h : fetch? decoder image stop address = some i) : i.address = address ∧ IsIn image stop i := by
  obtain ⟨rfl, hpart, -⟩ := fetch?_part hdecoder h
  have hlength := hpart.length_le
  rw [List.length_take] at hlength
  have hlt := lt_of_fetch? h
  refine ⟨rfl, hlt, ?_, ?_⟩
  · rw [UInt64.lt_iff_toNat_lt] at hlt
    rw [Instruction.size]
    omega
  · rw [Image.bytesAt?_getD]
    exact (List.prefix_iff_eq_take.mp (hpart.trans (List.take_prefix _ _))).symm

theorem lt_next_of_fetch? (hdecoder : decoder.IsFaithful) (hskip : 0 < decoder.skip)
    (h : fetch? decoder image stop address = some i) : address < i.next := by
  obtain ⟨rfl, hin⟩ := fetch?_isIn hdecoder h
  have hsize : 0 < i.size := List.length_pos_iff.mpr ((fetch?_part hdecoder h).2.2 hskip)
  rw [UInt64.lt_iff_toNat_lt, toNat_next hin]
  omega

/-! ## Runs of fetches -/

/-- Instructions fetched one after the other, each where the one before it ended. Only after the
last one may the address stand still. -/
inductive Run (decoder : Decoder) (image : Image) (stop : UInt64) :
    UInt64 → List Instruction → Prop
  | nil (address : UInt64) : Run decoder image stop address []
  | last {address : UInt64} {i : Instruction} (h : fetch? decoder image stop address = some i) :
      Run decoder image stop address [i]
  | cons {address : UInt64} {i : Instruction} {is : List Instruction}
      (h : fetch? decoder image stop address = some i) (hlt : address < i.next)
      (hrest : Run decoder image stop i.next is) : Run decoder image stop address (i :: is)

/-- All that an exact sweep can do: find nothing, or go on where the instruction it found ends. -/
theorem sweepExact_cases (h : sweepExact decoder image stop address = some is) :
    (fetch? decoder image stop address = none ∧ is = []) ∨
    (∃ i rest, fetch? decoder image stop address = some i ∧ address < i.next ∧
      sweepExact decoder image stop i.next = some rest ∧ is = i :: rest) := by
  rw [sweepExact] at h
  split at h
  next hnone => exact .inl ⟨hnone, (Option.some.inj h).symm⟩
  next i hfetch =>
    split at h
    next hlt =>
      obtain ⟨rest, hrest, rfl⟩ := Option.map_eq_some_iff.mp h
      exact .inr ⟨i, rest, hfetch, hlt, hrest, rfl⟩
    next => cases h

/-- All that a sweep can do with what it finds: nothing, end with it, or go on where it ends. -/
theorem sweepFrom_cases {pending : List UInt64}
    (h : sweepFrom isa decoder image stop pending address = some is) :
    (fetch? decoder image stop address = none ∧ is = []) ∨
    (∃ i, fetch? decoder image stop address = some i ∧ (isa.kind i).endsFlow = true ∧
      pendingAfter (isa.kind i) i stop pending = [] ∧ is = [i]) ∨
    (∃ i rest, fetch? decoder image stop address = some i ∧
      ((isa.kind i).endsFlow = true → pendingAfter (isa.kind i) i stop pending ≠ []) ∧
      address < i.next ∧
      sweepFrom isa decoder image stop (pendingAfter (isa.kind i) i stop pending) i.next =
        some rest ∧ is = i :: rest) := by
  rw [sweepFrom] at h
  split at h
  next hnone => exact .inl ⟨hnone, (Option.some.inj h).symm⟩
  next i hfetch =>
    simp only [Bool.and_eq_true, List.isEmpty_iff] at h
    split at h
    next hends => exact .inr (.inl ⟨i, hfetch, hends.1, hends.2, (Option.some.inj h).symm⟩)
    next hgoes =>
      split at h
      next hlt =>
        obtain ⟨rest, hrest, rfl⟩ := Option.map_eq_some_iff.mp h
        exact .inr (.inr ⟨i, rest, hfetch, not_and.mp hgoes, hlt, hrest, rfl⟩)
      next => cases h

theorem run_of_sweepFrom {pending : List UInt64}
    (h : sweepFrom isa decoder image stop pending address = some is) :
    Run decoder image stop address is := by
  induction is generalizing pending address with
  | nil => exact .nil address
  | cons i is ih =>
    obtain ⟨-, hnil⟩ | ⟨j, hfetch, -, -, heq⟩ | ⟨j, rest, hfetch, -, hlt, hrest, heq⟩ :=
      sweepFrom_cases h
    · cases hnil
    · cases heq
      exact .last hfetch
    · cases heq
      exact .cons hfetch hlt (ih hrest)

namespace Run

variable (hdecoder : decoder.IsFaithful) (h : Run decoder image stop address is)
include hdecoder h

theorem isIn : ∀ i ∈ is, address ≤ i.address ∧ IsIn image stop i := by
  have hfirst : ∀ {address i}, fetch? decoder image stop address = some i →
      address ≤ i.address ∧ IsIn image stop i := by
    intro address i hfetch
    obtain ⟨rfl, hin⟩ := fetch?_isIn hdecoder hfetch
    exact ⟨UInt64.le_refl _, hin⟩
  induction h with
  | nil => simp
  | last hfetch => simpa using hfirst hfetch
  | cons hfetch hlt _ ih =>
    refine List.forall_mem_cons.mpr ⟨hfirst hfetch, fun j hj => ?_⟩
    exact ⟨UInt64.le_of_lt (UInt64.lt_of_lt_of_le hlt (ih j hj).1), (ih j hj).2⟩

theorem ascending : is.Pairwise (·.address < ·.address) := by
  induction h with
  | nil => exact List.Pairwise.nil
  | last => simp
  | cons hfetch hlt hrest ih =>
    refine List.pairwise_cons.mpr ⟨fun j hj => ?_, ih⟩
    rw [(fetch?_isIn hdecoder hfetch).1]
    exact UInt64.lt_of_lt_of_le hlt (hrest.isIn hdecoder j hj).1

end Run

/-! ## Sweeps as loops -/

/-- The sweep of a window of known length as a loop: read the instruction at the address, go on
where it ends, stop when nothing can be read. -/
inductive ExactSweep (decoder : Decoder) (image : Image) (stop : UInt64) :
    UInt64 → List Instruction → Prop
  | done {address : UInt64} (h : fetch? decoder image stop address = none) :
      ExactSweep decoder image stop address []
  | more {address : UInt64} {i : Instruction} {is : List Instruction}
      (h : fetch? decoder image stop address = some i)
      (hrest : ExactSweep decoder image stop i.next is) :
      ExactSweep decoder image stop address (i :: is)

/-- The sweep of a body whose end is guessed, as a loop that also stops once an instruction ends
flow with no target pending. -/
inductive LinearSweep (isa : InstructionSet) (decoder : Decoder) (image : Image) (stop : UInt64) :
    List UInt64 → UInt64 → List Instruction → Prop
  | done {pending : List UInt64} {address : UInt64}
      (h : fetch? decoder image stop address = none) :
      LinearSweep isa decoder image stop pending address []
  | finished {pending : List UInt64} {address : UInt64} {i : Instruction}
      (h : fetch? decoder image stop address = some i)
      (hends : (isa.kind i).endsFlow = true)
      (hpending : pendingAfter (isa.kind i) i stop pending = []) :
      LinearSweep isa decoder image stop pending address [i]
  | more {pending : List UInt64} {address : UInt64} {i : Instruction} {is : List Instruction}
      (h : fetch? decoder image stop address = some i)
      (hgoes : (isa.kind i).endsFlow = true → pendingAfter (isa.kind i) i stop pending ≠ [])
      (hrest : LinearSweep isa decoder image stop (pendingAfter (isa.kind i) i stop pending)
        i.next is) :
      LinearSweep isa decoder image stop pending address (i :: is)

theorem exactSweep_of_sweepExact (h : sweepExact decoder image stop address = some is) :
    ExactSweep decoder image stop address is := by
  induction is generalizing address with
  | nil =>
    obtain ⟨hnone, -⟩ | ⟨i, rest, -, -, -, heq⟩ := sweepExact_cases h
    · exact .done hnone
    · cases heq
  | cons i is ih =>
    obtain ⟨-, hnil⟩ | ⟨j, rest, hfetch, -, hrest, heq⟩ := sweepExact_cases h
    · cases hnil
    · cases heq
      exact .more hfetch (ih hrest)

theorem linearSweep_of_sweepFrom {pending : List UInt64}
    (h : sweepFrom isa decoder image stop pending address = some is) :
    LinearSweep isa decoder image stop pending address is := by
  induction is generalizing pending address with
  | nil =>
    obtain ⟨hnone, -⟩ | ⟨i, -, -, -, heq⟩ | ⟨i, rest, -, -, -, -, heq⟩ := sweepFrom_cases h
    · exact .done hnone
    · cases heq
    · cases heq
  | cons i is ih =>
    obtain ⟨-, hnil⟩ | ⟨j, hfetch, hends, hpending, heq⟩ |
      ⟨j, rest, hfetch, hgoes, -, hrest, heq⟩ := sweepFrom_cases h
    · cases hnil
    · cases heq
      exact .finished hfetch hends hpending
    · cases heq
      exact .more hfetch hgoes (ih hrest)

/-! ## Sweeps that end -/

section Ends

variable (hdecoder : decoder.IsFaithful)
include hdecoder

theorem le_next_of_fetch? (h : fetch? decoder image stop address = some i) : address ≤ i.next := by
  obtain ⟨rfl, hin⟩ := fetch?_isIn hdecoder h
  rw [UInt64.le_iff_toNat_le, toNat_next hin]
  omega

omit hdecoder in
/-- A loop that comes to an end moves on with every instruction. -/
theorem ExactSweep.next_ne (h : ExactSweep decoder image stop address is)
    (hfetch : fetch? decoder image stop address = some i) : i.next ≠ address := by
  induction h with
  | done hnone => rw [hnone] at hfetch; cases hfetch
  | more hmore _ ih =>
    intro hstill
    cases hmore.symm.trans hfetch
    exact ih (hstill.symm ▸ hfetch) rfl

/-- The sweep gives a body exactly where the loop comes to an end, and the same one. -/
theorem sweepExact_eq_some_iff :
    sweepExact decoder image stop address = some is ↔ ExactSweep decoder image stop address is := by
  refine ⟨exactSweep_of_sweepExact, fun h => ?_⟩
  induction h with
  | done h =>
    rw [sweepExact]
    split
    next => rfl
    next i hfetch => cases h.symm.trans hfetch
  | @more address i is h hrest ih =>
    have hne : i.next ≠ address := ExactSweep.next_ne (.more h hrest) h
    have hlt : address < i.next := UInt64.lt_of_le_of_ne (le_next_of_fetch? hdecoder h) hne.symm
    rw [sweepExact]
    split
    next hnone => cases h.symm.trans hnone
    next j hfetch =>
      cases h.symm.trans hfetch
      rw [if_pos hlt, ih, Option.map_some]

variable (hskip : 0 < decoder.skip)
include hskip

/-- Where undecodable bytes are skipped, every window is swept to its end. -/
theorem exists_sweepExact (image : Image) (stop address : UInt64) :
    ∃ is, sweepExact decoder image stop address = some is := by
  fun_induction sweepExact decoder image stop address with
  | case1 address h => exact ⟨[], rfl⟩
  | case2 address i h hlt ih =>
    obtain ⟨is, his⟩ := ih
    exact ⟨i :: is, by rw [his, Option.map_some]⟩
  | case3 address i h hlt => exact absurd (lt_next_of_fetch? hdecoder hskip h) hlt

theorem exists_sweepFrom (isa : InstructionSet) (image : Image) (stop : UInt64)
    (pending : List UInt64) (address : UInt64) :
    ∃ is, sweepFrom isa decoder image stop pending address = some is := by
  fun_induction sweepFrom isa decoder image stop pending address with
  | case1 pending address h => exact ⟨[], rfl⟩
  | case2 pending address i h => exact ⟨[i], rfl⟩
  | case3 pending address i h kind next hends hlt ih =>
    obtain ⟨is, his⟩ := ih
    exact ⟨i :: is, by rw [his, Option.map_some]⟩
  | case4 pending address i h kind next hends hlt =>
    exact absurd (lt_next_of_fetch? hdecoder hskip h) hlt

end Ends

end Body

end MethodLift
