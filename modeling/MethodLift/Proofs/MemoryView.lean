import Mathlib.Data.Nat.Digits.Defs
import MethodLift.Proofs.ByteCoverage

/-!
# One view of memory

Every read looks its segment up anew and is cut short at three limits: the number of bytes asked
for, the end of the segment and the end of the file. Where segments are disjoint, all reads are
still parts of one memory (`reads_agree`): `bytesFrom_add` says that the bytes from a later address
of a segment are the rest of those from an earlier one, and a limit only cuts off bytes at the end
(`bytesAt?_eq_some_iff`). A segment that would run past the last address has no addresses at all, so
nothing has to be said about those.
-/

namespace MethodLift

/-- The bytes are the digits of their value to the base 256, lowest first. -/
theorem littleEndian_eq_ofDigits (bytes : List UInt8) :
    littleEndian bytes = Nat.ofDigits 256 (bytes.map UInt8.toNat) := by
  induction bytes with
  | nil => rfl
  | cons b bytes ih => rw [littleEndian, ih, List.map_cons, Nat.ofDigits_cons]

theorem littleEndian_lt {bytes : List UInt8} (h : bytes.length = 8) :
    littleEndian bytes < UInt64.size := by
  have hdigits : ∀ d ∈ bytes.map UInt8.toNat, d < 256 := by
    intro d hd
    obtain ⟨b, -, rfl⟩ := List.mem_map.mp hd
    exact b.toNat_lt
  have hlt := Nat.ofDigits_lt_base_pow_length (by decide) hdigits
  rw [List.length_map, h] at hlt
  rw [littleEndian_eq_ofDigits]
  exact hlt

namespace Image

variable {image : Image} {address : UInt64} {limit k : Nat} {bytes : List UInt8} {s : Segment}

/-! ## Reads -/

theorem toNat_position_le (h : s.address ≤ address) :
    (s.position address).toNat ≤ s.offset + (address.toNat - s.address.toNat) := by
  rw [Segment.position, UInt64.toNat_add, UInt64.toNat_sub_of_le _ _ h]
  exact (Nat.mod_le _ _).trans (Nat.add_le_add_right (Nat.mod_le _ _) _)

/-- A read gives the bytes of the segment up to the limit, if there are any. -/
theorem bytesAt?_eq_some_iff : image.bytesAt? address limit = some bytes ↔
    bytes = (image.bytesFrom address).take limit ∧ bytes ≠ [] := by
  constructor
  · exact fun h => ⟨eq_take_of_bytesAt? h, ne_nil_of_bytesAt? h⟩
  · rintro ⟨rfl, hne⟩
    rw [← bytesAt?_getD] at hne ⊢
    cases h : image.bytesAt? address limit with
    | none => simp [h] at hne
    | some bytes => rfl

/-- What a read of at most `limit` bytes says about the memory around it. -/
structure ReadsAt (image : Image) (address : UInt64) (limit : Nat) (bytes : List UInt8) :
    Prop where
  pos : 0 < bytes.length
  le : bytes.length ≤ limit
  /-- A read of as many bytes as remain, from any address passed by, gives the rest. -/
  rest : ∀ k < bytes.length,
    image.bytesAt? (address + k.toUInt64) (limit - k) = some (bytes.drop k)
  /-- A read falls short only where the segment ends or the next byte is none of the file. -/
  short : bytes.length < limit → ∃ s, image.segmentFor? address = some s ∧
    (address.toNat + bytes.length = s.next.toNat ∨
      image.data.size ≤ s.offset + (address.toNat + bytes.length - s.address.toNat))

theorem readsAt_of_bytesAt? (hdisjoint : image.HasDisjointSegments)
    (h : image.bytesAt? address limit = some bytes) : ReadsAt image address limit bytes := by
  obtain ⟨s, hs, -⟩ := Option.bind_eq_some_iff.mp h
  obtain ⟨hbytes, hne⟩ := bytesAt?_eq_some_iff.mp h
  have hlength : bytes.length = min limit (image.bytesFrom address).length := by
    rw [hbytes, List.length_take]
  refine ⟨List.length_pos_iff.mpr hne, by omega, fun k hk => ?_, fun hlt => ⟨s, hs, ?_⟩⟩
  · rw [bytesAt?_eq_some_iff, (bytesFrom_add hdisjoint (by omega)).2, ← List.drop_take, ← hbytes]
    refine ⟨rfl, ?_⟩
    rw [ne_eq, List.drop_eq_nil_iff]
    omega
  · -- The bytes of the segment run out, and they do so at its end or at that of the file.
    have hpos : 0 < (image.bytesFrom address).length := by
      have := List.length_pos_iff.mpr hne
      omega
    obtain ⟨hle, hin⟩ := contains_of_segmentFor? hs
    have hposition := toNat_position_le hle
    rw [UInt64.le_iff_toNat_le] at hle
    rw [UInt64.lt_iff_toNat_lt] at hin
    simp only [bytesFrom, hs, List.length_take, List.length_drop, Array.length_toList]
      at hlength hpos
    have hleft := toNat_fileEnd_sub hs (UInt64.lt_iff_toNat_lt.mpr (by omega))
    omega

theorem word?_eq_some_iff {v : UInt64} : image.word? address = some v ↔
    ∃ bytes, image.bytesAt? address 8 = some bytes ∧ bytes.length = 8 ∧
      v.toNat = Nat.ofDigits 256 (bytes.map UInt8.toNat) := by
  rw [word?, Option.bind_eq_bind, Option.bind_eq_some_iff]
  refine exists_congr fun bytes => and_congr_right fun _ => ?_
  split
  · rename_i hlength
    have hvalue : (littleEndian bytes).toUInt64.toNat = littleEndian bytes :=
      UInt64.toNat_ofNat_of_lt' (littleEndian_lt hlength)
    rw [Option.some.injEq, ← UInt64.toNat_inj, hvalue, littleEndian_eq_ofDigits]
    exact ⟨fun hv => ⟨hlength, hv.symm⟩, fun hv => hv.2.symm⟩
  · rename_i hlength
    exact ⟨fun hv => (nomatch hv), fun hv => absurd hv.1 hlength⟩

/-- Where segments are disjoint, all reads show one memory. A read gives something wherever the file
has a byte and one is asked for; it is not longer than asked, agrees with the reads from all
addresses that it passes, and is cut short only at the end of the segment or of the file. A word is
the little-endian value of the eight bytes read at its address. -/
theorem reads_agree (image : Image) (hdisjoint : image.HasDisjointSegments) (address : UInt64)
    (limit : Nat) :
    (0 < limit → (image.bytesAt? address limit = none ↔ image.byteAt? address = none)) ∧
    (∀ bytes, image.bytesAt? address limit = some bytes → ReadsAt image address limit bytes) ∧
    ∀ v, image.word? address = some v ↔
      ∃ bytes, image.bytesAt? address 8 = some bytes ∧ bytes.length = 8 ∧
        v.toNat = Nat.ofDigits 256 (bytes.map UInt8.toNat) :=
  ⟨bytesAt?_eq_none_iff, fun _ h => readsAt_of_bytesAt? hdisjoint h,
    fun _ => word?_eq_some_iff⟩

/-- Nine bytes and, right behind them, a segment of which the file has three bytes only. -/
def clipped : Image where
  architecture := .x64
  segments := [⟨"data", 0x1009, 9, 8, false⟩, ⟨"text", 0x1000, 0, 9, true⟩]
  data := #[0x01, 0x02, 0x03, 0x04, 0x05, 0x06, 0x07, 0x08, 0x09, 0x0A, 0x0B, 0x0C]

/-- Reads of `clipped` that end at the seam, at the end of the file and in the middle. -/
theorem reads_agree_clipped :
    clipped.HasDisjointSegments ∧
      clipped.bytesAt? 0x1005 8 = some [0x06, 0x07, 0x08, 0x09] ∧
      clipped.bytesAt? (0x1005 + 2) 6 = some [0x08, 0x09] ∧
      ReadsAt clipped 0x100A 8 [0x0B, 0x0C] ∧ clipped.word? 0x1001 = some 0x0908070605040302 := by
  have hdisjoint : clipped.HasDisjointSegments := by
    refine List.pairwise_pair.mpr fun address hdata htext => ?_
    simp only [Segment.contains, Bool.and_eq_true, decide_eq_true_eq] at hdata htext
    exact UInt64.not_lt.mpr hdata.1 htext.2
  have hagree := reads_agree clipped hdisjoint
  have hseam : clipped.bytesAt? 0x1005 8 = some [0x06, 0x07, 0x08, 0x09] := by decide
  refine ⟨hdisjoint, hseam, ((hagree 0x1005 8).2.1 _ hseam).rest 2 (by decide),
    (hagree 0x100A 8).2.1 _ (by decide), ((hagree 0x1001 8).2.2 _).mpr ?_⟩
  exact ⟨[0x02, 0x03, 0x04, 0x05, 0x06, 0x07, 0x08, 0x09], by decide, rfl, by decide⟩

end Image

end MethodLift
