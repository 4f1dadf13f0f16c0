import MethodLift.Proofs.Sweeps

/-!
# An exact sweep loses no byte

`Image.byteAt?` is the byte of the file at one address, and `Image.readFrom` reads such bytes one
address at a time until it meets an address without one. An exact sweep reads in chunks instead, and
cuts them short at the end of the window, of a segment and of the file; bytes that do not decode are
skipped in steps that are cut short as well. Where segments are disjoint the seams between chunks
hide nothing: the bytes of the instructions are those that `readFrom` gives
(`sweepExact_loses_no_byte`).

One chunk is a part of the bytes that follow in its segment, and those go on in the bytes of the
next address (`Image.tail_bytesFrom_prefix`), so what has been read so far is always the front of
what `readFrom` reads (`Image.readFrom_eq_append`).
-/

namespace MethodLift

namespace Image

variable {image : Image} {address : UInt64} {limit : Nat}

/-- The byte of the file that is mapped at an address. -/
def byteAt? (image : Image) (address : UInt64) : Option UInt8 := do
  let s ← image.segmentFor? address
  if s.position address < s.fileEnd then image.data[(s.position address).toNat]? else none

/-- The bytes mapped at an address and those after it, one address at a time: at most `count` of
them, and none from the first address on that has no byte. -/
def readFrom (image : Image) : Nat → UInt64 → List UInt8
  | 0, _ => []
  | count + 1, address =>
    match image.byteAt? address with
    | none => []
    | some b => b :: image.readFrom count (address + 1)

/-- No address lies in two segments. -/
def HasDisjointSegments (image : Image) : Prop :=
  image.segments.Pairwise fun s t => ∀ address, s.contains address → ¬ t.contains address

/-! ## One address at a time -/

theorem contains_of_segmentFor? {s : Segment} (h : image.segmentFor? address = some s) :
    s.address ≤ address ∧ address < s.next := by
  have hcontains := List.find?_some h
  simpa [Segment.contains] using hcontains

/-- As much of a segment follows in the file as behind the address. -/
theorem toNat_fileEnd_sub {s : Segment} (h : image.segmentFor? address = some s)
    (hlt : s.position address < s.fileEnd) :
    s.fileEnd.toNat - (s.position address).toNat = s.next.toNat - address.toNat := by
  obtain ⟨-, hin⟩ := contains_of_segmentFor? h
  have hsame : s.fileEnd - s.position address = s.next - address := by
    grind [Segment.fileEnd, Segment.position, Segment.next]
  rw [← UInt64.toNat_sub_of_le _ _ (UInt64.le_of_lt hlt),
    ← UInt64.toNat_sub_of_le _ _ (UInt64.le_of_lt hin), hsame]

theorem head?_bytesFrom (image : Image) (address : UInt64) :
    (image.bytesFrom address).head? = image.byteAt? address := by
  rw [bytesFrom, byteAt?]
  cases hs : image.segmentFor? address with
  | none => rfl
  | some s =>
    dsimp only [Option.bind_eq_bind, Option.bind_some]
    simp only [List.head?_take, List.head?_drop, Array.getElem?_toList, UInt64.lt_iff_toNat_lt]
    split <;> split <;> first | rfl | omega

theorem bytesAt?_eq_none_iff (hlimit : 0 < limit) :
    image.bytesAt? address limit = none ↔ image.byteAt? address = none := by
  rw [← head?_bytesFrom, List.head?_eq_none_iff]
  constructor
  · intro h
    have hbytes := bytesAt?_getD image address limit
    rw [h, Option.getD_none, eq_comm, List.take_eq_nil_iff] at hbytes
    exact hbytes.resolve_left (by omega)
  · intro h
    cases hcode : image.bytesAt? address limit with
    | none => rfl
    | some code =>
      have hempty := eq_take_of_bytesAt? hcode
      rw [h, List.take_nil] at hempty
      exact absurd hempty (ne_nil_of_bytesAt? hcode)

/-! ## The bytes of a segment, address by address -/

/-- Where segments are disjoint, the one that maps an address is the one that is found. -/
theorem segmentFor?_eq_of_mem {s : Segment} (h : image.HasDisjointSegments)
    (hs : s ∈ image.segments) (hcontains : s.contains address) :
    image.segmentFor? address = some s := by
  rw [HasDisjointSegments] at h
  rw [segmentFor?]
  generalize image.segments = ss at h hs ⊢
  induction ss with
  | nil => cases hs
  | cons t ts ih =>
    obtain ⟨ht, hts⟩ := List.pairwise_cons.mp h
    rcases List.mem_cons.mp hs with rfl | hs
    · exact List.find?_cons_of_pos hcontains
    · have hfirst : t.contains address = false := by
        simpa using fun hfirst => ht s hs address hfirst hcontains
      rw [List.find?_cons, hfirst]
      exact ih hts hs

/-- Further on in a segment there are the same bytes, without those passed by. -/
theorem bytesFrom_add {k : Nat} (h : image.HasDisjointSegments)
    (hk : k < (image.bytesFrom address).length) :
    address.toNat + k < UInt64.size ∧
      image.bytesFrom (address + k.toUInt64) = (image.bytesFrom address).drop k := by
  cases hs : image.segmentFor? address with
  | none => simp [bytesFrom, hs] at hk
  | some s =>
    obtain ⟨hle, hlt⟩ := contains_of_segmentFor? hs
    have hleft : k < s.fileEnd.toNat - (s.position address).toNat := by
      rw [bytesFrom, hs, List.length_take] at hk
      omega
    have hnext : k < s.next.toNat - address.toNat := by
      rwa [toNat_fileEnd_sub hs (UInt64.lt_iff_toNat_lt.mpr (by omega))] at hleft
    have hbound : s.next.toNat < UInt64.size := s.next.toNat_lt_size
    have hfits : address.toNat + k < UInt64.size := by omega
    have hadd : (address + k.toUInt64).toNat = address.toNat + k := toNat_add_of_lt hfits
    have hcontains : s.contains (address + k.toUInt64) := by
      rw [UInt64.le_iff_toNat_le] at hle
      simp only [Segment.contains, UInt64.le_iff_toNat_le, UInt64.lt_iff_toNat_lt, hadd,
        Bool.and_eq_true, decide_eq_true_eq]
      omega
    have hsame : image.segmentFor? (address + k.toUInt64) = some s :=
      segmentFor?_eq_of_mem h (List.mem_of_find?_eq_some hs) hcontains
    have hshift : s.position (address + k.toUInt64) = s.position address + k.toUInt64 := by
      grind [Segment.position]
    have hfile : s.fileEnd.toNat < UInt64.size := s.fileEnd.toNat_lt_size
    have hstart : (s.position (address + k.toUInt64)).toNat = (s.position address).toNat + k := by
      rw [hshift]
      exact toNat_add_of_lt (by omega)
    refine ⟨hfits, ?_⟩
    rw [bytesFrom, bytesFrom, hs, hsame]
    simp only [hstart, List.drop_take, List.drop_drop, Nat.sub_sub]

/-- The bytes that follow in a segment are those of the next address. -/
theorem tail_bytesFrom_prefix (h : image.HasDisjointSegments) :
    (image.bytesFrom address).tail <+: image.bytesFrom (address + 1) := by
  rw [← List.drop_one]
  by_cases hmore : 1 < (image.bytesFrom address).length
  · have hrest : image.bytesFrom (address + 1) = (image.bytesFrom address).drop 1 :=
      (bytesFrom_add h hmore).2
    exact ⟨[], by rw [List.append_nil, hrest]⟩
  · rw [List.drop_of_length_le (Nat.not_lt.mp hmore)]
    exact List.nil_prefix

/-- Reading address by address begins with every part of the bytes of a segment. -/
theorem readFrom_eq_append {part : List UInt8} {count : Nat} (h : image.HasDisjointSegments)
    (hpart : part <+: image.bytesFrom address) (hlength : part.length ≤ count)
    (hcount : address.toNat + count < UInt64.size) :
    image.readFrom count address =
      part ++ image.readFrom (count - part.length) (address + part.length.toUInt64) := by
  induction part generalizing address count with
  | nil => simp
  | cons b part ih =>
    obtain ⟨count, rfl⟩ : ∃ n, count = n + 1 := Nat.exists_eq_add_one_of_ne_zero (by
      rw [List.length_cons] at hlength
      omega)
    cases hbytes : image.bytesFrom address with
    | nil => simp [hbytes] at hpart
    | cons c rest =>
      rw [hbytes, List.cons_prefix_cons] at hpart
      obtain ⟨rfl, hpart⟩ := hpart
      have hbyte : image.byteAt? address = some b := by
        rw [← head?_bytesFrom, hbytes, List.head?_cons]
      have hrest : rest <+: image.bytesFrom (address + 1) := by
        have htail : (image.bytesFrom address).tail <+: image.bytesFrom (address + 1) :=
          tail_bytesFrom_prefix h
        rwa [hbytes, List.tail_cons] at htail
      have hlt : address.toNat + 1 < UInt64.size := by omega
      have hsucc : (address + 1).toNat = address.toNat + 1 := toNat_add_of_lt hlt
      have hnext : address + 1 + part.length.toUInt64 = address + (part.length + 1).toUInt64 := by
        rw [UInt64.add_assoc, UInt64.add_comm 1]
        exact congrArg (address + ·) (UInt64.ofNat_add part.length 1).symm
      rw [readFrom, hbyte]
      dsimp only
      rw [ih (hpart.trans hrest) (Nat.le_of_succ_le_succ hlength) (by omega), hnext,
        List.length_cons, Nat.add_sub_add_right, List.cons_append]

end Image

namespace Body

variable {decoder : Decoder} {image : Image} {stop address : UInt64} {i : Instruction}
  {is : List Instruction}

/-! ## Sweeps -/

/-- A fetch gives nothing only where the window or the bytes end. -/
theorem fetch?_eq_none_iff :
    fetch? decoder image stop address = none ↔ stop ≤ address ∨ image.byteAt? address = none := by
  rw [fetch?]
  split
  next hlt =>
    have hpos : 0 < min (stop.toNat - address.toNat) maxInstructionSize := by
      rw [UInt64.lt_iff_toNat_lt] at hlt
      rw [maxInstructionSize]
      omega
    rw [or_iff_right (UInt64.not_le.mpr hlt), ← Image.bytesAt?_eq_none_iff hpos]
    cases hcode : image.bytesAt? address (min (stop.toNat - address.toNat) maxInstructionSize) with
    | none => simp [hcode]
    | some code => simp [hcode]
  next hge => simpa using .inl (UInt64.not_lt.mp hge)

/-- The bytes of a sweep are those that reading address by address gives. -/
theorem ExactSweep.flatMap_bytes (hdecoder : decoder.IsFaithful)
    (himage : image.HasDisjointSegments) (h : ExactSweep decoder image stop address is) :
    is.flatMap (·.bytes) = image.readFrom (stop.toNat - address.toNat) address := by
  induction h with
  | @done address h =>
    rw [List.flatMap_nil]
    rcases fetch?_eq_none_iff.mp h with hstop | hbyte
    · rw [Nat.sub_eq_zero_of_le (UInt64.le_iff_toNat_le.mp hstop), Image.readFrom]
    · cases stop.toNat - address.toNat with
      | zero => rfl
      | succ count => rw [Image.readFrom, hbyte]
  | @more address i is h _ ih =>
    obtain ⟨rfl, hpart, -⟩ := fetch?_part hdecoder h
    obtain ⟨-, hin⟩ := fetch?_isIn hdecoder h
    obtain ⟨hpart, hlength⟩ := List.prefix_take_iff.mp hpart
    have hlt := UInt64.lt_iff_toNat_lt.mp hin.lt
    have hstop : stop.toNat < UInt64.size := stop.toNat_lt_size
    rw [List.flatMap_cons, ih, toNat_next hin, ← Nat.sub_sub]
    exact (Image.readFrom_eq_append himage hpart hlength (by omega)).symm

/-- The instructions that an exact sweep gives hold every byte from the start to the end of the
window, or to the first address that has none. The sweep gives some wherever undecodable bytes are
skipped at all. -/
theorem sweepExact_loses_no_byte (hdecoder : decoder.IsFaithful)
    (himage : image.HasDisjointSegments) (start length : UInt64) :
    let stop := min (start.toNat + length.toNat) (UInt64.size - 1)
    (∀ body, sweepExact decoder image (windowEnd start length) start = some body →
      body.flatMap (·.bytes) = image.readFrom (stop - start.toNat) start) ∧
    (0 < decoder.skip →
      ∃ body, sweepExact decoder image (windowEnd start length) start = some body) := by
  intro stop
  have hstop : (windowEnd start length).toNat = stop := toNat_windowEnd start length
  refine ⟨fun body hbody => ?_, fun hskip => exists_sweepExact hdecoder hskip image _ start⟩
  rw [← hstop]
  exact (exactSweep_of_sweepExact hbody).flatMap_bytes hdecoder himage

/-- Two segments that touch, the higher one first; the file ends within it. -/
def seamed : Image where
  architecture := .x64
  segments := [⟨"high", 0x1004, 4, 8, true⟩, ⟨"low", 0x1000, 0, 4, true⟩]
  data := #[0x90, 0xB8, 0x01, 0x00, 0x00, 0xC3, 0x90]

theorem hasDisjointSegments_seamed : seamed.HasDisjointSegments := by
  refine List.pairwise_pair.mpr fun address hhigh hlow => ?_
  simp only [Segment.contains, Bool.and_eq_true, decide_eq_true_eq] at hhigh hlow
  exact UInt64.not_lt.mpr hhigh.1 hlow.2

/-- The load of five bytes at `0x1001` lies across the seam, so it is cut up; its bytes are there
all the same. -/
theorem sweepExact_loses_no_byte_seamed :
    Encoding.X64.decoder.IsFaithful ∧ seamed.HasDisjointSegments ∧ 0 < Encoding.X64.decoder.skip ∧
    ∃ body, sweepExact Encoding.X64.decoder seamed (windowEnd 0x1001 0x100) 0x1001 = some body ∧
      body.flatMap (·.bytes) = [0xB8, 0x01, 0x00, 0x00, 0xC3, 0x90] := by
  obtain ⟨hbytes, hends⟩ := sweepExact_loses_no_byte Encoding.X64.isFaithful_decoder
    hasDisjointSegments_seamed 0x1001 0x100
  obtain ⟨body, hbody⟩ := hends (by decide)
  exact ⟨Encoding.X64.isFaithful_decoder, hasDisjointSegments_seamed, by decide, body, hbody,
    (hbytes body hbody).trans (by decide)⟩

end Body

end MethodLift
