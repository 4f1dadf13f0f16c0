import MethodLift.Operand.Reader
import MethodLift.Proofs.WrittenText

/-!
# Operand text read back

`Operand.render` writes an operand and `Operand.readAll` reads a whole operand text. A written text
says everything about an operand that has no size, no segment and only known registers, so reading
gives the operands back (`readAll_render`). That includes the smallest word, whose magnitude is past
the signed range, and a negative displacement with no register before it, which is written as the
unsigned word.

The argument follows the reader: signed words, the words of a sum, one bracketed reference, one
operand, and last the texts with commas between them.
-/

namespace MethodLift

open MethodLift.Text

namespace Operand

/-! ## Signed words -/

/-- A number in hexadecimal, as a list of characters. -/
def hexText (n : Nat) : List Char := '0' :: 'x' :: Nat.toDigits 16 n

theorem toList_hexMagnitude (v : Int64) : (hexMagnitude v).toList = hexText v.toInt.natAbs := by
  simp [hexMagnitude, hex, hexText]

theorem toList_hexWord (v : Int64) : (hexWord v).toList = hexText v.toUInt64.toNat := by
  simp [hexWord, hex, hexText]

theorem isWord_hexText (n : Nat) : IsWord (hexText n) :=
  isWord_cons (by decide) (List.forall_mem_cons.mpr
    ⟨by decide, fun _ => isWordChar_of_mem_toDigits (by decide) (by decide) n⟩)

theorem star_notMem_hexText (n : Nat) : '*' ∉ hexText n := by
  have hdigits : '*' ∉ Nat.toDigits 16 n := fun hmem =>
    absurd (mem_toDigits (by decide) (by decide) n hmem) (by decide)
  simp [hexText, hdigits]

theorem readMagnitude_hexText {n : Nat} (h : n < UInt64.size) :
    readMagnitude (hexText n) = some n.toUInt64 := by
  have hread : readUpTo 16 (UInt64.size - 1) (Nat.toDigits 16 n) = some n :=
    readUpTo_toDigits (by decide) (by decide) (Nat.le_sub_one_of_lt h)
  change (readUpTo 16 (UInt64.size - 1) (Nat.toDigits 16 n)).map Nat.toUInt64 = _
  rw [hread, Option.map_some]

theorem toInt64_toUInt64 (n : Nat) : n.toUInt64.toInt64 = Int64.ofNat n := UInt64.toInt64_ofNat'

theorem readInteger_hexText {n : Nat} (h : n < UInt64.size) :
    readInteger (hexText n) = some (Int64.ofNat n) := by
  rw [readInteger, (isWord_hexText n).trim_eq]
  change (readMagnitude (hexText n)).map UInt64.toInt64 = _
  rw [readMagnitude_hexText h, Option.map_some, toInt64_toUInt64]

theorem readInteger_minus_hexText {n : Nat} (h : n < UInt64.size) :
    readInteger ('-' :: hexText n) = some (-Int64.ofNat n) := by
  have hword : IsWord ('-' :: hexText n) := isWord_cons (by decide) (isWord_hexText n).chars
  rw [readInteger, hword.trim_eq]
  change (readMagnitude (hexText n)).map (fun m => -m.toInt64) = _
  rw [readMagnitude_hexText h, Option.map_some, toInt64_toUInt64]

theorem natAbs_lt_size (v : Int64) : v.toInt.natAbs < UInt64.size := by
  have hlow := v.le_toInt
  have hhigh := v.toInt_lt
  have hsize : UInt64.size = 2 ^ 64 := rfl
  omega

theorem ofNat_natAbs_of_nonneg {v : Int64} (h : ¬v < 0) : Int64.ofNat v.toInt.natAbs = v := by
  rw [Int64.lt_iff_toInt_lt, Int64.toInt_zero] at h
  rw [← Int64.ofInt_eq_ofNat, Int.natAbs_of_nonneg (by omega), Int64.ofInt_toInt]

/-- The magnitude of the smallest word is that word again, and so is its negation. -/
theorem neg_ofNat_natAbs_of_neg {v : Int64} (h : v < 0) : -Int64.ofNat v.toInt.natAbs = v := by
  rw [Int64.lt_iff_toInt_lt, Int64.toInt_zero] at h
  have habs : (v.toInt.natAbs : Int) = -v.toInt := by omega
  rw [← Int64.ofInt_eq_ofNat, habs, Int64.neg_ofInt, Int.neg_neg, Int64.ofInt_toInt]

theorem ofNat_toUInt64 (v : Int64) : Int64.ofNat v.toUInt64.toNat = v := by
  rw [← UInt64.toInt64_ofNat', UInt64.ofNat_toNat, Int64.toInt64_toUInt64]

end Operand

/-! ## Sums -/

/-- What a memory reference without size and segment may hold, if its text is to say it all: known
registers, and a multiplier only with an index. An index alone would be read as a base, so there
the multiplier has to be written. -/
structure Memory.IsReadable (m : Memory) : Prop where
  size : m.size = none
  segment : m.segment = none
  base : ∀ name ∈ m.base, isRegisterName name = true
  index : ∀ name ∈ m.index, isRegisterName name = true
  scale_of_no_index : m.index = none → m.scale = 1
  scale_of_index : m.index ≠ none → 1 ≤ m.scale
  scale_of_index_alone : m.base = none → m.index ≠ none → 2 ≤ m.scale

namespace Memory

instance (m : Memory) : Decidable m.IsReadable :=
  decidable_of_iff
    (m.size = none ∧ m.segment = none ∧ (∀ name ∈ m.base, isRegisterName name = true) ∧
      (∀ name ∈ m.index, isRegisterName name = true) ∧ (m.index = none → m.scale = 1) ∧
      (m.index ≠ none → 1 ≤ m.scale) ∧ (m.base = none → m.index ≠ none → 2 ≤ m.scale))
    ⟨fun ⟨hsize, hsegment, hbase, hindex, hnone, hsome, halone⟩ =>
      ⟨hsize, hsegment, hbase, hindex, hnone, hsome, halone⟩,
    fun h => ⟨h.size, h.segment, h.base, h.index, h.scale_of_no_index, h.scale_of_index,
      h.scale_of_index_alone⟩⟩

/-- The words for a displacement after a register. -/
def offsetWords (v : Int64) : List (List Char) :=
  if v = 0 then []
  else if v < 0 then [['-'], Operand.hexText v.toInt.natAbs]
  else [['+'], Operand.hexText v.toInt.natAbs]

/-- The word for an index. -/
def indexWord (name : String) (scale : UInt8) : List Char :=
  if 1 < scale then name.toList ++ '*' :: Nat.toDigits 10 scale.toNat else name.toList

/-- The words of a written reference. -/
def sumWords (m : Memory) : List (List Char) :=
  match m.base, m.index with
  | none, none => [Operand.hexText m.displacement.toUInt64.toNat]
  | some b, none => b.toList :: offsetWords m.displacement
  | none, some i => indexWord i m.scale :: offsetWords m.displacement
  | some b, some i => b.toList :: ['+'] :: indexWord i m.scale :: offsetWords m.displacement

theorem toList_indexTerm (name : String) (scale : UInt8) :
    (if 1 < scale then name ++ "*" ++ toString scale.toNat else name).toList =
      indexWord name scale := by
  rw [indexWord]
  split
  · simp [Nat.toString_eq_repr, Nat.toList_repr]
  · rfl

theorem toList_offset (registers : String) (v : Int64) :
    (if v = 0 then registers
      else if v < 0 then registers ++ " - " ++ hexMagnitude v
      else registers ++ " + " ++ hexMagnitude v).toList =
      [' '].intercalate (registers.toList :: offsetWords v) := by
  by_cases hzero : v = 0
  · simp [offsetWords, hzero, List.intercalate]
  · by_cases hneg : v < 0 <;>
      simp [offsetWords, hzero, hneg, List.intercalate, Operand.toList_hexMagnitude]

/-- A reference is written as its words with single spaces between them, in brackets. -/
theorem toList_render (m : Memory) :
    m.render.toList = '[' :: ([' '].intercalate m.sumWords ++ [']']) := by
  obtain ⟨base, index, scale, displacement, size, segment⟩ := m
  have hbrackets : ∀ inner : String,
      ("[" ++ inner ++ "]").toList = '[' :: (inner.toList ++ [']']) := by simp
  cases base with
  | none =>
    cases index with
    | none =>
      change ("[" ++ hexWord displacement ++ "]").toList = _
      rw [hbrackets, Operand.toList_hexWord]
      simp [sumWords, List.intercalate]
    | some i =>
      refine (hbrackets _).trans ?_
      simp only [registerTerms, Option.toList_none, Option.map_some, Option.toList_some,
        List.nil_append, List.isEmpty_cons, String.intercalate_singleton, if_false,
        Bool.false_eq_true, toList_offset, toList_indexTerm, sumWords]
  | some b =>
    cases index with
    | none =>
      refine (hbrackets _).trans ?_
      simp only [registerTerms, Option.map_none, Option.toList_some, Option.toList_none,
        List.append_nil, List.isEmpty_cons, String.intercalate_singleton, if_false,
        Bool.false_eq_true, toList_offset, sumWords]
    | some i =>
      refine (hbrackets _).trans ?_
      simp only [registerTerms, Option.map_some, Option.toList_some, List.singleton_append,
        List.isEmpty_cons, if_false, Bool.false_eq_true, toList_offset, sumWords]
      have hpair : ∀ x : String, (" + ".intercalate [b, x]).toList =
          b.toList ++ [' '] ++ ['+'] ++ [' '] ++ x.toList := by
        simp
      rw [hpair, toList_indexTerm, intercalate_append_cons, List.intercalate_cons_cons,
        List.intercalate_cons_cons]
      simp only [List.append_assoc]

end Memory

namespace Operand

variable {m m' : Memory} {negative : Bool} {term : List Char} {terms : List (List Char)}
  {name : String}

theorem readSum_cons (hplus : term ≠ ['+']) (hminus : term ≠ ['-'])
    (h : addTerm m negative term = some m') :
    readSum m negative (term :: terms) = readSum m' false terms := by
  rw [readSum, h]
  · rfl
  · exact hplus
  · exact hminus

/-- A name is no integer: its first letter is neither a sign nor a digit. -/
theorem readInteger_name (h : IsName term) : readInteger term = none := by
  have htrim := h.isWord.trim_eq
  obtain ⟨c, rest, rfl, hc⟩ := h.exists_letter
  have hne : ∀ d, ¬IsSmallLetter d → c ≠ d := by
    rintro d hd rfl
    exact hd hc
  have hdigit : c.isDigit = false := by
    rw [Bool.eq_false_iff, ne_eq, Char.isDigit_iff_toNat]
    exact fun h => absurd h.2 (by have := hc.1; have : '9'.toNat = 57 := rfl; omega)
  have hhash : (c == '#') = false := beq_false_of_ne (hne _ (by decide))
  have hminus : c ≠ '-' := hne _ (by decide)
  have hzero : c ≠ '0' := hne _ (by decide)
  simp [readInteger, htrim, hhash, hminus, readMagnitude, hzero, hdigit]

/-- A word that starts with a letter is a term and no sign. -/
theorem readSum_lettered (hletter : ∃ c rest, term = c :: rest ∧ IsSmallLetter c)
    (hadd : addTerm m negative term = some m') :
    readSum m negative (term :: terms) = readSum m' false terms := by
  obtain ⟨c, rest, rfl, hc⟩ := hletter
  have hsign : ∀ sign, ¬IsSmallLetter sign → c :: rest ≠ [sign] := by
    intro sign hsign heq
    exact hsign ((List.cons.inj heq).1 ▸ hc)
  exact readSum_cons (hsign _ (by decide)) (hsign _ (by decide)) hadd

theorem readSum_base (h : isRegisterName name = true) (hbase : m.base = none) :
    readSum m negative (name.toList :: terms) =
      readSum { m with base := some name } false terms := by
  have hname := isName_of_isRegisterName h
  refine readSum_lettered hname.exists_letter ?_
  simp [addTerm, hname.star_notMem, readInteger_name hname, h, hbase]

theorem readSum_index {b : String} (h : isRegisterName name = true) (hbase : m.base = some b) :
    readSum m negative (name.toList :: terms) =
      readSum { m with index := some name } false terms := by
  have hname := isName_of_isRegisterName h
  refine readSum_lettered hname.exists_letter ?_
  simp [addTerm, hname.star_notMem, readInteger_name hname, h, hbase]

theorem readSum_scaled (h : isRegisterName name = true) (scale : UInt8) :
    readSum m negative ((name.toList ++ '*' :: Nat.toDigits 10 scale.toNat) :: terms) =
      readSum { m with index := some name, scale } false terms := by
  have hname := isName_of_isRegisterName h
  have hfront : ∀ c ∈ name.toList, (c != '*') = true := by
    intro c hc
    rw [bne_iff_ne]
    rintro rfl
    exact hname.star_notMem hc
  have hscale : readUpTo 10 255 (Nat.toDigits 10 scale.toNat) = some scale.toNat :=
    readUpTo_toDigits (by decide) (by decide) (Nat.le_of_lt_succ scale.toNat_lt)
  refine readSum_lettered ?_ ?_
  · obtain ⟨c, rest, htext, hc⟩ := hname.exists_letter
    exact ⟨c, _, by rw [htext, List.cons_append], hc⟩
  · rw [addTerm, if_pos (by simp), List.dropWhile_append_of_pos hfront,
      List.takeWhile_append_of_pos hfront]
    simp [hscale]

theorem readSum_hexText {n : Nat} (h : n < UInt64.size) :
    readSum m negative (hexText n :: terms) =
      readSum { m with displacement := m.displacement +
        if negative then -Int64.ofNat n else Int64.ofNat n } false terms := by
  refine readSum_cons (by simp [hexText]) (by simp [hexText]) ?_
  simp [addTerm, star_notMem_hexText, readInteger_hexText h]

theorem readSum_offsetWords (hzero : m.displacement = 0) (v : Int64) :
    readSum m false (Memory.offsetWords v) = some { m with displacement := v } := by
  rw [Memory.offsetWords]
  split
  next hv => rw [readSum, hv, ← hzero]
  next hv =>
    split
    next hneg =>
      rw [readSum, readSum_hexText (natAbs_lt_size v), readSum]
      simp [hzero, neg_ofNat_natAbs_of_neg hneg]
    next hneg =>
      rw [readSum, readSum_hexText (natAbs_lt_size v), readSum]
      simp [hzero, ofNat_natAbs_of_nonneg hneg]

/-- Reading the words of a reference gives it back. -/
theorem readSum_sumWords (h : m.IsReadable) : readSum { } false m.sumWords = some m := by
  obtain ⟨base, index, scale, displacement, size, segment⟩ := m
  obtain ⟨rfl, rfl, hbase, hindex, hnone, hsome, halone⟩ := h
  dsimp only at hbase hindex hnone hsome halone
  cases base with
  | none =>
    cases index with
    | none =>
      obtain rfl := hnone rfl
      rw [Memory.sumWords, readSum_hexText displacement.toUInt64.toNat_lt, readSum]
      simp [ofNat_toUInt64]
    | some i =>
      have hscale : 1 < scale := Nat.lt_of_succ_le (halone rfl (Option.some_ne_none i))
      dsimp only [Memory.sumWords]
      rw [Memory.indexWord, if_pos hscale, readSum_scaled (hindex i rfl), readSum_offsetWords rfl]
  | some b =>
    cases index with
    | none =>
      obtain rfl := hnone rfl
      rw [Memory.sumWords, readSum_base (hbase b rfl) rfl, readSum_offsetWords rfl]
    | some i =>
      rw [Memory.sumWords, readSum_base (hbase b rfl) rfl, readSum, Memory.indexWord]
      split
      next => rw [readSum_scaled (hindex i rfl), readSum_offsetWords rfl]
      next hscale =>
        have hone : scale = 1 :=
          UInt8.le_antisymm (UInt8.not_lt.mp hscale) (hsome (Option.some_ne_none i))
        rw [readSum_index (hindex i rfl) rfl, readSum_offsetWords rfl, hone]

/-- A bracketed text without a comma is read as a sum of its words. -/
theorem readMemory_bracketed {inner : List Char} (h : ',' ∉ inner) :
    readMemory ('[' :: (inner ++ [']'])) = readSum { } false (words inner) := by
  have hfront : readSegment [] = (none, []) := by decide +kernel
  simp [readMemory, hfront, before?, after?, h]

/-! ## Operands -/

/-- The operands whose text says it all. -/
def IsReadable : Operand → Prop
  | .register name => isRegisterName name = true
  | .immediate _ => True
  | .memory m => m.IsReadable
  | .other _ => False

instance : ∀ op : Operand, Decidable op.IsReadable
  | .register name => inferInstanceAs (Decidable (isRegisterName name = true))
  | .immediate _ => inferInstanceAs (Decidable True)
  | .memory m => inferInstanceAs (Decidable m.IsReadable)
  | .other _ => inferInstanceAs (Decidable False)

theorem map_toLower_eq_self {cs : List Char} (h : ∀ c ∈ cs, IsWordChar c ∨ c = ' ') :
    cs.map Char.toLower = cs := by
  have hfixed : ∀ c ∈ cs, c.toLower = id c := by
    intro c hc
    rcases h c hc with hword | rfl
    · exact hword.toLower
    · rfl
  rw [List.map_congr_left hfixed, List.map_id]

theorem toList_render_immediate (v : Int64) :
    (render (.immediate v)).toList =
      if v < 0 then '-' :: hexText v.toInt.natAbs else hexText v.toInt.natAbs := by
  rw [render]
  split
  · simp [toList_hexMagnitude]
  · exact toList_hexMagnitude v

theorem readInteger_render_immediate (v : Int64) :
    readInteger (render (.immediate v)).toList = some v := by
  rw [toList_render_immediate]
  split
  next hneg => rw [readInteger_minus_hexText (natAbs_lt_size v), neg_ofNat_natAbs_of_neg hneg]
  next hneg => rw [readInteger_hexText (natAbs_lt_size v), ofNat_natAbs_of_nonneg hneg]

theorem isWord_render_immediate (v : Int64) : IsWord (render (.immediate v)).toList := by
  have hdigits := isWord_hexText v.toInt.natAbs
  rw [toList_render_immediate]
  split
  · exact isWord_cons (by decide) hdigits.chars
  · exact hdigits

theorem isWord_offsetWords {v : Int64} {w : List Char} (hw : w ∈ Memory.offsetWords v) :
    IsWord w := by
  have hsign : ∀ sign, IsWordChar sign → w ∈ [[sign], hexText v.toInt.natAbs] → IsWord w := by
    intro sign hsign hw
    rcases List.mem_cons.mp hw with rfl | hw
    · exact isWord_cons hsign (by simp)
    · rw [List.mem_singleton.mp hw]
      exact isWord_hexText _
  rw [Memory.offsetWords] at hw
  split at hw
  · cases hw
  · split at hw
    · exact hsign '-' (by decide) hw
    · exact hsign '+' (by decide) hw

theorem isWord_indexWord (h : isRegisterName name = true) (scale : UInt8) :
    IsWord (Memory.indexWord name scale) := by
  have hname := (isName_of_isRegisterName h).isWord
  rw [Memory.indexWord]
  split
  · refine ⟨by simp, List.forall_mem_append.mpr ⟨hname.chars, ?_⟩⟩
    exact List.forall_mem_cons.mpr
      ⟨by decide, fun _ => isWordChar_of_mem_toDigits (by decide) (by decide) _⟩
  · exact hname

theorem isWord_sumWords (h : m.IsReadable) {w : List Char} (hw : w ∈ m.sumWords) : IsWord w := by
  have hbase : ∀ b, m.base = some b → IsWord b.toList := fun b hb =>
    (isName_of_isRegisterName (h.base b hb)).isWord
  have hindex : ∀ i, m.index = some i → IsWord (Memory.indexWord i m.scale) := fun i hi =>
    isWord_indexWord (h.index i hi) m.scale
  rw [Memory.sumWords] at hw
  split at hw
  next =>
    rw [List.mem_singleton.mp hw]
    exact isWord_hexText _
  next b hb _ =>
    rcases List.mem_cons.mp hw with rfl | hw
    · exact hbase b hb
    · exact isWord_offsetWords hw
  next i _ hi =>
    rcases List.mem_cons.mp hw with rfl | hw
    · exact hindex i hi
    · exact isWord_offsetWords hw
  next b i hb hi =>
    simp only [List.mem_cons] at hw
    rcases hw with rfl | rfl | rfl | hw
    · exact hbase b hb
    · exact isWord_cons (by decide) (by simp)
    · exact hindex i hi
    · exact isWord_offsetWords hw

/-- The text in the brackets of a readable reference. -/
theorem mem_inner (h : m.IsReadable) {c : Char} (hc : c ∈ [' '].intercalate m.sumWords) :
    IsWordChar c ∨ c = ' ' := by
  rcases mem_intercalate hc with hc | ⟨w, hw, hc⟩
  · exact .inr (List.mem_singleton.mp hc)
  · exact .inl ((isWord_sumWords h hw).chars c hc)

theorem readMemory_render (h : m.IsReadable) : readMemory m.render.toList = some m := by
  have hcomma : ',' ∉ [' '].intercalate m.sumWords := fun hmem =>
    absurd (mem_inner h hmem) (by decide)
  have hwords : words ([' '].intercalate m.sumWords) = m.sumWords :=
    words_intercalate fun _ => isWord_sumWords h
  rw [Memory.toList_render, readMemory_bracketed hcomma, hwords, readSum_sumWords h]

theorem map_toLower_render (h : m.IsReadable) :
    m.render.toList.map Char.toLower = m.render.toList := by
  have hinner := map_toLower_eq_self fun c hc => mem_inner h hc
  rw [Memory.toList_render, List.map_cons, List.map_append, hinner]
  rfl

theorem read_render {op : Operand} (h : op.IsReadable) : read op.render.toList = op := by
  cases op with
  | register name =>
    have hname := isName_of_isRegisterName h
    have hlower := map_toLower_eq_self fun c hc => .inl (hname.isWord.chars c hc)
    have hbracket : '[' ∉ name.toList := hname.isWord.notMem (by decide)
    have hregister : isRegisterName name = true := h
    simp [render, read, hlower, hbracket, readInteger_name hname, hregister]
  | immediate v =>
    have hword := isWord_render_immediate v
    have hlower := map_toLower_eq_self fun c hc => .inl (hword.chars c hc)
    have hbracket : '[' ∉ (render (.immediate v)).toList := hword.notMem (by decide)
    simp [read, hlower, hbracket, readInteger_render_immediate v]
  | memory m =>
    have hbracket : '[' ∈ m.render.toList := by simp [Memory.toList_render]
    simp [render, read, map_toLower_render h, hbracket, readMemory_render h]
  | other text => exact h.elim

/-! ## Lists of operands -/

/-- How a text changes the bracket depth. -/
def textDepth : List Char → Int
  | [] => 0
  | c :: cs => depthChange c + textDepth cs

theorem textDepth_append (a b : List Char) : textDepth (a ++ b) = textDepth a + textDepth b := by
  induction a with
  | nil => rw [List.nil_append, textDepth, Int.zero_add]
  | cons c a ih => rw [List.cons_append, textDepth, ih, textDepth, Int.add_assoc]

/-- A text that the cut at commas leaves whole. -/
structure IsPiece (cs : List Char) : Prop where
  trimmed : IsTrimmed cs
  comma_notMem : ',' ∉ cs
  balanced : textDepth cs = 0

theorem textDepth_of_words {cs : List Char} (h : ∀ c ∈ cs, IsWordChar c ∨ c = ' ') :
    textDepth cs = 0 := by
  induction cs with
  | nil => rfl
  | cons c cs ih =>
    have hc : depthChange c = 0 := by
      have hne : ∀ d, ¬(IsWordChar d ∨ d = ' ') → c ≠ d := by
        rintro d hd rfl
        exact hd (h c (by simp))
      rw [depthChange, if_neg, if_neg]
      · exact not_or.mpr ⟨hne _ (by decide), hne _ (by decide)⟩
      · exact not_or.mpr ⟨hne _ (by decide), hne _ (by decide)⟩
    rw [textDepth, hc, ih fun d hd => h d (List.mem_cons_of_mem _ hd), Int.add_zero]

theorem isPiece_of_isWord {cs : List Char} (h : IsWord cs) : IsPiece cs :=
  ⟨h.isTrimmed, h.notMem (by decide), textDepth_of_words fun c hc => .inl (h.chars c hc)⟩

theorem isPiece_render {op : Operand} (h : op.IsReadable) : IsPiece op.render.toList := by
  cases op with
  | register name => exact isPiece_of_isWord (isName_of_isRegisterName h).isWord
  | immediate v => exact isPiece_of_isWord (isWord_render_immediate v)
  | memory m =>
    have hinner : ∀ c ∈ [' '].intercalate m.sumWords, IsWordChar c ∨ c = ' ' :=
      fun c hc => mem_inner h hc
    rw [render, Memory.toList_render]
    refine ⟨⟨⟨'[', _, rfl, by decide⟩, ⟨'[' :: [' '].intercalate m.sumWords, ']', rfl, by decide⟩⟩,
      ?_, ?_⟩
    · have hcomma : ',' ∉ [' '].intercalate m.sumWords := fun hmem =>
        absurd (hinner _ hmem) (by decide)
      simp [hcomma]
    · rw [textDepth, textDepth_append, textDepth_of_words hinner]
      rfl
  | other text => exact h.elim

theorem cutAtCommas_append {w : List Char} (h : ',' ∉ w) (depth : Int) (rest : List Char) :
    cutAtCommas depth (w ++ rest) =
      w.foldr consFirst (cutAtCommas (depth + textDepth w) rest) := by
  induction w generalizing depth with
  | nil => rw [List.nil_append, textDepth, Int.add_zero, List.foldr_nil]
  | cons c w ih =>
    rw [List.mem_cons, not_or] at h
    rw [List.cons_append, cutAtCommas, if_neg (fun hc => h.1 hc.1.symm), ih h.2, textDepth,
      Int.add_assoc, List.foldr_cons]

theorem cutAtCommas_intercalate {w : List Char} {ws : List (List Char)} (hw : IsPiece w)
    (hws : ∀ w ∈ ws, IsPiece w) :
    cutAtCommas 0 ([',', ' '].intercalate (w :: ws)) = w :: ws.map (' ' :: ·) := by
  induction ws generalizing w with
  | nil =>
    have hcut := cutAtCommas_append hw.comma_notMem 0 []
    rw [List.append_nil, hw.balanced, cutAtCommas, foldr_consFirst, List.append_nil] at hcut
    simpa [List.intercalate] using hcut
  | cons v vs ih =>
    have hrest := ih (hws v (by simp)) fun u hu => hws u (List.mem_cons_of_mem _ hu)
    rw [List.intercalate_cons_cons, List.append_assoc, cutAtCommas_append hw.comma_notMem,
      hw.balanced]
    -- The comma ends the piece, and the space after it belongs to the next one.
    have hcomma : cutAtCommas (0 + 0) ([',', ' '] ++ [',', ' '].intercalate (v :: vs)) =
        [] :: consFirst ' ' (cutAtCommas 0 ([',', ' '].intercalate (v :: vs))) := rfl
    rw [hcomma, hrest, foldr_consFirst, List.append_nil]
    rfl

theorem isTrimmed_intercalate {w : List Char} {ws : List (List Char)} (hw : IsPiece w)
    (hws : ∀ w ∈ ws, IsPiece w) : IsTrimmed ([',', ' '].intercalate (w :: ws)) := by
  induction ws generalizing w with
  | nil => simpa [List.intercalate] using hw.trimmed
  | cons v vs ih =>
    rw [List.intercalate_cons_cons]
    exact hw.trimmed.append (ih (hws v (by simp)) fun u hu => hws u (List.mem_cons_of_mem _ hu)) _

theorem readAll_of_isTrimmed {text : String} (h : IsTrimmed text.toList) :
    readAll text = (cutAtCommas 0 text.toList).map fun piece => read (trim piece) := by
  obtain ⟨c, rest, htext, -⟩ := h.starts
  rw [readAll, h.trim_eq, htext]

/-- Operands written one after another, with a comma and a space between them, are read back. -/
theorem readAll_render {ops : List Operand} (h : ∀ op ∈ ops, op.IsReadable) :
    readAll (", ".intercalate (ops.map render)) = ops := by
  cases ops with
  | nil => rfl
  | cons op ops =>
    obtain ⟨hop, hops⟩ := List.forall_mem_cons.mp h
    have hread : ∀ {op : Operand}, op.IsReadable → read (trim op.render.toList) = op := by
      intro op hop
      rw [(isPiece_render hop).trimmed.trim_eq, read_render hop]
    have hpieces : ∀ w ∈ ops.map (·.render.toList), IsPiece w := by
      intro w hw
      obtain ⟨op', hop', rfl⟩ := List.mem_map.mp hw
      exact isPiece_render (hops op' hop')
    have htext : (", ".intercalate ((op :: ops).map render)).toList =
        [',', ' '].intercalate (op.render.toList :: ops.map (·.render.toList)) := by
      rw [String.toList_intercalate, List.map_map]
      rfl
    have htrimmed := isTrimmed_intercalate (isPiece_render hop) hpieces
    rw [← htext] at htrimmed
    have hrest : ((ops.map (·.render.toList)).map (' ' :: ·)).map (fun piece => read (trim piece)) =
        ops := by
      rw [List.map_map, List.map_map, List.map_congr_left (g := id), List.map_id]
      intro op hop
      rw [Function.comp_apply, Function.comp_apply, trim_cons_space, hread (hops op hop), id]
    rw [readAll_of_isTrimmed htrimmed, htext, cutAtCommas_intercalate (isPiece_render hop) hpieces,
      List.map_cons, hread hop, hrest]

/-- Corner values: the smallest word, a displacement alone that is negative, an index alone with the
largest multiplier, and a register number with a plus sign. -/
def corners : List Operand :=
  [.immediate Int64.minValue, .immediate 0, .register "xmm+7",
    .memory { displacement := -1 },
    .memory { index := some "r15d", scale := 255, displacement := Int64.minValue },
    .memory { base := some "rbp", index := some "rcx" },
    .memory { base := some "sp", index := some "w3", scale := 4, displacement := 0x10 }]

theorem readAll_render_corners :
    (∀ op ∈ corners, op.IsReadable) ∧
      readAll (", ".intercalate (corners.map render)) = corners := by
  have h : ∀ op ∈ corners, op.IsReadable := by decide +kernel
  exact ⟨h, readAll_render h⟩

end Operand

end MethodLift
