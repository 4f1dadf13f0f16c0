import MethodLift.Operand.Basic
import MethodLift.Text.Blank

/-!
# Words, digits and register names

The pieces that written operands are made of, and that reading takes them apart into again. What
keeps the layers of a text apart is the alphabet: names and numbers are made of word characters
(`IsWordChar`), and no word character is a blank, a comma or a bracket.

* `words_intercalate`: words with single spaces between them are found again.
* `readUpTo_toDigits`: the digits of a number are read as that number, in every base up to sixteen.
* `isName_of_isRegisterName`: a register name is a letter followed by word characters. Register
  numbers are read with an optional plus sign, so `xmm+7` is a name, too.
-/

namespace MethodLift

open MethodLift.Text

namespace Text

/-! ## The alphabet -/

def IsSmallLetter (c : Char) : Prop := 97 ≤ c.toNat ∧ c.toNat ≤ 122

def IsDecimal (c : Char) : Prop := 48 ≤ c.toNat ∧ c.toNat ≤ 57

/-- The characters of names, numbers and signs in a written operand. -/
def IsWordChar (c : Char) : Prop :=
  IsSmallLetter c ∨ IsDecimal c ∨ c = '*' ∨ c = '+' ∨ c = '-'

instance (c : Char) : Decidable (IsSmallLetter c) := inferInstanceAs (Decidable (_ ∧ _))
instance (c : Char) : Decidable (IsDecimal c) := inferInstanceAs (Decidable (_ ∧ _))
instance (c : Char) : Decidable (IsWordChar c) := inferInstanceAs (Decidable (_ ∨ _))

variable {c d : Char} {cs w rest : List Char} {ws : List (List Char)} {p : Char → Bool}

/-- Word characters by their codes. -/
theorem IsWordChar.toNat (h : IsWordChar c) :
    97 ≤ c.toNat ∧ c.toNat ≤ 122 ∨ 48 ≤ c.toNat ∧ c.toNat ≤ 57 ∨ c.toNat = 42 ∨ c.toNat = 43 ∨
      c.toNat = 45 := by
  rcases h with h | h | rfl | rfl | rfl
  · exact .inl h
  · exact .inr (.inl h)
  · decide
  · decide
  · decide

theorem IsWordChar.isBlank (h : IsWordChar c) : isBlank c = false := by
  have := h.toNat
  rw [Bool.eq_false_iff]
  intro hblank
  simp only [Text.isBlank, Bool.or_eq_true, Bool.and_eq_true, decide_eq_true_eq, beq_iff_eq]
    at hblank
  omega

theorem IsWordChar.toLower (h : IsWordChar c) : c.toLower = c := by
  have := h.toNat
  unfold Char.toLower
  rw [dif_neg]
  simp only [ge_iff_le, UInt32.le_iff_toNat_le]
  change ¬(65 ≤ c.toNat ∧ c.toNat ≤ 90)
  omega

/-- A non-empty run of word characters. -/
structure IsWord (cs : List Char) : Prop where
  ne_nil : cs ≠ []
  chars : ∀ c ∈ cs, IsWordChar c

theorem IsWord.notMem (h : IsWord cs) (hd : ¬IsWordChar d) : d ∉ cs :=
  fun hmem => hd (h.chars d hmem)

theorem isWord_cons (hc : IsWordChar c) (hcs : ∀ d ∈ cs, IsWordChar d) : IsWord (c :: cs) :=
  ⟨List.cons_ne_nil _ _, List.forall_mem_cons.mpr ⟨hc, hcs⟩⟩

/-! ## Trimming -/

/-- A text that neither starts nor ends with a blank. -/
structure IsTrimmed (cs : List Char) : Prop where
  starts : ∃ c rest, cs = c :: rest ∧ isBlank c = false
  ends : ∃ front c, cs = front ++ [c] ∧ isBlank c = false

theorem IsTrimmed.trim_eq (h : IsTrimmed cs) : trim cs = cs := by
  obtain ⟨c, rest, hstart, hc⟩ := h.starts
  obtain ⟨front, d, hend, hd⟩ := h.ends
  have hfirst : trimStart cs = cs := by rw [trimStart, hstart, List.dropWhile_cons, hc]; rfl
  rw [trim, hfirst, trimEnd, dropEndWhile, hend, List.reverse_append, List.reverse_singleton,
    List.singleton_append, List.dropWhile_cons, hd]
  simp

theorem IsTrimmed.append {a b : List Char} (ha : IsTrimmed a) (hb : IsTrimmed b)
    (between : List Char) : IsTrimmed (a ++ between ++ b) := by
  obtain ⟨c, rest, rfl, hc⟩ := ha.starts
  obtain ⟨front, d, rfl, hd⟩ := hb.ends
  exact ⟨⟨c, _, rfl, hc⟩, ⟨c :: rest ++ between ++ front, d, by simp, hd⟩⟩

theorem IsWord.isTrimmed (h : IsWord cs) : IsTrimmed cs := by
  refine ⟨?_, ?_⟩
  · obtain ⟨c, rest, rfl⟩ := List.exists_cons_of_ne_nil h.ne_nil
    exact ⟨c, rest, rfl, (h.chars c (by simp)).isBlank⟩
  · refine ⟨cs.dropLast, cs.getLast h.ne_nil, (List.dropLast_concat_getLast h.ne_nil).symm, ?_⟩
    exact (h.chars _ (List.getLast_mem h.ne_nil)).isBlank

theorem IsWord.trim_eq (h : IsWord cs) : trim cs = cs := h.isTrimmed.trim_eq

theorem trim_cons_space (cs : List Char) : trim (' ' :: cs) = trim cs := rfl

/-! ## Cutting into words -/

theorem foldr_consFirst (w v : List Char) (ws : List (List Char)) :
    w.foldr consFirst (v :: ws) = (w ++ v) :: ws := by
  induction w with
  | nil => rfl
  | cons c w ih => rw [List.foldr_cons, ih]; rfl

theorem IsWord.isBlank_eq_false (h : IsWord w) : ∀ c ∈ w, isBlank c = false :=
  fun c hc => (h.chars c hc).isBlank

theorem words_append_space (h : IsWord w) (rest : List Char) :
    words (w ++ ' ' :: rest) = w :: words rest := by
  have hcut : (w ++ ' ' :: rest).splitOnP isBlank = w :: rest.splitOnP isBlank := by
    rw [List.splitOnP_append_cons w rest rfl, List.splitOnP_eq_singleton h.isBlank_eq_false,
      List.singleton_append]
  rw [words, hcut, List.filter_cons, if_pos (by simp [h.ne_nil]), words]

theorem words_singleton (h : IsWord w) : words w = [w] := by
  have hcut : w.splitOnP isBlank = [w] := List.splitOnP_eq_singleton h.isBlank_eq_false
  rw [words, hcut, List.filter_cons, if_pos (by simp [h.ne_nil]), List.filter_nil]

/-- Words joined with single spaces are read back as the same words. -/
theorem words_intercalate (h : ∀ w ∈ ws, IsWord w) : words ([' '].intercalate ws) = ws := by
  induction ws with
  | nil => rfl
  | cons w ws ih =>
    have hw := h w (by simp)
    have hrest := ih fun v hv => h v (List.mem_cons_of_mem _ hv)
    cases ws with
    | nil => simpa [List.intercalate] using words_singleton hw
    | cons v vs =>
      rw [List.intercalate_cons_cons, List.append_assoc, List.singleton_append,
        words_append_space hw, hrest]

theorem intercalate_append_cons (sep front w : List Char) (ws : List (List Char)) :
    sep.intercalate ((front ++ w) :: ws) = front ++ sep.intercalate (w :: ws) := by
  cases ws <;> simp [List.intercalate]

theorem mem_intercalate {sep : List Char} (h : c ∈ sep.intercalate ws) :
    c ∈ sep ∨ ∃ w ∈ ws, c ∈ w := by
  induction ws with
  | nil => simp [List.intercalate] at h
  | cons w ws ih =>
    cases ws with
    | nil => exact .inr ⟨w, by simp, by simpa [List.intercalate] using h⟩
    | cons v vs =>
      rw [List.intercalate_cons_cons, List.append_assoc, List.mem_append, List.mem_append] at h
      rcases h with h | h | h
      · exact .inr ⟨w, by simp, h⟩
      · exact .inl h
      · rcases ih h with h | ⟨u, hu, h⟩
        · exact .inl h
        · exact .inr ⟨u, List.mem_cons_of_mem _ hu, h⟩

/-! ## Digits -/

theorem digitValue_digitChar {n : Nat} (h : n < 16) : digitValue n.digitChar = some n := by
  have hall : ∀ n < 16, digitValue (Nat.digitChar n) = some n := by decide
  exact hall n h

theorem digitsFrom_append (base acc : Nat) (a b : List Char) :
    digitsFrom base acc (a ++ b) = (digitsFrom base acc a).bind (digitsFrom base · b) := by
  induction a generalizing acc with
  | nil => rfl
  | cons c a ih =>
    rw [List.cons_append, digitsFrom, digitsFrom]
    cases digitValue c with
    | none => rfl
    | some d =>
      by_cases hd : d < base
      · simp only [hd, if_true, ih]
      · simp only [hd, if_false, Option.bind_none]

section Base

variable {base : Nat} (hone : 1 < base) (hsixteen : base ≤ 16)
include hone hsixteen

theorem digitsFrom_digitChar (acc : Nat) {n : Nat} (h : n < base) :
    digitsFrom base acc [n.digitChar] = some (acc * base + n) := by
  rw [digitsFrom, digitValue_digitChar (by omega)]
  simp [h, digitsFrom]

/-- Digits read back: the last digit is the remainder, those before it are the quotient. -/
theorem digitsFrom_toDigits (n : Nat) : digitsFrom base 0 (Nat.toDigits base n) = some n := by
  induction n using Nat.strongRecOn with
  | ind n ih =>
    rw [Nat.toDigits_eq_if hone]
    by_cases hn : n < base
    · rw [if_pos hn, digitsFrom_digitChar hone hsixteen 0 hn, Nat.zero_mul, Nat.zero_add]
    · have hsmaller : n / base < n := Nat.div_lt_self (by omega) hone
      have hlast : n % base < base := Nat.mod_lt _ (by omega)
      rw [if_neg hn, digitsFrom_append, ih _ hsmaller, Option.bind_some,
        digitsFrom_digitChar hone hsixteen _ hlast, Nat.div_add_mod']

theorem mem_toDigits (n : Nat) (hc : c ∈ Nat.toDigits base n) : IsSmallLetter c ∨ IsDecimal c := by
  have hdigit : ∀ n < 16, IsSmallLetter (Nat.digitChar n) ∨ IsDecimal (Nat.digitChar n) := by
    decide
  induction n using Nat.strongRecOn with
  | ind n ih =>
    rw [Nat.toDigits_eq_if hone] at hc
    split at hc
    next hn =>
      rw [List.mem_singleton.mp hc]
      exact hdigit n (by omega)
    next hn =>
      rcases List.mem_append.mp hc with hc | hc
      · exact ih _ (Nat.div_lt_self (by omega) hone) hc
      · have hlast : n % base < base := Nat.mod_lt _ (by omega)
        rw [List.mem_singleton.mp hc]
        exact hdigit _ (by omega)

theorem isWordChar_of_mem_toDigits (n : Nat) (hc : c ∈ Nat.toDigits base n) : IsWordChar c := by
  rcases mem_toDigits hone hsixteen n hc with h | h
  · exact .inl h
  · exact .inr (.inl h)

theorem readUpTo_toDigits {n limit : Nat} (h : n ≤ limit) :
    readUpTo base limit (Nat.toDigits base n) = some n := by
  have hread := digitsFrom_toDigits hone hsixteen n
  obtain ⟨c, rest, hcs⟩ := List.exists_cons_of_ne_nil (Nat.toDigits_ne_nil (n := n) (b := base))
  have hplus : c ≠ '+' := by
    rintro rfl
    have hmem := mem_toDigits hone hsixteen n (c := '+') (by rw [hcs]; simp)
    exact absurd hmem (by decide)
  rw [hcs] at hread ⊢
  simp [readUpTo, readDigits, hread, hplus, h]

end Base

theorem isDecimal_of_digitValue {n : Nat} (hvalue : digitValue c = some n) (hn : n < 10) :
    IsDecimal c := by
  unfold digitValue at hvalue
  split at hvalue
  next h => exact h
  next =>
    split at hvalue
    · cases hvalue; omega
    · split at hvalue
      · cases hvalue; omega
      · cases hvalue

theorem isDecimal_of_digitsFrom {acc n : Nat} (h : digitsFrom 10 acc cs = some n) :
    ∀ c ∈ cs, IsDecimal c := by
  induction cs generalizing acc with
  | nil => simp
  | cons c cs ih =>
    rw [digitsFrom] at h
    split at h
    next d hvalue =>
      split at h
      next hd => exact List.forall_mem_cons.mpr ⟨isDecimal_of_digitValue hvalue hd, ih h⟩
      next => cases h
    next => cases h

theorem isDecimal_of_readDigits {n : Nat} (h : readDigits 10 cs = some n) :
    ∀ c ∈ cs, IsDecimal c := by
  cases cs with
  | nil => simp
  | cons c cs => exact isDecimal_of_digitsFrom h

/-- A decimal number that can be read has word characters only, and no multiplication sign. -/
theorem mem_of_readUpTo {limit n : Nat} (h : readUpTo 10 limit cs = some n) (hc : c ∈ cs) :
    IsDecimal c ∨ c = '+' := by
  obtain ⟨hdigits, -⟩ := Option.filter_eq_some_iff.mp h
  split at hdigits
  next rest =>
    rcases List.mem_cons.mp hc with rfl | hc
    · exact .inr rfl
    · exact .inl (isDecimal_of_readDigits hdigits c hc)
  next => exact .inl (isDecimal_of_readDigits hdigits c hc)

end Text

/-! ## Register names -/

/-- What every register name looks like: a small letter, then word characters other than the
multiplication sign. -/
def IsName : List Char → Prop
  | [] => False
  | c :: rest => IsSmallLetter c ∧ ∀ d ∈ rest, IsWordChar d ∧ d ≠ '*'

instance : ∀ cs, Decidable (IsName cs)
  | [] => inferInstanceAs (Decidable False)
  | _ :: rest =>
    have := List.decidableBAll (fun d => IsWordChar d ∧ d ≠ '*') rest
    inferInstanceAs (Decidable (_ ∧ _))

namespace IsName

variable {cs : List Char} (h : IsName cs)
include h

theorem exists_letter : ∃ c rest, cs = c :: rest ∧ IsSmallLetter c := by
  cases cs with
  | nil => exact h.elim
  | cons c rest => exact ⟨c, rest, rfl, h.1⟩

theorem isWord : IsWord cs := by
  cases cs with
  | nil => exact h.elim
  | cons c rest => exact isWord_cons (.inl h.1) fun d hd => (h.2 d hd).1

theorem star_notMem : '*' ∉ cs := by
  cases cs with
  | nil => exact h.elim
  | cons c rest =>
    intro hmem
    rcases List.mem_cons.mp hmem with rfl | hmem
    · exact absurd h.1 (by decide)
    · exact (h.2 _ hmem).2 rfl

theorem append {more : List Char} (hmore : ∀ c ∈ more, IsWordChar c ∧ c ≠ '*') :
    IsName (cs ++ more) := by
  cases cs with
  | nil => exact h.elim
  | cons c rest => exact ⟨h.1, List.forall_mem_append.mpr ⟨h.2, hmore⟩⟩

theorem append_of_readUpTo {more : List Char} {limit n : Nat}
    (hmore : readUpTo 10 limit more = some n) : IsName (cs ++ more) := by
  refine h.append fun c hc => ?_
  rcases mem_of_readUpTo hmore hc with hdigit | rfl
  · refine ⟨.inr (.inl hdigit), ?_⟩
    rintro rfl
    exact absurd hdigit (by decide)
  · decide

end IsName

namespace Register

theorem X64.isName_of_legacy? {name : String} (h : (X64.legacy? name).isSome) :
    IsName name.toList := by
  have hall : ∀ entry ∈ X64.legacy, IsName entry.1.toList := by decide +kernel
  obtain ⟨entry, hentry⟩ := Option.isSome_iff_exists.mp h
  obtain ⟨before, rest, htable, -⟩ := List.lookup_eq_some_iff.mp hentry
  exact hall (name, entry) (by rw [htable]; simp)

theorem X64.isName_of_extended? {name : String} (h : (X64.extended? name).isSome) :
    IsName name.toList := by
  obtain ⟨found, hfound⟩ := Option.isSome_iff_exists.mp h
  unfold X64.extended? at hfound
  split at hfound
  next rest htext =>
    obtain ⟨number, hnumber, hfound⟩ := Option.bind_eq_some_iff.mp hfound
    obtain ⟨-, -, hpart⟩ := Option.bind_eq_some_iff.mp hfound
    have hstem : IsName ('r' :: rest.takeWhile Char.isDigit) :=
      (show IsName ['r'] by decide).append_of_readUpTo hnumber
    -- The digits are followed by nothing or by the letter of a part.
    have hend : ∀ c ∈ rest.dropWhile Char.isDigit, IsWordChar c ∧ c ≠ '*' := by
      simp only at hpart
      split at hpart
      case h_1 heq => simp [heq]
      case h_5 => cases hpart
      all_goals
        next heq =>
          rw [heq]
          exact List.forall_mem_singleton.mpr (by decide)
    rw [htext, ← List.takeWhile_append_dropWhile (p := Char.isDigit) (l := rest)]
    exact hstem.append hend
  next => cases hfound

theorem X64.isName_of_vectorWidth? {name : String} (h : (X64.vectorWidth? name).isSome) :
    IsName name.toList := by
  obtain ⟨width, hwidth⟩ := Option.isSome_iff_exists.mp h
  unfold X64.vectorWidth? at hwidth
  split at hwidth
  next rest htext =>
    obtain ⟨n, hn, -⟩ := Option.map_eq_some_iff.mp hwidth
    rw [htext]
    exact (show IsName ['x', 'm', 'm'] by decide).append_of_readUpTo hn
  next rest htext =>
    obtain ⟨n, hn, -⟩ := Option.map_eq_some_iff.mp hwidth
    rw [htext]
    exact (show IsName ['y', 'm', 'm'] by decide).append_of_readUpTo hn
  next => cases hwidth

theorem X64.isName_of_isRegister {name : String} (h : X64.isRegister name = true) :
    IsName name.toList := by
  have hsegments : ∀ name ∈ X64.segments, IsName name.toList := by decide +kernel
  simp only [X64.isRegister, Bool.or_eq_true] at h
  rcases h with ((h | h) | h) | h
  · exact X64.isName_of_legacy? h
  · exact X64.isName_of_extended? h
  · exact X64.isName_of_vectorWidth? h
  · exact hsegments name (List.contains_iff_mem.mp h)

theorem A64.isName_of_numbered? {kind : Char} {name : String} (hkind : IsSmallLetter kind)
    (h : (A64.numbered? kind name).isSome) : IsName name.toList := by
  obtain ⟨n, hn⟩ := Option.isSome_iff_exists.mp h
  unfold A64.numbered? at hn
  split at hn
  next c rest htext =>
    split at hn
    next hc =>
      have hkind' : IsName [kind] := ⟨hkind, by simp⟩
      rw [htext, hc]
      exact hkind'.append_of_readUpTo hn
    next => cases hn
  next => cases hn

theorem A64.isName_of_vectorWidth? {name : String} (h : (A64.vectorWidth? name).isSome) :
    IsName name.toList := by
  obtain ⟨width, hwidth⟩ := Option.isSome_iff_exists.mp h
  unfold A64.vectorWidth? at hwidth
  split at hwidth
  next c rest htext =>
    have hparts : IsName [c] ∧ ∃ n, readUpTo 10 31 rest = some n := by
      simp only at hwidth
      split at hwidth
      case h_7 => cases hwidth
      all_goals
        obtain ⟨_, _, hnumber⟩ := Option.bind_eq_some_iff.mp hwidth
        obtain ⟨n, hn, -⟩ := Option.bind_eq_some_iff.mp hnumber
        exact ⟨by decide, n, hn⟩
    obtain ⟨hletter, n, hn⟩ := hparts
    rw [htext]
    exact hletter.append_of_readUpTo hn
  next => cases hwidth

theorem A64.isName_of_isRegister {name : String} (h : A64.isRegister name = true) :
    IsName name.toList := by
  have hfixed : ∀ name ∈ ["sp", "wsp", "xzr", "wzr", "fp", "lr"], IsName name.toList := by
    decide +kernel
  simp only [A64.isRegister, Bool.or_eq_true] at h
  rcases h with ((h | h) | h) | h
  · exact hfixed name (List.contains_iff_mem.mp h)
  · exact A64.isName_of_numbered? (by decide) h
  · exact A64.isName_of_numbered? (by decide) h
  · exact A64.isName_of_vectorWidth? h

end Register

theorem isName_of_isRegisterName {name : String} (h : isRegisterName name = true) :
    IsName name.toList := by
  rw [isRegisterName, Bool.or_eq_true] at h
  rcases h with h | h
  · exact Register.X64.isName_of_isRegister h
  · exact Register.A64.isName_of_isRegister h

end MethodLift
