import MethodLift.Proofs.NameLookup

/-!
# Names in any case

Full names and simple names are compared by their ASCII letters in lower case, and the characters
that cut a name into parts have no case. So a name that is neither a keyword nor an array finds the
same type however its letters are written (`core_findPlain?_congr`), which is what the cache builds
on when it keeps answers under names in lower case. Generic arguments are handed back as they were
written, and `NamedType.core` leaves them out.
-/

namespace MethodLift

open MethodLift.Text

/-! ## Lower case of ASCII letters -/

namespace Text

/-- The text with small ASCII letters. -/
def small (cs : List Char) : List Char := cs.map Char.toLower

theorem toNat_toLower (c : Char) :
    c.toLower.toNat = if 65 ≤ c.toNat ∧ c.toNat ≤ 90 then c.toNat + 32 else c.toNat := by
  have hval : c.val.toNat = c.toNat := rfl
  unfold Char.toLower
  by_cases h : 65 ≤ c.toNat ∧ c.toNat ≤ 90
  · have h' : c.val ≥ 'A'.val ∧ c.val ≤ 'Z'.val := by
      simp only [ge_iff_le, UInt32.le_iff_toNat_le]
      exact h
    rw [dif_pos h', if_pos h]
    change (c.val + 32).toNat = _
    rw [UInt32.toNat_add, hval]
    exact Nat.mod_eq_of_lt (by simp; omega)
  · have h' : ¬(c.val ≥ 'A'.val ∧ c.val ≤ 'Z'.val) := by
      simp only [ge_iff_le, UInt32.le_iff_toNat_le]
      exact h
    rw [dif_neg h', if_neg h]

theorem toLower_toLower (c : Char) : c.toLower.toLower = c.toLower := by
  rw [← Char.toNat_inj, toNat_toLower c.toLower]
  have := toNat_toLower c
  split at this <;> split <;> omega

/-- A character without case between the digits and the small letters, like every one that cuts a
name into parts. -/
def IsMark (c : Char) : Prop := c.toNat < 65 ∨ 90 < c.toNat ∧ c.toNat < 97

instance (c : Char) : Decidable (IsMark c) := inferInstanceAs (Decidable (_ ∨ _))

/-- A mark is the lower case of itself only. -/
theorem toLower_eq_iff {c mark : Char} (h : IsMark mark) : c.toLower = mark ↔ c = mark := by
  unfold IsMark at h
  rw [← Char.toNat_inj, ← Char.toNat_inj, toNat_toLower]
  split <;> omega

theorem isBlank_toLower (c : Char) : isBlank c.toLower = isBlank c := by
  rw [Bool.eq_iff_iff]
  simp only [isBlank, toNat_toLower, Bool.or_eq_true, Bool.and_eq_true, decide_eq_true_eq,
    beq_iff_eq]
  split <;> omega

variable {a b cs : List Char} {mark : Char}

theorem sameIgnoringCase_iff : sameIgnoringCase a b = true ↔ small a = small b := by
  simp [sameIgnoringCase, small]

theorem sameIgnoringCase_congr (h : small a = small b) (cs : List Char) :
    sameIgnoringCase cs a = sameIgnoringCase cs b := by
  rw [Bool.eq_iff_iff, sameIgnoringCase_iff, sameIgnoringCase_iff, h]

theorem small_small (cs : List Char) : small (small cs) = small cs := by
  have htwice : Char.toLower ∘ Char.toLower = Char.toLower := funext toLower_toLower
  rw [small, small, List.map_map, htwice]

theorem small_append (a b : List Char) : small (a ++ b) = small a ++ small b := by
  simp [small]

theorem reverse_small (cs : List Char) : (small cs).reverse = small cs.reverse := by
  simp [small]

theorem takeWhile_small {p : Char → Bool} (h : ∀ c, p c.toLower = p c) (cs : List Char) :
    (small cs).takeWhile p = small (cs.takeWhile p) := by
  have hp : p ∘ Char.toLower = p := funext h
  rw [small, List.takeWhile_map, hp, small]

theorem dropWhile_small {p : Char → Bool} (h : ∀ c, p c.toLower = p c) (cs : List Char) :
    (small cs).dropWhile p = small (cs.dropWhile p) := by
  have hp : p ∘ Char.toLower = p := funext h
  rw [small, List.dropWhile_map, hp, small]

theorem bne_toLower (h : IsMark mark) (c : Char) : (c.toLower != mark) = (c != mark) := by
  rw [Bool.eq_iff_iff]
  simp [toLower_eq_iff h]

theorem contains_small (h : IsMark mark) (cs : List Char) :
    (small cs).contains mark = cs.contains mark := by
  rw [Bool.eq_iff_iff]
  simp [small, toLower_eq_iff h]

theorem trim_small (cs : List Char) : trim (small cs) = small (trim cs) := by
  simp only [trim, trimEnd, trimStart, dropEndWhile, dropWhile_small isBlank_toLower, reverse_small]

/-- Marks at the end of a text are there in lower case, too, and in no other place. -/
theorem before?_small {back : List Char} (h : ∀ c ∈ back, IsMark c) (cs : List Char) :
    before? back (small cs) = (before? back cs).map small := by
  have hafter : ∀ front cs, (∀ c ∈ front, IsMark c) →
      after? front (small cs) = (after? front cs).map small := by
    intro front
    induction front with
    | nil => simp [after?]
    | cons f fs ih =>
      intro cs hf
      cases cs with
      | nil => rfl
      | cons c cs =>
        have hc : f = c.toLower ↔ f = c := by
          rw [eq_comm, toLower_eq_iff (hf f (List.mem_cons_self ..)), eq_comm]
        have hrest := ih cs fun d hd => hf d (List.mem_cons_of_mem _ hd)
        have hcons : small (c :: cs) = c.toLower :: small cs := rfl
        rw [hcons]
        simp only [after?, hc]
        split
        · exact hrest
        · rfl
  rw [before?, before?, reverse_small, hafter _ _ (by simpa using h)]
  cases after? back.reverse cs.reverse <;> simp [reverse_small]

/-! ## Lower case of any text -/

def IsAscii (cs : List Char) : Prop := ∀ c ∈ cs, c.toNat < 128

theorem lowerAfter_eq_small (h : IsAscii cs) (seen : List Char) :
    lowerAfter seen cs = small cs := by
  induction cs generalizing seen with
  | nil => rfl
  | cons c cs ih =>
    have hc := h c (List.mem_cons_self ..)
    have hsigma : c.toNat ≠ 0x3A3 := by omega
    simp only [lowerAfter, if_neg hsigma, lowerChar, if_pos hc,
      ih fun d hd => h d (List.mem_cons_of_mem _ hd)]
    rfl

/-- On ASCII texts the two notions of lower case agree. -/
theorem lowercase_eq_small (h : IsAscii cs) : lowercase cs = small cs := lowerAfter_eq_small h []

end Text

/-! ## Names without brackets -/

/-- What an answer says about the type: its definition and how deep an array it is. -/
def NamedType.core (answer : Option NamedType) : Option (TypeDefinition × UInt8) :=
  answer.map fun n => (n.definition, n.depth)

/-- The same arrays are made of the same elements only. -/
theorem NamedType.core_inArray_inj {a b : Option NamedType} :
    core (a.map inArray) = core (b.map inArray) ↔ core a = core b := by
  cases a <;> cases b <;> simp [core, inArray]

section

variable {a b : List Char}

theorem cutArguments_small (depth : Nat) (cs : List Char) :
    cutArguments depth (small cs) = (cutArguments depth cs).map small := by
  have hconsFirst : ∀ c (ws : List (List Char)),
      consFirst (Char.toLower c) (ws.map small) = (consFirst c ws).map small := by
    intro c ws
    cases ws <;> rfl
  induction cs generalizing depth with
  | nil => rfl
  | cons c cs ih =>
    have hcons : small (c :: cs) = c.toLower :: small cs := rfl
    rw [hcons]
    simp only [cutArguments, ih, hconsFirst, toLower_eq_iff (show IsMark ',' by decide),
      toLower_eq_iff (show IsMark '<' by decide), toLower_eq_iff (show IsMark '[' by decide),
      toLower_eq_iff (show IsMark '>' by decide), toLower_eq_iff (show IsMark ']' by decide)]
    split
    · rfl
    · rfl

theorem splitArguments_small (list : List Char) :
    splitArguments (small list) = (splitArguments list).map small := by
  have htrim : ∀ ws : List (List Char), (ws.map small).map trim = (ws.map trim).map small := by
    intro ws
    simp [trim_small]
  have hblank : ∀ ws : List (List Char),
      (ws.map small).getLast? = some [] ↔ ws.getLast? = some [] := by
    intro ws
    rw [List.getLast?_map]
    cases ws.getLast? <;> simp [small]
  simp only [splitArguments, cutArguments_small, htrim, hblank]
  split
  · simp
  · rfl

/-- A generic name has as many arguments and the same base in any case. -/
theorem splitGeneric_small (name : List Char) :
    small (splitGeneric (small name)).1 = small (splitGeneric name).1 := by
  have hopen : ∀ c : Char, (c.toLower != '<') = (c != '<') := bne_toLower (by decide)
  have hbase : ∀ cs : List Char,
      (small cs).takeWhile (· != '<') = small (cs.takeWhile (· != '<')) := takeWhile_small hopen
  have hinner : ∀ cs : List Char,
      (small cs).dropWhile (· != '<') = small (cs.dropWhile (· != '<')) := dropWhile_small hopen
  have hdrop : ∀ cs : List Char, (small cs).drop 1 = small (cs.drop 1) := by
    intro cs
    simp [small]
  have hgetD : ∀ cs : List Char,
      ((before? ['>'] cs).map small).getD (small cs) = small ((before? ['>'] cs).getD cs) := by
    intro cs
    cases before? ['>'] cs <;> rfl
  simp only [splitGeneric, hbase, hinner, hdrop, hgetD, splitArguments_small, List.length_map,
    before?_small (show ∀ c ∈ ['>'], IsMark c by simp [IsMark]),
    contains_small (show IsMark arityMark by decide)]
  split
  · rw [small_small]
  · rw [small_append, small_append, small_small]

end

namespace TypeTable

variable {t : TypeTable} {a b : List Char}

theorem findFullName?_congr (h : small a = small b) : t.findFullName? a = t.findFullName? b := by
  simp only [findFullName?, sameIgnoringCase_congr h]

theorem findLoosely?_congr (ha : IsAscii a) (hb : IsAscii b) (h : small a = small b) :
    t.findLoosely? a = t.findLoosely? b := by
  have hdot : a.contains '.' = b.contains '.' := by
    rw [← contains_small (show IsMark '.' by decide), h, contains_small (by decide)]
  have hsystem : t.findFullName? ("System.".toList ++ a) =
      t.findFullName? ("System.".toList ++ b) := by
    refine findFullName?_congr ?_
    rw [small_append, small_append, h]
  simp only [findLoosely?, hsystem, sameIgnoringCase_congr h, hdot, lowercase_eq_small ha,
    lowercase_eq_small hb, h]

theorem isAscii_splitGeneric (h : IsAscii a) : IsAscii (splitGeneric a).1 := by
  have hdigits : ∀ n : Nat, IsAscii (toString n).toList := by
    intro n c hc
    rw [Nat.toString_eq_repr, Nat.repr, String.toList_ofList] at hc
    have hdigit := Char.isDigit_iff_toNat.mp
      (Nat.isDigit_of_mem_toDigits (by decide) (by decide) hc)
    have hnine : '9'.toNat = 57 := rfl
    omega
  have hbase : IsAscii (a.takeWhile (· != '<')) := fun c hc =>
    h c (List.takeWhile_sublist _ |>.subset hc)
  simp only [splitGeneric]
  split
  · exact hbase
  · intro c hc
    rcases List.mem_append.mp hc with hc | hc
    · exact hbase c hc
    · rcases List.mem_cons.mp hc with rfl | hc
      · decide
      · exact hdigits _ c hc

/-- A name without brackets finds the same type in any case. -/
theorem core_findPlain?_congr (ha : IsAscii a) (hb : IsAscii b) (h : small a = small b) :
    NamedType.core (t.findPlain? a) = NamedType.core (t.findPlain? b) := by
  have hloose : ∀ {x y : List Char}, IsAscii x → IsAscii y → small x = small y →
      (t.findFullName? x <|> t.findLoosely? x) = (t.findFullName? y <|> t.findLoosely? y) := by
    intro x y hx hy hxy
    rw [findFullName?_congr hxy, findLoosely?_congr hx hy hxy]
  have hgeneric : a.contains '<' = b.contains '<' := by
    rw [← contains_small (show IsMark '<' by decide), h, contains_small (by decide)]
  have hsplit : small (splitGeneric a).1 = small (splitGeneric b).1 := by
    rw [← splitGeneric_small a, h, splitGeneric_small b]
  unfold findPlain?
  rw [findFullName?_congr h, hgeneric]
  split
  · rfl
  · cases b.contains '<' with
    | true =>
      simp only [if_true, hloose (isAscii_splitGeneric ha) (isAscii_splitGeneric hb) hsplit]
      cases t.findFullName? (splitGeneric b).1 <|> t.findLoosely? (splitGeneric b).1 <;> rfl
    | false =>
      simp only [Bool.false_eq_true, if_false, hloose ha hb h]

/-- In another case a name has the part in another case. -/
theorem part?_congr (hname : Primitive.ofName? a = Primitive.ofName? b) (h : small a = small b) :
    (t.part? a).map small = (t.part? b).map small := by
  have hmarks : ∀ c ∈ ['[', ']'], IsMark c := by simp [IsMark]
  have hbefore : (before? ['[', ']'] a).map small = (before? ['[', ']'] b).map small := by
    rw [← before?_small hmarks, h, before?_small hmarks]
  unfold part? elementName?
  rw [hname, findFullName?_congr h]
  split
  · rfl
  · split
    · rfl
    · exact hbefore

/-- Names that differ in case only stand for the same type if their parts do. -/
theorem core_find?_congr (ha : IsAscii a) (hb : IsAscii b)
    (hname : Primitive.ofName? a = Primitive.ofName? b) (h : small a = small b)
    (hparts : ∀ p q, t.part? a = some p → t.part? b = some q → small p = small q →
      NamedType.core (t.find? p) = NamedType.core (t.find? q)) :
    NamedType.core (t.find? a) = NamedType.core (t.find? b) := by
  have hpart := part?_congr (t := t) hname h
  cases hp : t.part? a with
  | none =>
    rw [hp] at hpart
    rw [find?_of_whole hp, find?_of_whole (Option.map_eq_none_iff.mp hpart.symm), hname]
    split
    · rfl
    · exact core_findPlain?_congr ha hb h
  | some p =>
    rw [hp] at hpart
    obtain ⟨q, hq, hsmall⟩ := Option.map_eq_some_iff.mp hpart.symm
    rw [find?_of_part? hp, find?_of_part? hq, NamedType.core_inArray_inj]
    exact hparts p q hp hq hsmall.symm

end TypeTable

namespace Primitive

variable {a b : List Char} {kind : Primitive}

/-- A property of all keywords holds of a text that is one. -/
theorem of_ofKeyword? {p : List Char → Prop} (hall : ∀ k ∈ all, ∀ w ∈ k.keyword?, p w.toList)
    (h : ofKeyword? a = some kind) : p a := by
  have hword : kind.keyword? = some (String.ofList a) := by
    have hfound := List.find?_some h
    exact beq_iff_eq.mp hfound
  simpa using hall kind (List.mem_of_find?_eq_some h) (String.ofList a) hword

theorem small_of_keyword (h : ofKeyword? a = some kind) : small a = a :=
  of_ofKeyword? (p := fun w => small w = w) (by decide +kernel) h

theorem ofKeyword?_of_ofName? (h : ofName? a = none) : ofKeyword? a = none := by
  unfold ofName? at h
  generalize all.find? _ = named at h
  cases named with
  | none => exact h
  | some kind => cases h

theorem simpleName_congr (h : small a = small b) : small (simpleName a) = small (simpleName b) := by
  have htake : small (a.take 7) = small (b.take 7) := by
    rw [small, List.map_take, ← small, h, small, ← List.map_take, small]
  have hdrop : small (a.drop 7) = small (b.drop 7) := by
    rw [small, List.map_drop, ← small, h, small, ← List.map_drop, small]
  have hsame : sameIgnoringCase (a.take 7) "System.".toList =
      sameIgnoringCase (b.take 7) "System.".toList := by
    rw [Bool.eq_iff_iff, sameIgnoringCase_iff, sameIgnoringCase_iff, htake]
  unfold simpleName
  rw [hsame]
  split
  · exact hdrop
  · exact h

/-- Names that are no keywords are those of the same built-in type in any case. -/
theorem ofName?_congr (ha : ofKeyword? a = none) (hb : ofKeyword? b = none)
    (h : small a = small b) : ofName? a = ofName? b := by
  unfold ofName?
  rw [ha, hb]
  simp only [sameIgnoringCase_congr (simpleName_congr h)]

end Primitive

end MethodLift
