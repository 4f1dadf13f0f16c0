import MethodLift.Proofs.NameCase

/-!
# Names looked up before

What a cache answers to a name may depend on what it was asked before, since names share a key that
do not stand for the same type. `Int[]` and `int[]` do: the case of a keyword counts, but the key of
an array is in lower case. So do `int` and `keyword:int`, and names that are the same in lower case
beyond ASCII. `Settled` excludes this for one name, and the independence of its answers comes down
to exactly that (`independent_iff`). Names that `isOrdinary` accepts never get in each other's way.
-/

namespace MethodLift

open MethodLift.Text

/-! ## Keys of arrays -/

namespace Text

/-- Past a bracket no cased character is met that was not met before it. -/
theorem meetsCased_append_bracket (cs rest : List Char) :
    meetsCased (cs ++ '[' :: rest) = meetsCased cs := by
  have hbracket : inRanges caseIgnorableRanges '[' = false ∧ inRanges casedRanges '[' = false := by
    decide +kernel
  induction cs with
  | nil => simp [meetsCased, hbracket]
  | cons c cs ih =>
    by_cases hc : inRanges caseIgnorableRanges c = true
    · simpa [meetsCased, hc] using ih
    · simp [meetsCased, hc]

/-- Brackets at the end of a text do not change the lower case of what stands before them. -/
theorem lowercase_append_brackets (cs : List Char) :
    lowercase (cs ++ ['[', ']']) = lowercase cs ++ ['[', ']'] := by
  have hall : ∀ seen, lowerAfter seen (cs ++ ['[', ']']) = lowerAfter seen cs ++ ['[', ']'] := by
    induction cs with
    | nil =>
      intro seen
      rfl
    | cons c cs ih =>
      intro seen
      simp only [List.cons_append, lowerAfter, ih, meetsCased_append_bracket, List.append_assoc]
  exact hall []

/-- The number of brackets at the end of a text, which is given last character first. -/
def bracketsBack : List Char → Nat
  | ']' :: '[' :: cs => bracketsBack cs + 1
  | _ => 0

/-- The number of brackets at the end of a text. -/
def brackets (cs : List Char) : Nat := bracketsBack cs.reverse

theorem brackets_append (cs : List Char) : brackets (cs ++ ['[', ']']) = brackets cs + 1 := by
  simp [brackets, bracketsBack]

end Text

namespace NameCache

variable {t : TypeTable} {c : NameCache} {P : List Char → Prop} {m n name part : List Char}
  {answer : Option NamedType} {r : Nat}

theorem key_of_part? (h : t.part? name = some part) : key name = lowercase part ++ ['[', ']'] := by
  have hkeyword : Primitive.ofKeyword? name = none :=
    Primitive.ofKeyword?_of_ofName? (TypeTable.ofName?_of_part? h)
  rw [key, hkeyword, TypeTable.eq_of_part? h, lowercase_append_brackets]
  rfl

/-- The key of an array ends in more brackets than the key of its part. -/
theorem brackets_key_lt (h : t.part? name = some part) :
    brackets (key part) < brackets (key name) := by
  rw [key_of_part? h, brackets_append, key]
  split
  · rename_i hsome
    obtain ⟨kind, hkind⟩ := Option.isSome_iff_exists.mp hsome
    have hnone : brackets ("keyword:".toList ++ part) = 0 :=
      Primitive.of_ofKeyword? (p := fun w => brackets ("keyword:".toList ++ w) = 0)
        (by decide +kernel) hkind
    omega
  · exact Nat.lt_succ_self _

/-! ## Histories -/

/-- The cache after a history of look-ups. -/
def after (t : TypeTable) (history : List (List Char)) : NameCache :=
  history.foldl (fun c name => (c.lookup t name).2) {}

theorem after_concat (history : List (List Char)) (name : List Char) :
    after t (history ++ [name]) = ((after t history).lookup t name).2 := by
  simp [after]

/-- An answer is kept under the key of its name. -/
theorem get?_lookup (c : NameCache) (t : TypeTable) (name : List Char) :
    (c.lookup t name).2.answers.get? (key name) = some (c.lookup t name).1 := by
  cases hc : c.answers.get? (key name) with
  | some answer => rw [lookup_of_kept hc, hc]
  | none =>
    cases h : t.part? name with
    | none => simp [lookup_of_whole hc h, FinMap.get?_insert]
    | some part => simp [lookup_of_part hc h, FinMap.get?_insert]

/-- So the next name with that key gets it, too. -/
theorem answer_of_key (h : key m = key n) :
    ((c.lookup t m).2.lookup t n).1 = (c.lookup t m).1 := by
  rw [lookup_of_kept (h ▸ get?_lookup c t m)]

/-- Every key on record ends in at most `r` brackets. -/
def KeysWithin (c : NameCache) (r : Nat) : Prop :=
  ∀ k answer, c.answers.get? k = some answer → brackets k ≤ r

theorem KeysWithin.insert (h : c.KeysWithin r) {k : List Char} (hk : brackets k ≤ r) :
    KeysWithin ⟨c.answers.insert k answer⟩ r := by
  intro k' answer' hget
  rw [FinMap.get?_insert] at hget
  split at hget
  · subst k'
    exact hk
  · exact h k' answer' hget

theorem KeysWithin.lookup (h : c.KeysWithin r) (hname : brackets (key name) ≤ r) :
    (c.lookup t name).2.KeysWithin r := by
  induction name using t.part_induction generalizing c with
  | whole name hwhole =>
    cases hc : c.answers.get? (key name) with
    | some answer => rwa [lookup_of_kept hc]
    | none =>
      rw [lookup_of_whole hc hwhole]
      exact h.insert hname
  | array name part hpart ih =>
    cases hc : c.answers.get? (key name) with
    | some answer => rwa [lookup_of_kept hc]
    | none =>
      have hlt := brackets_key_lt hpart
      rw [lookup_of_part hc hpart]
      exact (ih h (by omega)).insert hname

theorem keysWithin_after {history : List (List Char)}
    (h : ∀ m ∈ history, brackets (key m) ≤ r) : (after t history).KeysWithin r :=
  List.foldlRecOn (motive := (KeysWithin · r)) history _ (fun _ _ hget => by cases hget)
    fun _ hc m hm => hc.lookup (h m hm)

/-! ## Settled names -/

/-- Among the names of `P`, those that share the key of `n` stand for the same type as `n`, and the
names that they are arrays of are settled in turn. -/
inductive Settled (t : TypeTable) (P : List Char → Prop) : List Char → Prop
  | intro {n : List Char}
      (alike : ∀ m, P m → key m = key n → NamedType.core (t.find? m) = NamedType.core (t.find? n))
      (parts : ∀ m part, P m → key m = key n → t.part? m = some part → Settled t P part) :
      Settled t P n

theorem Settled.of_key (h : Settled t P n) (hm : P m) (hkey : key m = key n) : Settled t P m := by
  cases h with
  | intro alike parts =>
    refine .intro (fun l hl hlm => ?_) (fun l part hl hlm => parts l part hl (hlm.trans hkey))
    rw [alike l hl (hlm.trans hkey), alike m hm hkey]

/-- What is kept is right for the settled names. -/
def Honest (t : TypeTable) (P : List Char → Prop) (c : NameCache) : Prop :=
  ∀ k answer, c.answers.get? k = some answer → ∃ m, P m ∧ key m = k ∧
    (Settled t P m → NamedType.core answer = NamedType.core (t.find? m))

theorem Honest.insert (h : Honest t P c) (hn : P n)
    (hanswer : Settled t P n → NamedType.core answer = NamedType.core (t.find? n)) :
    Honest t P ⟨c.answers.insert (key n) answer⟩ := by
  intro k kept hget
  rw [FinMap.get?_insert] at hget
  split at hget
  · cases hget
    exact ⟨n, hn, Eq.symm ‹k = key n›, hanswer⟩
  · exact h k kept hget

theorem Honest.answer_of_kept (h : Honest t P c)
    (hget : c.answers.get? (key n) = some answer) (hsettled : Settled t P n) :
    NamedType.core answer = NamedType.core (t.find? n) := by
  obtain ⟨m, hm, hkey, hanswer⟩ := h _ _ hget
  rw [hanswer (hsettled.of_key hm hkey)]
  cases hsettled with
  | intro alike _ => exact alike m hm hkey

/-- If no history of names with at most as many brackets makes a difference to a name, it is
settled. -/
theorem settled_of_independent {n : List Char}
    (h : ∀ history, (∀ m ∈ history, P m ∧ brackets (key m) ≤ brackets (key n)) →
      NamedType.core ((after t history).lookup t n).1 = NamedType.core (t.find? n)) :
    Settled t P n := by
  have halike : ∀ m, P m → key m = key n →
      NamedType.core (t.find? m) = NamedType.core (t.find? n) := by
    intro m hm hkey
    have hone := h [m] (by simp [hm, hkey])
    rwa [show after t [m] = (({} : NameCache).lookup t m).2 from rfl, answer_of_key hkey,
      lookup_empty] at hone
  refine .intro halike fun m part hm hkey hpart => ?_
  have hlt := brackets_key_lt hpart
  refine settled_of_independent fun history hhistory => ?_
  -- With so few brackets in the history, nothing is kept for `m` yet.
  have hmiss : (after t history).answers.get? (key m) = none := by
    have hwithin := keysWithin_after (t := t) fun l hl => (hhistory l hl).2
    rw [Option.eq_none_iff_forall_ne_some]
    intro answer hget
    have hle := hwithin _ _ hget
    omega
  have hlonger := h (history ++ [m]) (by
    intro l hl
    rcases List.mem_append.mp hl with hl | hl
    · have hl' := hhistory l hl
      exact ⟨hl'.1, by rw [← hkey]; omega⟩
    · rw [List.mem_singleton.mp hl, hkey]
      exact ⟨hm, Nat.le_refl _⟩)
  rwa [after_concat, answer_of_key hkey, lookup_of_part hmiss hpart, ← halike m hm hkey,
    TypeTable.find?_of_part? hpart, NamedType.core_inArray_inj] at hlonger
termination_by brackets (key n)
decreasing_by rw [← hkey]; exact hlt

section

variable (hclosed : ∀ m part, P m → t.part? m = some part → P part)

include hclosed

/-- An honest cache gives settled names the right answer, and it stays honest. -/
theorem Honest.lookup (h : Honest t P c) (hn : P n) :
    (Settled t P n → NamedType.core (c.lookup t n).1 = NamedType.core (t.find? n)) ∧
      Honest t P (c.lookup t n).2 := by
  induction n using t.part_induction generalizing c with
  | whole n hwhole =>
    cases hc : c.answers.get? (key n) with
    | some answer =>
      rw [lookup_of_kept hc]
      exact ⟨h.answer_of_kept hc, h⟩
    | none =>
      rw [lookup_of_whole hc hwhole]
      exact ⟨fun _ => rfl, h.insert hn fun _ => rfl⟩
  | array n part hpart ih =>
    cases hc : c.answers.get? (key n) with
    | some answer =>
      rw [lookup_of_kept hc]
      exact ⟨h.answer_of_kept hc, h⟩
    | none =>
      obtain ⟨hanswer, hhonest⟩ := ih h (hclosed n part hn hpart)
      have harray : Settled t P n → NamedType.core ((c.lookup t part).1.map NamedType.inArray) =
          NamedType.core (t.find? n) := by
        intro hsettled
        cases hsettled with
        | intro _ parts =>
          rw [TypeTable.find?_of_part? hpart, NamedType.core_inArray_inj]
          exact hanswer (parts n part hn rfl hpart)
      rw [lookup_of_part hc hpart]
      exact ⟨harray, hhonest.insert hn harray⟩

theorem honest_after {history : List (List Char)} (h : ∀ m ∈ history, P m) :
    Honest t P (after t history) :=
  List.foldlRecOn (motive := Honest t P) history _ (fun _ _ hget => by cases hget) fun _ hc m hm =>
    (hc.lookup hclosed (h m hm)).2

/-- The answers to a name do not depend on the history exactly if the name is settled. -/
theorem independent_iff (hn : P n) :
    (∀ history, (∀ m ∈ history, P m) →
      NamedType.core ((after t history).lookup t n).1 = NamedType.core (t.find? n)) ↔
      Settled t P n := by
  constructor
  · intro h
    exact settled_of_independent fun history hhistory =>
      h history fun m hm => (hhistory m hm).1
  · intro hsettled history hhistory
    exact ((honest_after hclosed hhistory).lookup hclosed hn).1 hsettled

end

/-- If names of `P` that share a key stand for the same type, all of them are settled. -/
theorem settled_of_alike
    (hclosed : ∀ m part, P m → t.part? m = some part → P part)
    (halike : ∀ m n, P m → P n → key m = key n →
      NamedType.core (t.find? m) = NamedType.core (t.find? n))
    {n : List Char} (hn : P n) : Settled t P n :=
  .intro (fun m hm hkey => halike m n hm hn hkey) fun m part hm _hkey hpart =>
    settled_of_alike hclosed halike (hclosed m part hm hpart)
termination_by brackets (key n)
decreasing_by rw [← _hkey]; exact brackets_key_lt hpart

/-! ## Ordinary names -/

/-- The name does not look like the key of a keyword. -/
def isUnmarked (name : List Char) : Bool :=
  match after? "keyword:".toList (small name) with
  | some word => (Primitive.ofKeyword? word).isNone
  | none => true

/-- If the name is a keyword in another case, it is the name of the same type. -/
def isFaithful (name : List Char) : Bool :=
  match Primitive.ofKeyword? (small name) with
  | some kind => Primitive.ofName? name == some kind
  | none => true

/-- An ASCII name that is not spelled like the key of a keyword. Before brackets, a keyword stands
in its own case, or in another one that is the name of the same type. -/
def isOrdinary (name : List Char) : Bool :=
  name.all (fun c => decide (c.toNat < 128)) && isUnmarked name &&
    match _h : before? ['[', ']'] name with
    | some part => isFaithful part && isOrdinary part
    | none => true
termination_by name.length
decreasing_by
  have hlength := length_of_before? _h
  simp at hlength
  omega

theorem isAscii_of_isOrdinary (h : isOrdinary name = true) : IsAscii name := by
  rw [isOrdinary] at h
  simp only [Bool.and_eq_true, List.all_eq_true, decide_eq_true_eq] at h
  exact h.1.1

theorem isUnmarked_of_isOrdinary (h : isOrdinary name = true) : isUnmarked name = true := by
  rw [isOrdinary] at h
  simp only [Bool.and_eq_true] at h
  exact h.1.2

theorem isOrdinary_of_part? (h : isOrdinary name = true) (hpart : t.part? name = some part) :
    isFaithful part = true ∧ isOrdinary part = true := by
  have hbefore : before? ['[', ']'] name = some part :=
    before?_eq_some_iff.mpr (TypeTable.eq_of_part? hpart)
  rw [isOrdinary] at h
  simp only [Bool.and_eq_true] at h
  have hrest := h.2
  split at hrest
  · rename_i part' hpart'
    rw [hbefore] at hpart'
    cases hpart'
    exact Bool.and_eq_true_iff.mp hrest
  · rename_i hnone
    rw [hbefore] at hnone
    cases hnone

/-- Faithful names that differ in case only are those of the same built-in type. -/
theorem ofName?_of_isFaithful (hm : isFaithful m = true) (hn : isFaithful n = true)
    (h : small m = small n) : Primitive.ofName? m = Primitive.ofName? n := by
  have hnone : ∀ {a : List Char}, Primitive.ofKeyword? (small a) = none →
      Primitive.ofKeyword? a = none := by
    intro a ha
    cases hk : Primitive.ofKeyword? a with
    | none => rfl
    | some kind =>
      rw [Primitive.small_of_keyword hk, hk] at ha
      cases ha
  unfold isFaithful at hm hn
  rw [h] at hm
  cases hk : Primitive.ofKeyword? (small n) with
  | some kind =>
    rw [hk] at hm hn
    rw [beq_iff_eq.mp hm, beq_iff_eq.mp hn]
  | none => exact Primitive.ofName?_congr (hnone (h ▸ hk)) (hnone hk) h

/-- Ordinary names that differ in case only stand for the same type if they are those of the same
built-in type, or of none. -/
theorem core_find?_of_isOrdinary {m n : List Char} (hm : isOrdinary m = true)
    (hn : isOrdinary n = true) (hname : Primitive.ofName? m = Primitive.ofName? n)
    (h : small m = small n) : NamedType.core (t.find? m) = NamedType.core (t.find? n) := by
  refine TypeTable.core_find?_congr (isAscii_of_isOrdinary hm) (isAscii_of_isOrdinary hn) hname h
    fun p q hp hq hpq => ?_
  obtain ⟨hfp, hop⟩ := isOrdinary_of_part? hm hp
  obtain ⟨hfq, hoq⟩ := isOrdinary_of_part? hn hq
  exact core_find?_of_isOrdinary hop hoq (ofName?_of_isFaithful hfp hfq hpq) hpq
termination_by m.length
decreasing_by exact TypeTable.length_of_elementName? (TypeTable.elementName?_of_part? hp)

theorem key_of_keyword {kind : Primitive} (h : Primitive.ofKeyword? name = some kind) :
    key name = "keyword:".toList ++ name := by
  rw [key, h]
  rfl

theorem key_of_isAscii (h : IsAscii name) (hkeyword : Primitive.ofKeyword? name = none) :
    key name = small name := by
  rw [key, hkeyword, ← lowercase_eq_small h]
  rfl

/-- Keywords share their keys with no other unmarked ASCII name. -/
theorem key_ne_of_keyword {kind : Primitive} (hm : Primitive.ofKeyword? m = some kind)
    (hn : IsAscii n) (hunmarked : isUnmarked n = true) (hkeyword : Primitive.ofKeyword? n = none) :
    key m ≠ key n := by
  intro h
  rw [key_of_keyword hm, key_of_isAscii hn hkeyword] at h
  rw [isUnmarked, after?_eq_some_iff.mpr h.symm] at hunmarked
  simp [hm] at hunmarked

/-- Unmarked ASCII names with the same key are the same, or they differ in case and are no
keywords. -/
theorem eq_or_small_of_key (hm : IsAscii m) (hm' : isUnmarked m = true) (hn : IsAscii n)
    (hn' : isUnmarked n = true) (h : key m = key n) :
    m = n ∨ Primitive.ofKeyword? m = none ∧ Primitive.ofKeyword? n = none ∧ small m = small n := by
  cases hkm : Primitive.ofKeyword? m with
  | some kind =>
    cases hkn : Primitive.ofKeyword? n with
    | none => exact absurd h (key_ne_of_keyword hkm hn hn' hkn)
    | some kind' =>
      rw [key_of_keyword hkm, key_of_keyword hkn] at h
      exact .inl (List.append_cancel_left h)
  | none =>
    cases hkn : Primitive.ofKeyword? n with
    | some kind => exact absurd h.symm (key_ne_of_keyword hkn hm hm' hkm)
    | none =>
      rw [key_of_isAscii hm hkm, key_of_isAscii hn hkn] at h
      exact .inr ⟨rfl, rfl, h⟩

/-- Ordinary names with the same key stand for the same type. -/
theorem core_find?_of_key (hm : isOrdinary m = true) (hn : isOrdinary n = true)
    (h : key m = key n) : NamedType.core (t.find? m) = NamedType.core (t.find? n) := by
  rcases eq_or_small_of_key (isAscii_of_isOrdinary hm) (isUnmarked_of_isOrdinary hm)
    (isAscii_of_isOrdinary hn) (isUnmarked_of_isOrdinary hn) h with rfl | ⟨hkm, hkn, hsmall⟩
  · rfl
  · exact core_find?_of_isOrdinary hm hn (Primitive.ofName?_congr hkm hkn hsmall) hsmall

/-- For every table: the definition and depth that a name is answered with are those from an empty
cache after every history exactly if the name is settled among all names. Among ordinary names the
history never matters. -/
theorem lookup_after_iff (t : TypeTable) :
    (∀ n, (∀ history, NamedType.core ((after t history).lookup t n).1 =
        NamedType.core (({} : NameCache).lookup t n).1) ↔ Settled t (fun _ => True) n) ∧
      ∀ history n, (∀ m ∈ history, isOrdinary m = true) → isOrdinary n = true →
        NamedType.core ((after t history).lookup t n).1 =
          NamedType.core (({} : NameCache).lookup t n).1 := by
  simp only [lookup_empty]
  constructor
  · intro n
    rw [← independent_iff (fun _ _ _ _ => trivial) trivial]
    simp
  · intro history n hhistory hn
    have hsettled : Settled t (isOrdinary · = true) n :=
      settled_of_alike (fun _ _ hm hpart => (isOrdinary_of_part? hm hpart).2)
        (fun _ _ hm hn hkey => core_find?_of_key hm hn hkey) hn
    exact (independent_iff (fun _ _ hm hpart => (isOrdinary_of_part? hm hpart).2) hn).mpr hsettled
      history hhistory

/-- Asked for an array of `Int`, which there is not, a cache does not find the array of `int`
either, so the name `int[]` is not settled. After ordinary names it is found. -/
theorem lookup_after_iff_keyword :
    ((after ⟨[], ∅⟩ ["Int[]".toList]).lookup ⟨[], ∅⟩ "int[]".toList).1 = none ∧
      (({} : NameCache).lookup ⟨[], ∅⟩ "int[]".toList).1 =
        some { definition := TypeTable.supplied .int32, depth := 1 } ∧
      ¬Settled ⟨[], ∅⟩ (fun _ => True) "int[]".toList ∧
      (∀ m ∈ ["Int".toList, "INT32[]".toList, "String[][]".toList], isOrdinary m = true) ∧
      NamedType.core ((after ⟨[], ∅⟩ ["Int".toList, "INT32[]".toList, "String[][]".toList]).lookup
          ⟨[], ∅⟩ "int[]".toList).1 =
        NamedType.core (({} : NameCache).lookup ⟨[], ∅⟩ "int[]".toList).1 := by
  have hlost : ((after ⟨[], ∅⟩ ["Int[]".toList]).lookup ⟨[], ∅⟩ "int[]".toList).1 = none := by
    decide +kernel
  have hfresh : (({} : NameCache).lookup ⟨[], ∅⟩ "int[]".toList).1 =
      some { definition := TypeTable.supplied .int32, depth := 1 } := by
    decide +kernel
  have hordinary : ∀ m ∈ ["Int".toList, "INT32[]".toList, "String[][]".toList],
      isOrdinary m = true := by
    decide +kernel
  obtain ⟨hsettled, hnever⟩ := lookup_after_iff ⟨[], ∅⟩
  refine ⟨hlost, hfresh, fun h => ?_, hordinary, hnever _ _ hordinary (by decide +kernel)⟩
  have hsame := (hsettled _).mpr h ["Int[]".toList]
  rw [hlost, hfresh] at hsame
  cases hsame

end NameCache

end MethodLift
