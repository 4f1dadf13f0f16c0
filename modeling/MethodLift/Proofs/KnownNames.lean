import MethodLift.Proofs.NameHistory

/-!
# Names that are always found

The name of a built-in type and the full name of a loaded type are answered as they stand, before
they are taken apart as an array, a generic type or a suffix. Names with the key of such a name are
the same name in another case, so what a cache keeps under the key is the answer to it whoever asked
first (`Reliable`). Look-ups keep it so, and a known name is found after every history of names that
do not look like the key of a keyword (`known_names_resolve`).
-/

namespace MethodLift

open MethodLift.Text

namespace Primitive

variable {kind : Primitive} {name : List Char}

/-- The name is that of the built-in type: its simple name or its name after `System.`, in any case,
or exactly its keyword. -/
def IsNamed (kind : Primitive) (name : List Char) : Prop :=
  sameIgnoringCase name kind.name.toList = true ∨
    sameIgnoringCase name ("System." ++ kind.name).toList = true ∨
    kind.keyword? = some (String.ofList name)

theorem mem_all (kind : Primitive) : kind ∈ all := by
  cases kind <;> decide

/-- Built-in types have different names. -/
theorem find?_name (kind : Primitive) :
    (all.find? fun p => sameIgnoringCase p.name.toList kind.name.toList) = some kind := by
  have hall : ∀ kind ∈ all,
      (all.find? fun p => sameIgnoringCase p.name.toList kind.name.toList) = some kind := by
    decide +kernel
  exact hall kind (mem_all kind)

theorem simpleName_name (kind : Primitive) : simpleName kind.name.toList = kind.name.toList := by
  have hall : ∀ kind ∈ all, simpleName kind.name.toList = kind.name.toList := by decide +kernel
  exact hall kind (mem_all kind)

theorem simpleName_system (cs : List Char) : simpleName ("System.".toList ++ cs) = cs := by
  have htake : ("System.".toList ++ cs).take 7 = "System.".toList := by simp
  have hdrop : ("System.".toList ++ cs).drop 7 = cs := by simp
  rw [simpleName, htake, hdrop, if_pos (sameIgnoringCase_iff.mpr rfl)]

/-- A keyword that is also a name is that of its own type. -/
theorem ofName?_keyword {word : String} (h : kind.keyword? = some word) :
    ofName? word.toList = some kind := by
  have hall : ∀ kind ∈ all, ∀ word ∈ kind.keyword?, ofName? word.toList = some kind := by
    decide +kernel
  exact hall kind (mem_all kind) word h

theorem ofName?_of_simpleName (h : small (simpleName name) = small kind.name.toList) :
    ofName? name = some kind := by
  unfold ofName?
  simp only [sameIgnoringCase_congr h, find?_name]
  rfl

theorem ofName?_of_isNamed (h : kind.IsNamed name) : ofName? name = some kind := by
  rcases h with h | h | h
  · refine ofName?_of_simpleName ?_
    rw [simpleName_congr (sameIgnoringCase_iff.mp h), simpleName_name]
  · refine ofName?_of_simpleName ?_
    rw [simpleName_congr (sameIgnoringCase_iff.mp h), String.toList_append, simpleName_system]
  · simpa using ofName?_keyword h

/-- No other names are those of built-in types. -/
theorem isNamed_of_ofName? (h : ofName? name = some kind) : kind.IsNamed name := by
  unfold ofName? at h
  cases hfind : all.find? fun p => sameIgnoringCase p.name.toList (simpleName name) with
  | none =>
    rw [hfind] at h
    have hword := List.find?_some (show ofKeyword? name = some kind from h)
    exact .inr (.inr (beq_iff_eq.mp hword))
  | some found =>
    rw [hfind] at h
    cases h
    have hfound := List.find?_some hfind
    rw [sameIgnoringCase_iff, simpleName] at hfound
    split at hfound
    · rename_i hsystem
      refine .inr (.inl ?_)
      rw [sameIgnoringCase_iff, String.toList_append, small_append, hfound,
        ← sameIgnoringCase_iff.mp hsystem, ← small_append, List.take_append_drop]
    · exact .inl (sameIgnoringCase_iff.mpr hfound.symm)

end Primitive

namespace Text

theorem isAscii_of_small {a b : List Char} (hb : IsAscii b) (h : small a = small b) :
    IsAscii a := by
  intro c hc
  have hmem : c.toLower ∈ small b := h ▸ List.mem_map_of_mem hc
  obtain ⟨d, hd, heq⟩ := List.mem_map.mp hmem
  have hlower := congrArg Char.toNat heq
  have hd' := hb d hd
  rw [toNat_toLower, toNat_toLower] at hlower
  split at hlower <;> split at hlower <;> omega

end Text

namespace NameCache

variable {t : TypeTable} {c : NameCache} {m n name part : List Char} {d : TypeDefinition}

/-- An ASCII name that does not start like the key of a keyword, in any case. -/
def IsPlain (name : List Char) : Prop := IsAscii name ∧ ¬"keyword:".toList <+: small name

-- A search over all characters would decide this, too, but not in reasonable time.
instance (cs : List Char) : Decidable (IsAscii cs) :=
  List.decidableBAll (fun c : Char => c.toNat < 128) cs

instance (name : List Char) : Decidable (IsPlain name) := inferInstanceAs (Decidable (_ ∧ _))

theorem IsPlain.of_small (h : IsPlain n) (hsmall : small m = small n) : IsPlain m :=
  ⟨isAscii_of_small h.1 hsmall, hsmall ▸ h.2⟩

theorem IsPlain.isUnmarked (h : IsPlain name) : isUnmarked name = true := by
  unfold NameCache.isUnmarked
  split
  · rename_i word hword
    exact absurd ⟨word, (after?_eq_some_iff.mp hword).symm⟩ h.2
  · rfl

theorem IsPlain.of_part? (h : IsPlain name) (hpart : t.part? name = some part) : IsPlain part := by
  have hname := TypeTable.eq_of_part? hpart
  subst hname
  refine ⟨fun c hc => h.1 c (List.mem_append_left _ hc), fun hprefix => h.2 ?_⟩
  rw [small_append]
  exact hprefix.trans (List.prefix_append _ _)

theorem isUnmarked_congr (h : small m = small n) : isUnmarked m = isUnmarked n := by
  rw [isUnmarked, h, isUnmarked]

/-! ## Known names -/

/-- The name stands for the definition as it is: that of a built-in type, or the first type with
that full name. -/
def Known (t : TypeTable) (name : List Char) (d : TypeDefinition) : Prop :=
  (∃ kind, Primitive.ofName? name = some kind ∧ d = t.primitive kind) ∨
    Primitive.ofName? name = none ∧ t.findFullName? name = some d

theorem Known.whole (h : Known t name d) : t.part? name = none := by
  rcases h with ⟨kind, hname, -⟩ | ⟨hname, hfull⟩
  · simp [TypeTable.part?, hname]
  · simp [TypeTable.part?, hname, TypeTable.elementName?, hfull]

theorem Known.find? (h : Known t name d) : t.find? name = some { definition := d } := by
  rw [TypeTable.find?_of_whole h.whole]
  rcases h with ⟨kind, hname, rfl⟩ | ⟨hname, hfull⟩
  · rw [hname]
  · rw [hname]
    simp [TypeTable.findPlain?, hfull]

/-- In another case, a name that is no keyword is known for the same definition. -/
theorem Known.of_small (h : Known t n d) (hm : Primitive.ofKeyword? m = none)
    (hn : Primitive.ofKeyword? n = none) (hsmall : small m = small n) : Known t m d := by
  unfold Known at h ⊢
  rwa [Primitive.ofName?_congr hm hn hsmall, TypeTable.findFullName?_congr hsmall]

theorem Known.of_key (h : Known t n d) (hm : IsAscii m) (hm' : isUnmarked m = true)
    (hn : IsAscii n) (hn' : isUnmarked n = true) (hkey : key m = key n) : Known t m d := by
  rcases eq_or_small_of_key hm hm' hn hn' hkey with rfl | ⟨hkm, hkn, hsmall⟩
  · exact h
  · exact h.of_small hkm hkn hsmall

/-- What is kept under the keys of known names is what they stand for. -/
def Reliable (t : TypeTable) (c : NameCache) : Prop :=
  ∀ n d, IsAscii n → isUnmarked n = true → Known t n d →
    ∀ answer, c.answers.get? (key n) = some answer → answer = some { definition := d }

theorem Reliable.insert {answer : Option NamedType} (h : Reliable t c) (hm : IsAscii m)
    (hm' : isUnmarked m = true)
    (hanswer : ∀ d, Known t m d → answer = some { definition := d }) :
    Reliable t ⟨c.answers.insert (key m) answer⟩ := by
  intro n d hn hn' hknown kept hget
  rw [FinMap.get?_insert] at hget
  split at hget
  · cases hget
    exact hanswer d (hknown.of_key hm hm' hn hn' (Eq.symm ‹key n = key m›))
  · exact h n d hn hn' hknown kept hget

/-- A look-up leaves a reliable cache reliable. -/
theorem Reliable.lookup (h : Reliable t c) (hm : IsPlain m) : Reliable t (c.lookup t m).2 := by
  induction m using t.part_induction generalizing c with
  | whole m hwhole =>
    cases hc : c.answers.get? (key m) with
    | some answer => rwa [lookup_of_kept hc]
    | none =>
      rw [lookup_of_whole hc hwhole]
      exact h.insert hm.1 hm.isUnmarked fun d hknown => hknown.find?
  | array m part hpart ih =>
    cases hc : c.answers.get? (key m) with
    | some answer => rwa [lookup_of_kept hc]
    | none =>
      rw [lookup_of_part hc hpart]
      refine (ih h (hm.of_part? hpart)).insert hm.1 hm.isUnmarked fun d hknown => ?_
      rw [hknown.whole] at hpart
      cases hpart

theorem reliable_after {history : List (List Char)} (h : ∀ m ∈ history, IsPlain m) :
    Reliable t (after t history) :=
  List.foldlRecOn (motive := Reliable t) history _ (fun _ _ _ _ _ _ hget => by cases hget)
    fun _ hc m hm => hc.lookup (h m hm)

/-- A reliable cache finds the names that are known. -/
theorem Reliable.answer (h : Reliable t c) (hn : IsAscii n) (hn' : isUnmarked n = true)
    (hknown : Known t n d) : (c.lookup t n).1 = some { definition := d } := by
  rw [answer_of_whole hknown.whole]
  cases hc : c.answers.get? (key n) with
  | some answer => exact h n d hn hn' hknown answer hc
  | none => exact hknown.find?

theorem isPlain_of_isNamed {kind : Primitive} (h : kind.IsNamed name) : IsPlain name := by
  have hall : ∀ kind ∈ Primitive.all,
      IsPlain kind.name.toList ∧ ∀ word ∈ kind.keyword?, IsPlain word.toList := by
    decide +kernel
  obtain ⟨hsimple, hkeyword⟩ := hall kind (Primitive.mem_all kind)
  have hsystem : IsPlain ("System." ++ kind.name).toList := by
    rw [String.toList_append]
    have hletters : IsAscii "System.".toList := by decide
    exact ⟨fun c hc => (List.mem_append.mp hc).elim (hletters c) (hsimple.1 c), by simp [small]⟩
  rcases h with h | h | h
  · exact hsimple.of_small (sameIgnoringCase_iff.mp h)
  · exact hsystem.of_small (sameIgnoringCase_iff.mp h)
  · simpa using hkeyword _ h

/-- A full name that is no name of a built-in type is known in any case that is no keyword. -/
theorem known_of_fullName (hd : d ∈ t.types)
    (hbuiltin : ∀ kind : Primitive, ¬kind.IsNamed d.fullName.toList)
    (hname : sameIgnoringCase name d.fullName.toList = true)
    (hkeyword : ∀ kind : Primitive, kind.keyword? ≠ some (String.ofList name)) :
    ∃ first, t.findFullName? d.fullName.toList = some first ∧ Known t name first := by
  have hofName : Primitive.ofName? d.fullName.toList = none := by
    rw [Option.eq_none_iff_forall_ne_some]
    exact fun kind hkind => hbuiltin kind (Primitive.isNamed_of_ofName? hkind)
  have hofKeyword : Primitive.ofKeyword? name = none :=
    List.find?_eq_none.mpr fun kind _ => by simpa using hkeyword kind
  obtain ⟨first, hfirst⟩ : ∃ first, t.findFullName? d.fullName.toList = some first := by
    rw [← Option.isSome_iff_exists, TypeTable.findFullName?, List.find?_isSome]
    exact ⟨d, hd, sameIgnoringCase_iff.mpr rfl⟩
  have hknown : Known t d.fullName.toList first := .inr ⟨hofName, hfirst⟩
  exact ⟨first, hfirst, hknown.of_small hofKeyword (Primitive.ofKeyword?_of_ofName? hofName)
    (sameIgnoringCase_iff.mp hname)⟩

/-- Known names are found after every history of plain names, in every table: names of built-in
types, and full names that are no such names and do not look like the key of a keyword, in any case
that is not exactly a keyword. Of several types with the same full name the first is found. -/
theorem known_names_resolve (t : TypeTable) {history : List (List Char)}
    (hhistory : ∀ m ∈ history, IsPlain m) :
    (∀ (kind : Primitive) name, kind.IsNamed name →
      ((after t history).lookup t name).1 =
        some { definition := t.primitive kind, arguments := [], depth := 0 }) ∧
    ∀ d ∈ t.types, IsAscii d.fullName.toList → isUnmarked d.fullName.toList = true →
      (∀ kind : Primitive, ¬kind.IsNamed d.fullName.toList) →
      ∀ name, sameIgnoringCase name d.fullName.toList = true →
        (∀ kind : Primitive, kind.keyword? ≠ some (String.ofList name)) →
        ∃ before first rest, t.types = before ++ first :: rest ∧
          sameIgnoringCase first.fullName.toList d.fullName.toList = true ∧
          (∀ other ∈ before,
            sameIgnoringCase other.fullName.toList d.fullName.toList = false) ∧
          ((after t history).lookup t name).1 =
            some { definition := first, arguments := [], depth := 0 } := by
  have hreliable : Reliable t (after t history) := reliable_after hhistory
  constructor
  · intro kind name hname
    have hplain := isPlain_of_isNamed hname
    exact hreliable.answer hplain.1 hplain.isUnmarked
      (.inl ⟨kind, Primitive.ofName?_of_isNamed hname, rfl⟩)
  · intro d hd hascii hunmarked hbuiltin name hname hkeyword
    obtain ⟨first, hfirst, hknown⟩ := known_of_fullName hd hbuiltin hname hkeyword
    obtain ⟨hsame, before, rest, htypes, hbefore⟩ := List.find?_eq_some_iff_append.mp hfirst
    have hsmall := sameIgnoringCase_iff.mp hname
    have hothers : ∀ other ∈ before, _ := fun other hother => by simpa using hbefore other hother
    refine ⟨before, first, rest, htypes, hsame, hothers,
      hreliable.answer (isAscii_of_small hascii hsmall) ?_ hknown⟩
    rwa [isUnmarked_congr hsmall]

/-- Two types with the same full name up to case, which ends like that of an array. -/
def bracketed : TypeTable where
  types := [.topLevel ⟨.listed 0, "Game", "Int[]", false, []⟩,
    .topLevel ⟨.listed 1, "game", "INT[]", false, []⟩]

/-- Names that were not found, and arrays, do not get in the way of the full name that ends in
brackets or of the keyword. -/
theorem known_names_resolve_bracketed :
    (∀ m ∈ ["Int[]".toList, "Game.Int".toList, "GAME.int[][]".toList, "Int".toList], IsPlain m) ∧
      ((after bracketed ["Int[]".toList, "Game.Int".toList, "GAME.int[][]".toList,
        "Int".toList]).lookup bracketed "int".toList).1 =
        some { definition := TypeTable.supplied .int32 } ∧
      ((after bracketed ["Int[]".toList, "Game.Int".toList, "GAME.int[][]".toList,
        "Int".toList]).lookup bracketed "game.int[]".toList).1 =
        some { definition := .topLevel ⟨.listed 0, "Game", "Int[]", false, []⟩ } := by
  have hplain : ∀ m ∈ ["Int[]".toList, "Game.Int".toList, "GAME.int[][]".toList, "Int".toList],
      IsPlain m := by
    decide +kernel
  have hnone : Primitive.ofName? "game.INT[]".toList = none := by decide +kernel
  have hbuiltinless : ∀ kind : Primitive, ¬kind.IsNamed "game.INT[]".toList := by
    intro kind h
    rw [Primitive.ofName?_of_isNamed h] at hnone
    cases hnone
  have hkeyword : ∀ kind : Primitive, kind.keyword? ≠ some (String.ofList "game.int[]".toList) := by
    intro kind
    cases kind <;> decide
  obtain ⟨hbuiltin, hfull⟩ := known_names_resolve bracketed hplain
  refine ⟨hplain, hbuiltin .int32 _ (.inr (.inr rfl)), ?_⟩
  obtain ⟨before, first, rest, htypes, -, hbefore, hlookup⟩ :=
    hfull (.topLevel ⟨.listed 1, "game", "INT[]", false, []⟩) (by decide)
      (show IsAscii "game.INT[]".toList by decide) (by decide +kernel)
      hbuiltinless "game.int[]".toList (by decide +kernel) hkeyword
  rw [hlookup]
  cases before with
  | nil =>
    cases htypes
    rfl
  | cons other before =>
    have hother := hbefore other (List.mem_cons_self ..)
    rw [← (List.cons.inj htypes).1] at hother
    exact absurd hother (by decide +kernel)

end NameCache

end MethodLift
