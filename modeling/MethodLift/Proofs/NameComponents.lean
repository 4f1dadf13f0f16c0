import MethodLift.Proofs.KnownNames

/-!
# Dotted names and the components of full names

A name with a dot that is neither a full name, nor one after `System.`, nor a simple name is looked
for as the end of a full name. What is compared are texts, not components: `ame.Player` finds
`Game.Player` if no other full name ends so. The other three ways match whole components only
(`fits_of_fullName`, `fits_of_system`, `fits_of_name`), so a name is answered with a type whose
components it cuts into exactly where it `FitsPartly` (`dotted_lookup_fits_iff`).
-/

namespace MethodLift

open MethodLift.Text

/-! ## Components -/

namespace Text

variable {a b cs : List Char}

/-- A separator of nested types counts as a dot. -/
def asDot (c : Char) : Char := if c = '/' then '.' else c

/-- A name with dots for nesting, in lower case. -/
def dotted (name : List Char) : List Char := lowercase (name.map asDot)

/-- What stands between the dots of a name, in lower case. -/
def components (name : List Char) : List (List Char) := (dotted name).splitOn '.'

theorem intercalate_append_dot {ws vs : List (List Char)} (hws : ws ≠ []) (hvs : vs ≠ []) :
    ['.'].intercalate (ws ++ vs) = ['.'].intercalate ws ++ '.' :: ['.'].intercalate vs := by
  induction ws with
  | nil => exact absurd rfl hws
  | cons w ws ih =>
    obtain ⟨v, rest, rfl⟩ := List.exists_cons_of_ne_nil hvs
    cases ws with
    | nil => simp [List.intercalate_cons_cons]
    | cons u us =>
      have hrest := ih (List.cons_ne_nil u us)
      simp only [List.cons_append, List.intercalate_cons_cons] at hrest ⊢
      rw [hrest]
      simp

/-- Whole components at the end of a text are all of it, or stand behind a dot. -/
theorem splitOn_suffix_iff :
    a.splitOn '.' <:+ b.splitOn '.' ↔ a = b ∨ '.' :: a <:+ b := by
  constructor
  · rintro ⟨ws, hws⟩
    have hjoined := congrArg ['.'].intercalate hws
    rw [List.intercalate_splitOn] at hjoined
    cases ws with
    | nil =>
      rw [List.nil_append, List.intercalate_splitOn] at hjoined
      exact .inl hjoined
    | cons w ws =>
      rw [intercalate_append_dot (List.cons_ne_nil w ws) (List.splitOn_ne_nil _ _),
        List.intercalate_splitOn] at hjoined
      exact .inr ⟨_, hjoined⟩
  · rintro (rfl | ⟨front, rfl⟩)
    · exact List.suffix_refl _
    · rw [List.splitOn_append_cons_self]
      exact List.suffix_append ..

theorem components_suffix_iff :
    components a <:+ components b ↔ dotted a = dotted b ∨ '.' :: dotted a <:+ dotted b :=
  splitOn_suffix_iff

theorem toLower_asDot (c : Char) : (asDot c).toLower = asDot c.toLower := by
  have hslash : c.toLower = '/' ↔ c = '/' := toLower_eq_iff (by decide)
  simp only [asDot, hslash]
  split <;> rfl

theorem isAscii_map_asDot (h : IsAscii cs) : IsAscii (cs.map asDot) := by
  intro c hc
  obtain ⟨d, hd, rfl⟩ := List.mem_map.mp hc
  unfold asDot
  split
  · decide
  · exact h d hd

theorem dotted_of_isAscii (h : IsAscii cs) : dotted cs = (small cs).map asDot := by
  rw [dotted, lowercase_eq_small (isAscii_map_asDot h), small, small, List.map_map, List.map_map]
  exact List.map_congr_left fun c _ => toLower_asDot c

theorem dotted_congr (hb : IsAscii b) (h : small a = small b) : dotted a = dotted b := by
  rw [dotted_of_isAscii (isAscii_of_small hb h), dotted_of_isAscii hb, h]

/-- An ASCII text has its own lower case behind any other. -/
theorem suffix_lowercase_append (a : List Char) (hb : IsAscii b) :
    small b <:+ lowercase (a ++ b) := by
  have hall : ∀ seen, small b <:+ lowerAfter seen (a ++ b) := by
    induction a with
    | nil =>
      intro seen
      simp only [List.nil_append, lowerAfter_eq_small hb, List.suffix_refl]
    | cons c a ih =>
      intro seen
      exact (ih (c :: seen)).trans (List.suffix_append ..)
  exact hall []

/-- Behind a separator, an ASCII name keeps its components. -/
theorem components_suffix_append {mark : Char} (hmark : asDot mark = '.') (a : List Char)
    (hb : IsAscii b) : components b <:+ components (a ++ mark :: b) := by
  have hascii : IsAscii ('.' :: b.map asDot) :=
    List.forall_mem_cons.mpr ⟨by decide, isAscii_map_asDot hb⟩
  have hsuffix := suffix_lowercase_append (a.map asDot) hascii
  have hsmall : small ('.' :: b.map asDot) = '.' :: dotted b := by
    rw [dotted, lowercase_eq_small (isAscii_map_asDot hb)]
    rfl
  have hname : a.map asDot ++ '.' :: b.map asDot = (a ++ mark :: b).map asDot := by
    rw [List.map_append, List.map_cons, hmark]
  rw [hsmall, hname] at hsuffix
  exact components_suffix_iff.mpr (.inr hsuffix)

/-! ### Separators in lower case -/

theorem toNat_ofNat_cases (n : Nat) :
    (Char.ofNat n).toNat = n ∨ (Char.ofNat n).toNat = 0 := by
  by_cases h : n.isValidChar
  · left
    rw [Char.ofNat, dif_pos h]
    rfl
  · right
    rw [Char.ofNat, dif_neg h]
    rfl

theorem lowerBeyondAscii_cases (c : Char) : lowerBeyondAscii c = ['i', Char.ofNat 0x307] ∨
    lowerBeyondAscii c = [c] ∨ ∃ n, 47 < n ∧ lowerBeyondAscii c = [Char.ofNat n] := by
  have hrows : ∀ row ∈ lowerRuns, 47 < (row.1 : Int) + row.2.2.2 := by decide +kernel
  unfold lowerBeyondAscii
  simp only
  split
  · exact .inl rfl
  · split
    · rename_i lo hi step distance hfind
      have hrow := hrows _ (List.mem_of_find?_eq_some hfind)
      have hrange := List.find?_some hfind
      simp only [Bool.and_eq_true, decide_eq_true_eq] at hrange hrow
      exact .inr (.inr ⟨_, by omega, rfl⟩)
    · exact .inr (.inl rfl)

/-- No letter becomes a slash. -/
theorem slash_mem_lowerChar {c : Char} (h : '/' ∈ lowerChar c) : c = '/' := by
  unfold lowerChar at h
  split at h
  · exact (toLower_eq_iff (by decide)).mp (List.mem_singleton.mp h).symm
  · rcases lowerBeyondAscii_cases c with hc | hc | ⟨n, hn, hc⟩
    · rw [hc] at h
      exact absurd h (by decide)
    · rw [hc] at h
      exact (List.mem_singleton.mp h).symm
    · rw [hc, List.mem_singleton] at h
      have hcode : 47 = (Char.ofNat n).toNat := congrArg Char.toNat h
      have hcases := toNat_ofNat_cases n
      omega

theorem slash_notMem_lowercase (h : '/' ∉ cs) : '/' ∉ lowercase cs := by
  have hall : ∀ seen, '/' ∉ lowerAfter seen cs := by
    induction cs with
    | nil => exact fun _ => List.not_mem_nil
    | cons c cs ih =>
      intro seen hmem
      rw [List.mem_cons, not_or] at h
      simp only [lowerAfter] at hmem
      rcases List.mem_append.mp hmem with hfirst | hrest
      · split at hfirst
        · rw [List.mem_singleton] at hfirst
          split at hfirst <;> exact absurd hfirst (by decide)
        · exact h.1 (slash_mem_lowerChar hfirst).symm
      · exact ih h.2 _ hrest
  exact hall []

theorem slash_notMem_dotted (name : List Char) : '/' ∉ dotted name := by
  refine slash_notMem_lowercase fun hmem => ?_
  obtain ⟨c, -, hc⟩ := List.mem_map.mp hmem
  unfold asDot at hc
  split at hc
  · exact absurd hc (by decide)
  · contradiction

end Text

/-! ## Types that a name fits -/

namespace TypeTable

variable {t : TypeTable} {d e : TypeDefinition} {n : List Char}

/-- The components of the name are the last ones of the full name. -/
def Fits (n : List Char) (d : TypeDefinition) : Prop :=
  components n <:+ components d.fullName.toList

instance (n : List Char) (d : TypeDefinition) : Decidable (Fits n d) :=
  inferInstanceAs (Decidable (_ <:+ _))

theorem dottedName_eq (d : TypeDefinition) : dottedName d = dotted d.fullName.toList := rfl

theorem fits_of_fullName (hn : IsAscii n) (h : sameIgnoringCase d.fullName.toList n = true) :
    Fits n d :=
  components_suffix_iff.mpr (.inl (dotted_congr hn (sameIgnoringCase_iff.mp h)).symm)

theorem fits_of_system (hn : IsAscii n)
    (h : sameIgnoringCase d.fullName.toList ("System.".toList ++ n) = true) : Fits n d := by
  have hsystem : IsAscii ("System.".toList ++ n) := by
    have hletters : IsAscii "System.".toList := by decide
    exact fun c hc => (List.mem_append.mp hc).elim (hletters c) (hn c)
  have hdotted := dotted_congr hsystem (sameIgnoringCase_iff.mp h)
  have hsuffix : components n <:+ components ("System".toList ++ '.' :: n) :=
    components_suffix_append rfl _ hn
  rw [Fits, components, components, hdotted]
  exact hsuffix

/-- A full name ends with the simple name, behind a separator if anything stands before it. -/
theorem fullName_cases (d : TypeDefinition) : d.fullName.toList = d.name.toList ∨
    ∃ front mark, asDot mark = '.' ∧ d.fullName.toList = front ++ mark :: d.name.toList := by
  cases d with
  | topLevel i =>
    simp only [TypeDefinition.fullName]
    split
    · exact .inl rfl
    · exact .inr ⟨i.space.toList, '.', rfl, by simp [TypeDefinition.name, TypeDefinition.info]⟩
  | nested outer i =>
    exact .inr ⟨outer.fullName.toList, '/', rfl,
      by simp [TypeDefinition.fullName, TypeDefinition.name, TypeDefinition.info]⟩

theorem fits_of_name (hn : IsAscii n) (h : sameIgnoringCase d.name.toList n = true) :
    Fits n d := by
  have hsmall := sameIgnoringCase_iff.mp h
  rcases fullName_cases d with hfull | ⟨front, mark, hmark, hfull⟩
  · exact fits_of_fullName hn (hfull ▸ h)
  · have hsuffix := components_suffix_append hmark front (isAscii_of_small hn hsmall)
    rw [← hfull, components, dotted_congr hn hsmall] at hsuffix
    exact hsuffix

/-- The full name ends with the text of the name. -/
def endsWith (n : List Char) (d : TypeDefinition) : Bool := (lowercase n).isSuffixOf (dottedName d)

theorem endsWith_of_fits (hslash : '/' ∉ n) (h : Fits n d) : endsWith n d = true := by
  have hdotted : dotted n = lowercase n := by
    have hsame : n.map asDot = n := by
      refine (List.map_congr_left fun c hc => if_neg ?_).trans (List.map_id n)
      rintro rfl
      exact hslash hc
    rw [dotted, hsame]
  rw [endsWith, List.isSuffixOf_iff_suffix, dottedName_eq, ← hdotted]
  rcases components_suffix_iff.mp h with heq | hsuffix
  · simp only [heq, List.suffix_refl]
  · exact (List.suffix_cons '.' _).trans hsuffix

/-- A name that ends a full name has no slash, since there it would be a dot. -/
theorem slash_notMem_of_endsWith (hn : IsAscii n) (h : endsWith n d = true) : '/' ∉ n := by
  intro hmem
  rw [endsWith, List.isSuffixOf_iff_suffix, lowercase_eq_small hn, dottedName_eq] at h
  exact slash_notMem_dotted _ (h.subset (List.mem_map_of_mem (f := Char.toLower) hmem))

/-- The type is the only one whose full name ends with the text of the name, and there the name
begins inside a component. -/
structure FitsPartly (t : TypeTable) (n : List Char) (d : TypeDefinition) : Prop where
  notBuiltin : Primitive.ofName? n = none
  only : t.types.filter (endsWith n) = [d]
  notWhole : ¬Fits n d

/-- Then no type fits the name as a whole. -/
theorem FitsPartly.not_fits (h : FitsPartly t n d) (hn : IsAscii n) (he : e ∈ t.types) :
    ¬Fits n e := by
  intro hfits
  have hd : d ∈ t.types.filter (endsWith n) := by simp [h.only]
  have hslash := slash_notMem_of_endsWith hn (List.mem_filter.mp hd).2
  have hmem : e ∈ t.types.filter (endsWith n) :=
    List.mem_filter.mpr ⟨he, endsWith_of_fits hslash hfits⟩
  rw [h.only, List.mem_singleton] at hmem
  exact h.notWhole (hmem ▸ hfits)

theorem unique?_eq_some_iff {p : TypeDefinition → Bool} :
    t.unique? p = some d ↔ t.types.filter p = [d] := by
  unfold unique?
  split
  · rename_i e he
    simp [he]
  · rename_i hmany
    exact ⟨fun h => (nomatch h), fun h => absurd h (hmany d)⟩

theorem mem_of_unique? {p : TypeDefinition → Bool} (h : t.unique? p = some d) :
    d ∈ t.types ∧ p d = true := by
  rw [← List.mem_filter, unique?_eq_some_iff.mp h]
  exact List.mem_singleton_self d

theorem mem_of_findFullName? (h : t.findFullName? n = some d) :
    d ∈ t.types ∧ sameIgnoringCase d.fullName.toList n = true := by
  have hsame := List.find?_some h
  exact ⟨List.mem_of_find?_eq_some h, hsame⟩

/-- How a dotted name that is not that of a built-in type is found; each way is tried if those
before it fail. -/
inductive FoundBy (t : TypeTable) (n : List Char) (d : TypeDefinition) : Prop
  | fullName : t.findFullName? n = some d → FoundBy t n d
  | system : t.findFullName? n = none → t.findFullName? ("System.".toList ++ n) = some d →
      FoundBy t n d
  | name : t.findFullName? n = none → t.findFullName? ("System.".toList ++ n) = none →
      t.unique? (fun d => sameIgnoringCase d.name.toList n) = some d → FoundBy t n d
  | ending : t.findFullName? n = none → t.findFullName? ("System.".toList ++ n) = none →
      t.unique? (fun d => sameIgnoringCase d.name.toList n) = none →
      t.unique? (endsWith n) = some d → FoundBy t n d

theorem find?_dotted_iff {r : NamedType} (hdot : '.' ∈ n) (hgeneric : '<' ∉ n)
    (harray : ¬['[', ']'] <:+ n) (hname : Primitive.ofName? n = none) :
    t.find? n = some r ↔ ∃ d, FoundBy t n d ∧ r = { definition := d } := by
  have hpart : t.part? n = none := by
    have hbefore : before? ['[', ']'] n = none := by
      refine Option.eq_none_iff_forall_ne_some.mpr fun front hfront => harray ?_
      exact ⟨front, (before?_eq_some_iff.mp hfront).symm⟩
    simp only [part?, hname, elementName?, hbefore]
    split <;> rfl
  have hplain : t.findPlain? n = (t.findFullName? n <|> t.findLoosely? n).map fun d =>
      { definition := d } := by
    unfold findPlain?
    cases hfull : t.findFullName? n <;> simp [hfull, hgeneric]
  have hloose : t.findLoosely? n = (t.findFullName? ("System.".toList ++ n) <|>
      t.unique? (fun d => sameIgnoringCase d.name.toList n) <|> t.unique? (endsWith n)) := by
    simp only [findLoosely?, List.contains_iff_mem.mpr hdot, if_true]
    rfl
  rw [find?_of_whole hpart, hname]
  simp only [hplain, hloose, Option.map_eq_some_iff, Option.orElse_eq_orElse, Option.orElse_eq_or,
    Option.or_eq_some_iff]
  refine exists_congr fun d => and_congr ⟨?_, ?_⟩ eq_comm
  · rintro (hfull | ⟨hfull, hsystem | ⟨hsystem, hsimple | ⟨hsimple, hending⟩⟩⟩)
    · exact .fullName hfull
    · exact .system hfull hsystem
    · exact .name hfull hsystem hsimple
    · exact .ending hfull hsystem hsimple hending
  · intro hfound
    cases hfound with
    | fullName hfull => exact .inl hfull
    | system hfull hsystem => exact .inr ⟨hfull, .inl hsystem⟩
    | name hfull hsystem hsimple => exact .inr ⟨hfull, .inr ⟨hsystem, .inl hsimple⟩⟩
    | ending hfull hsystem hsimple hending =>
      exact .inr ⟨hfull, .inr ⟨hsystem, .inr ⟨hsimple, hending⟩⟩⟩

/-- A type that the name fits only partly is found: every other way would fit it as a whole. -/
theorem FitsPartly.foundBy (h : FitsPartly t n d) (hn : IsAscii n) : FoundBy t n d := by
  have hnone : ∀ {found : Option TypeDefinition},
      (∀ e, found = some e → e ∈ t.types ∧ Fits n e) → found = none := by
    intro found hfits
    refine Option.eq_none_iff_forall_ne_some.mpr fun e he => ?_
    exact h.not_fits hn (hfits e he).1 (hfits e he).2
  refine .ending (hnone fun e he => ?_) (hnone fun e he => ?_) (hnone fun e he => ?_)
    (unique?_eq_some_iff.mpr h.only)
  · exact (mem_of_findFullName? he).imp_right (fits_of_fullName hn)
  · exact (mem_of_findFullName? he).imp_right (fits_of_system hn)
  · exact (mem_of_unique? he).imp_right (fits_of_name hn)

end TypeTable

namespace NameCache

open TypeTable

/-- For every table and every ASCII name with a dot, no generic arguments and no brackets at the
end, looked up in an empty cache: what is found and is not a built-in type has the components of the
name at the end of its full name, or the name as its simple name, if and only if no such type fits
the name partly. None does where some type fits the name as a whole. -/
theorem dotted_lookup_fits_iff (t : TypeTable) {n : List Char} (hn : IsAscii n) (hdot : '.' ∈ n)
    (hgeneric : '<' ∉ n) (harray : ¬['[', ']'] <:+ n) :
    ((∀ r, (({} : NameCache).lookup t n).1 = some r → (∀ kind, r.definition ≠ t.primitive kind) →
      Fits n r.definition ∨ sameIgnoringCase r.definition.name.toList n = true) ↔
        ∀ d, FitsPartly t n d → ∃ kind, d = t.primitive kind) ∧
    ((∃ d ∈ t.types, Fits n d) → ∀ d, ¬FitsPartly t n d) := by
  simp only [lookup_empty]
  refine ⟨⟨fun hclaim d hpartly => ?_, fun hpartly r hr hbuiltin => ?_⟩, ?_⟩
  · refine Classical.byContradiction fun hbuiltin => ?_
    have hfound : t.find? n = some { definition := d } :=
      (find?_dotted_iff hdot hgeneric harray hpartly.notBuiltin).mpr
        ⟨d, hpartly.foundBy hn, rfl⟩
    rcases hclaim _ hfound fun kind hkind => hbuiltin ⟨kind, hkind⟩ with hfits | hname
    · exact hpartly.notWhole hfits
    · exact hpartly.notWhole (fits_of_name hn hname)
  · cases hname : Primitive.ofName? n with
    | some kind =>
      have hwhole : t.part? n = none := by simp [part?, hname]
      rw [find?_of_whole hwhole, hname] at hr
      cases hr
      exact absurd rfl (hbuiltin kind)
    | none =>
      obtain ⟨d, hfound, rfl⟩ := (find?_dotted_iff hdot hgeneric harray hname).mp hr
      cases hfound with
      | fullName hfull => exact .inl (fits_of_fullName hn (mem_of_findFullName? hfull).2)
      | system _ hsystem => exact .inl (fits_of_system hn (mem_of_findFullName? hsystem).2)
      | name _ _ hsimple => exact .inr (mem_of_unique? hsimple).2
      | ending _ _ _ hending =>
        refine .inl (Decidable.byContradiction fun hfits => ?_)
        obtain ⟨kind, hkind⟩ := hpartly d ⟨hname, unique?_eq_some_iff.mp hending, hfits⟩
        exact hbuiltin kind hkind
  · rintro ⟨e, he, hfits⟩ d hpartly
    exact hpartly.not_fits hn he hfits

/-- A single type. -/
def playing : TypeTable where
  types := [.topLevel ⟨.listed 0, "Game", "Player", false, []⟩]

/-- The type is found under the end of its full name, although that begins inside a component. -/
theorem dotted_lookup_fits_iff_playing :
    let n := "ame.Player".toList
    let player : TypeDefinition := .topLevel ⟨.listed 0, "Game", "Player", false, []⟩
    IsAscii n ∧ '.' ∈ n ∧ '<' ∉ n ∧ ¬['[', ']'] <:+ n ∧ FitsPartly playing n player ∧
      (({} : NameCache).lookup playing n).1 = some { definition := player } ∧
      ¬(∀ r, (({} : NameCache).lookup playing n).1 = some r →
        (∀ kind, r.definition ≠ playing.primitive kind) →
        Fits n r.definition ∨ sameIgnoringCase r.definition.name.toList n = true) := by
  intro n player
  have hn : IsAscii n := by decide
  have hdot : '.' ∈ n := by decide
  have hgeneric : '<' ∉ n := by decide
  have harray : ¬['[', ']'] <:+ n := by decide
  have hpartly : FitsPartly playing n player :=
    ⟨by decide +kernel, by decide +kernel, by decide +kernel⟩
  have hbuiltin : ∀ kind, player ≠ playing.primitive kind := by
    intro kind
    cases kind <;> decide +kernel
  refine ⟨hn, hdot, hgeneric, harray, hpartly, ?_, fun hall => ?_⟩
  · rw [lookup_empty, find?_dotted_iff hdot hgeneric harray hpartly.notBuiltin]
    exact ⟨player, hpartly.foundBy hn, rfl⟩
  · obtain ⟨kind, hkind⟩ :=
      (dotted_lookup_fits_iff playing hn hdot hgeneric harray).1.mp hall player hpartly
    exact hbuiltin kind hkind

end NameCache

end MethodLift
