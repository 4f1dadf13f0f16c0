import MethodLift.Proofs.KnownNames
import MethodLift.Proofs.WrittenText

/-!
# Generic names and their arrays

A name like `Base<A, B>[][]` is taken apart from its end: brackets come off one at a time as long as
no type has the name as it stands, then the arguments are cut at the commas outside brackets, and
their number is added to the base. Arguments may hold generic names and arrays themselves.
`Enclosed` says what they may look like, as a grammar, and by induction on it the cut leaves them
whole (`cutArguments_append`). What is found is the first type with that base and number of
parameters, with the arguments as they were written (`generic_names_resolve`).
-/

namespace MethodLift

open MethodLift.Text

/-! ## Arguments -/

def isOpening (c : Char) : Bool := c == '<' || c == '['

def isClosing (c : Char) : Bool := c == '>' || c == ']'

/-- No bracket, and a comma only `inside` brackets. -/
def isPlainChar (inside : Bool) (c : Char) : Bool :=
  !isOpening c && !isClosing c && (inside || c != ',')

/-- Texts with balanced brackets and with commas only inside them, unless the text itself stands
`inside` some. An opening bracket of either kind may be closed by either kind. -/
inductive Enclosed : (inside : Bool) → List Char → Prop
  | nil {inside : Bool} : Enclosed inside []
  | plain {inside : Bool} {c : Char} {a : List Char} : isPlainChar inside c = true →
      Enclosed inside a → Enclosed inside (c :: a)
  | group {inside : Bool} {o c : Char} {a b : List Char} : isOpening o = true →
      isClosing c = true → Enclosed true a → Enclosed inside b →
      Enclosed inside (o :: (a ++ c :: b))

/-- A generic argument as it is written: not blank, without blanks at its ends, with balanced
brackets and with commas only inside them. -/
structure IsArgument (a : List Char) : Prop where
  ne_nil : a ≠ []
  trimmed : trim a = a
  enclosed : Enclosed false a

section

variable {inside : Bool} {depth : Nat} {a b : List Char} {as : List (List Char)} {c : Char}

theorem Enclosed.append_plain (h : a.all (isPlainChar inside) = true) (hb : Enclosed inside b) :
    Enclosed inside (a ++ b) := by
  induction a with
  | nil => exact hb
  | cons c a ih =>
    rw [List.all_cons, Bool.and_eq_true] at h
    exact .plain h.1 (ih h.2)

theorem cutArguments_plain (h : isPlainChar inside c = true) (hdepth : inside = true → 0 < depth)
    (a : List Char) : cutArguments depth (c :: a) = consFirst c (cutArguments depth a) := by
  simp only [isPlainChar, isOpening, isClosing, Bool.and_eq_true, Bool.not_eq_true',
    Bool.or_eq_false_iff, beq_eq_false_iff_ne, Bool.or_eq_true, bne_iff_ne] at h
  obtain ⟨⟨ho, hc⟩, hcomma⟩ := h
  have hcut : ¬(c = ',' ∧ depth = 0) := by
    rintro ⟨hc, hzero⟩
    have := hdepth (hcomma.resolve_right fun hne => hne hc)
    omega
  simp [cutArguments, hcut, ho, hc]

theorem cutArguments_opening (ho : isOpening c = true) (a : List Char) :
    cutArguments depth (c :: a) = consFirst c (cutArguments (depth + 1) a) := by
  simp only [isOpening, Bool.or_eq_true, beq_iff_eq] at ho
  have hcut : c ≠ ',' := by
    rintro rfl
    exact absurd ho (by decide)
  simp [cutArguments, hcut, ho]

theorem cutArguments_closing (hc : isClosing c = true) (a : List Char) :
    cutArguments (depth + 1) (c :: a) = consFirst c (cutArguments depth a) := by
  simp only [isClosing, Bool.or_eq_true, beq_iff_eq] at hc
  have hopen : ¬(c = '<' ∨ c = '[') := by
    rintro (rfl | rfl) <;> exact absurd hc (by decide)
  simp [cutArguments, hopen, hc]

/-- The cut goes through no balanced text, whatever follows it. -/
theorem cutArguments_append (h : Enclosed inside a) (hdepth : inside = true → 0 < depth)
    (rest : List Char) :
    cutArguments depth (a ++ rest) = a.foldr consFirst (cutArguments depth rest) := by
  induction h generalizing depth rest with
  | nil => rfl
  | plain hc _ ih =>
    rw [List.cons_append, cutArguments_plain hc hdepth, ih hdepth, List.foldr_cons]
  | group ho hc _ _ iha ihb =>
    -- One level further in, and back at the closing bracket.
    rw [List.cons_append, cutArguments_opening ho, List.append_assoc,
      iha (fun _ => Nat.succ_pos depth), List.cons_append, cutArguments_closing hc, ihb hdepth,
      List.foldr_cons, List.foldr_append, List.foldr_cons]

/-- Arguments after a comma and a blank are cut at the commas and keep the blanks. -/
theorem cutArguments_intercalate (ha : IsArgument a) (has : ∀ b ∈ as, IsArgument b) :
    cutArguments 0 ([',', ' '].intercalate (a :: as)) = a :: as.map (' ' :: ·) := by
  induction as generalizing a with
  | nil =>
    have hcut : cutArguments 0 (a ++ []) = a.foldr consFirst (cutArguments 0 []) :=
      cutArguments_append ha.enclosed (by simp) []
    rw [List.append_nil, cutArguments, foldr_consFirst, List.append_nil] at hcut
    rwa [List.intercalate_singleton]
  | cons b bs ih =>
    have hrest := ih (has b (by simp)) fun d hd => has d (List.mem_cons_of_mem _ hd)
    have hcomma : cutArguments 0 ([',', ' '] ++ [',', ' '].intercalate (b :: bs)) =
        [] :: consFirst ' ' (cutArguments 0 ([',', ' '].intercalate (b :: bs))) := rfl
    rw [List.intercalate_cons_cons, List.append_assoc, cutArguments_append ha.enclosed (by simp),
      hcomma, hrest, foldr_consFirst, List.append_nil]
    rfl

/-- Arguments that were put together come apart again. -/
theorem splitArguments_intercalate (hne : as ≠ []) (has : ∀ a ∈ as, IsArgument a) :
    splitArguments ([',', ' '].intercalate as) = as := by
  obtain ⟨a, rest, rfl⟩ := List.exists_cons_of_ne_nil hne
  have htrim : (a :: rest.map (' ' :: ·)).map trim = a :: rest := by
    rw [List.map_cons, List.map_map, (has a (by simp)).trimmed]
    refine congrArg (a :: ·) ((List.map_congr_left fun b hb => ?_).trans (List.map_id rest))
    exact (trim_cons_space b).trans (has b (List.mem_cons_of_mem _ hb)).trimmed
  have hlast : (a :: rest).getLast? ≠ some [] := by
    intro hblank
    exact (has [] (List.mem_of_getLast? hblank)).ne_nil rfl
  rw [splitArguments, cutArguments_intercalate (has a (by simp)) fun b hb =>
    has b (List.mem_cons_of_mem _ hb), htrim]
  exact if_neg hlast

end

/-! ## Names -/

/-- `Base<A, B>`. -/
def withArguments (base : List Char) (arguments : List (List Char)) : List Char :=
  base ++ '<' :: ([',', ' '].intercalate arguments ++ ['>'])

/-- The base with the number of its generic parameters. -/
def withArity (base : List Char) (arity : Nat) : List Char :=
  base ++ arityMark :: (toString arity).toList

/-- The name with `depth` pairs of brackets behind it. -/
def inBrackets (name : List Char) : Nat → List Char
  | 0 => name
  | depth + 1 => inBrackets name depth ++ ['[', ']']

section

variable {base name : List Char} {arguments : List (List Char)}

theorem splitGeneric_withArguments (hopen : '<' ∉ base) (harity : arityMark ∉ base)
    (hne : arguments ≠ []) (harguments : ∀ a ∈ arguments, IsArgument a) :
    splitGeneric (withArguments base arguments) =
      (withArity base arguments.length, arguments) := by
  have hbase : ∀ c ∈ base, (c != '<') = true := by
    intro c hc
    rw [bne_iff_ne]
    rintro rfl
    exact hopen hc
  have hinner : before? ['>'] ([',', ' '].intercalate arguments ++ ['>']) =
      some ([',', ' '].intercalate arguments) := before?_eq_some_iff.mpr rfl
  simp only [splitGeneric, withArguments, List.takeWhile_append_of_pos hbase,
    List.dropWhile_append_of_pos hbase]
  simp [hinner, harity, splitArguments_intercalate hne harguments, withArity]

theorem mem_inBrackets {c : Char} (h : c ∈ name) (depth : Nat) : c ∈ inBrackets name depth := by
  induction depth with
  | zero => exact h
  | succ depth ih => exact List.mem_append_left _ ih

/-- No built-in type has a generic name. -/
theorem Primitive.ofName?_of_mem (h : '<' ∈ name) : ofName? name = none := by
  refine Option.eq_none_iff_forall_ne_some.mpr fun kind hkind => ?_
  have hall : ∀ kind ∈ all, '<' ∉ kind.name.toList ∧ ∀ word ∈ kind.keyword?, '<' ∉ word.toList := by
    decide +kernel
  obtain ⟨hname, hkeyword⟩ := hall kind (mem_all kind)
  have hcase : ∀ {other : List Char}, sameIgnoringCase name other = true → '<' ∈ other := by
    intro other hsame
    rw [← List.contains_iff_mem, ← contains_small (show IsMark '<' by decide),
      ← sameIgnoringCase_iff.mp hsame, contains_small (by decide), List.contains_iff_mem]
    exact h
  rcases isNamed_of_ofName? hkind with hsame | hsame | hword
  · exact hname (hcase hsame)
  · have hmem := hcase hsame
    rw [String.toList_append, List.mem_append] at hmem
    exact hmem.elim (by decide) hname
  · exact hkeyword _ hword (by simpa using h)

end

/-! ## Look-ups -/

theorem Signature.inVectors_eq_repeat (s : Signature) (depth : Nat) :
    s.inVectors depth = Nat.repeat vector depth s := by
  induction depth with
  | zero => rfl
  | succ depth ih => rw [inVectors, ih, Nat.repeat]

namespace TypeTable

variable {t : TypeTable} {base name : List Char} {arguments : List (List Char)}
  {d : TypeDefinition} {depth : Nat}

/-- A generic name that is no full name is that of the type with the arity of its arguments. -/
theorem find?_withArguments (hopen : '<' ∉ base) (harity : arityMark ∉ base)
    (hne : arguments ≠ []) (harguments : ∀ a ∈ arguments, IsArgument a)
    (hwhole : t.findFullName? (withArguments base arguments) = none)
    (hd : t.findFullName? (withArity base arguments.length) = some d) :
    t.find? (withArguments base arguments) =
      some { definition := d, arguments := arguments.map String.ofList } := by
  have hmem : '<' ∈ withArguments base arguments := by simp [withArguments]
  have hname := Primitive.ofName?_of_mem hmem
  have hbrackets : before? ['[', ']'] (withArguments base arguments) = none := by
    refine Option.eq_none_iff_forall_ne_some.mpr fun front hfront => ?_
    have hends : withArguments base arguments =
        (base ++ '<' :: [',', ' '].intercalate arguments) ++ ['>'] := by simp [withArguments]
    have hlast := congrArg List.getLast? (before?_eq_some_iff.mp hfront)
    rw [hends, List.getLast?_concat] at hlast
    simp at hlast
  have hpart : t.part? (withArguments base arguments) = none := by
    simp only [part?, hname, elementName?, hwhole, hbrackets]
  rw [find?_of_whole hpart, hname]
  simp only [findPlain?, hwhole, List.contains_iff_mem.mpr hmem, if_true,
    splitGeneric_withArguments hopen harity hne harguments, hd]
  rfl

/-- Brackets behind a generic name come off one at a time. -/
theorem find?_inBrackets (hmem : '<' ∈ name)
    (hwhole : ∀ k ≤ depth, t.findFullName? (inBrackets name k) = none) {found : NamedType}
    (hfound : t.find? name = some found) :
    t.find? (inBrackets name depth) = some { found with depth := found.depth + depth.toUInt8 } := by
  induction depth with
  | zero => simpa [inBrackets] using hfound
  | succ depth ih =>
    have hpart : t.part? (inBrackets name (depth + 1)) = some (inBrackets name depth) := by
      rw [part?, Primitive.ofName?_of_mem (mem_inBrackets hmem _), elementName?,
        hwhole (depth + 1) (Nat.le_refl _)]
      exact before?_eq_some_iff.mpr rfl
    rw [find?_of_part? hpart, ih fun k hk => hwhole k (Nat.le_succ_of_le hk)]
    simp [NamedType.inArray, UInt8.add_assoc]

end TypeTable

/-- In every table, a generic name with arrays behind it is found in an empty cache, whatever its
base and its arguments, if a type has the base with the number of arguments as its full name and
none has the name itself, with any of its brackets. It stands for the first such type, with the
arguments as they are written, in as many arrays as there are brackets; from 256 on their count
starts again. -/
theorem NameCache.generic_names_resolve (t : TypeTable) {base : List Char}
    {arguments : List (List Char)} (depth : Nat) (hopen : '<' ∉ base) (harity : arityMark ∉ base)
    (hne : arguments ≠ []) (harguments : ∀ a ∈ arguments, IsArgument a)
    (hdefined : ∃ d ∈ t.types,
      sameIgnoringCase d.fullName.toList (withArity base arguments.length) = true)
    (hundefined : ∀ k ≤ depth, ∀ d ∈ t.types,
      sameIgnoringCase d.fullName.toList (inBrackets (withArguments base arguments) k) = false) :
    ∃ before first rest, t.types = before ++ first :: rest ∧
      sameIgnoringCase first.fullName.toList (withArity base arguments.length) = true ∧
      (∀ other ∈ before,
        sameIgnoringCase other.fullName.toList (withArity base arguments.length) = false) ∧
      ∃ found,
        (({} : NameCache).lookup t (inBrackets (withArguments base arguments) depth)).1 =
          some found ∧
        found.definition = first ∧ found.arguments = arguments.map String.ofList ∧
        found.depth.toNat = depth % UInt8.size ∧
        found.signature =
          Nat.repeat Signature.vector (depth % UInt8.size) (.definition first) := by
  obtain ⟨first, hfirst⟩ :
      ∃ first, t.findFullName? (withArity base arguments.length) = some first :=
    Option.isSome_iff_exists.mp (List.find?_isSome.mpr hdefined)
  obtain ⟨hsame, before, rest, htypes, hbefore⟩ := List.find?_eq_some_iff_append.mp hfirst
  have hothers : ∀ other ∈ before, _ := fun other hother => by simpa using hbefore other hother
  have hnone : ∀ k ≤ depth, t.findFullName? (inBrackets (withArguments base arguments) k) = none :=
    fun k hk => List.find?_eq_none.mpr fun d hd => by simp [hundefined k hk d hd]
  have hname := TypeTable.find?_withArguments hopen harity hne harguments
    (hnone 0 (Nat.zero_le _)) hfirst
  have hfound := TypeTable.find?_inBrackets (by simp [withArguments]) hnone hname
  have hdepth : (0 + depth.toUInt8).toNat = depth % UInt8.size := by simp
  refine ⟨before, first, rest, htypes, hsame, hothers, _, (lookup_empty ..).trans hfound, rfl, rfl,
    hdepth, ?_⟩
  rw [← Signature.inVectors_eq_repeat, NamedType.signature, ← hdepth]

/-- Two types with two parameters and the same full name up to case. -/
def mapping : TypeTable where
  types := [.topLevel ⟨.listed 0, "Game", "Map`2", false, ["K", "V"]⟩,
    .topLevel ⟨.listed 1, "game", "MAP`2", false, ["K", "V"]⟩]

/-- Commas and brackets inside an argument are left alone, and the brackets at the end are those of
two arrays. -/
theorem NameCache.generic_names_resolve_mapping :
    let base := "game.map".toList
    let arguments := ["string".toList, "Map<Int32, Foo[,]>".toList]
    (∀ a ∈ arguments, IsArgument a) ∧
      inBrackets (withArguments base arguments) 2 =
        "game.map<string, Map<Int32, Foo[,]>>[][]".toList ∧
      (({} : NameCache).lookup mapping "game.map<string, Map<Int32, Foo[,]>>[][]".toList).1 =
        some { definition := .topLevel ⟨.listed 0, "Game", "Map`2", false, ["K", "V"]⟩,
               arguments := ["string", "Map<Int32, Foo[,]>"], depth := 2 } := by
  intro base arguments
  have hword : Enclosed false ("string".toList ++ []) := .append_plain (by decide) .nil
  have hindices : Enclosed true ([','] ++ []) := .append_plain (by decide) .nil
  have hinner : Enclosed true ("Int32, Foo".toList ++ '[' :: ([','] ++ ']' :: [])) :=
    .append_plain (by decide) (.group rfl rfl hindices .nil)
  have hnested : Enclosed false ("Map".toList ++
      '<' :: ("Int32, Foo".toList ++ '[' :: ([','] ++ ']' :: []) ++ '>' :: [])) :=
    .append_plain (by decide) (.group rfl rfl hinner .nil)
  have harguments : ∀ a ∈ arguments, IsArgument a :=
    List.forall_mem_cons.mpr ⟨⟨by decide, by decide, hword⟩,
      List.forall_mem_singleton.mpr ⟨by decide, by decide, hnested⟩⟩
  have hwritten : inBrackets (withArguments base arguments) 2 =
      "game.map<string, Map<Int32, Foo[,]>>[][]".toList := by decide
  have hopen : '<' ∉ base := by decide
  obtain ⟨before, first, rest, htypes, -, hbefore, found, hfound, hd, ha, hk, -⟩ :=
    generic_names_resolve mapping 2 hopen (by decide) (by decide) harguments (by decide +kernel)
      (by decide +kernel)
  obtain ⟨definition, arguments, depth⟩ := found
  cases hd
  cases ha
  obtain rfl : depth = 2 := UInt8.toNat_inj.mp hk
  refine ⟨harguments, hwritten, ?_⟩
  rw [← hwritten, hfound]
  cases before with
  | nil =>
    cases htypes
    rfl
  | cons other before =>
    have hother := hbefore other (List.mem_cons_self ..)
    rw [← (List.cons.inj htypes).1] at hother
    exact absurd hother (by decide +kernel)

end MethodLift
