/-!
# Blank characters and what is cut along them

Readers in this library work on `List Char`. A blank is a character with the Unicode property
White_Space, which is a larger set than the ASCII blanks: the non-breaking space and the
ideographic space are in it.

* `trim` removes blanks at both ends, `words` cuts a text into its maximal blank-free runs.
* `after?` and `before?` take a known text off at either end.
-/

namespace MethodLift.Text

/-- Characters with the property White_Space. -/
def isBlank (c : Char) : Bool :=
  let n := c.toNat
  (9 ≤ n && n ≤ 13) || n == 32 || n == 0x85 || n == 0xA0 || n == 0x1680 ||
    (0x2000 ≤ n && n ≤ 0x200A) || n == 0x2028 || n == 0x2029 || n == 0x202F || n == 0x205F ||
    n == 0x3000

/-- The text without the blanks it starts with. -/
def trimStart (cs : List Char) : List Char := cs.dropWhile isBlank

/-- The text without its trailing characters that satisfy `p`. -/
def dropEndWhile (p : Char → Bool) (cs : List Char) : List Char :=
  (cs.reverse.dropWhile p).reverse

/-- The text without the blanks it ends with. -/
def trimEnd (cs : List Char) : List Char := dropEndWhile isBlank cs

/-- The text without blanks at either end. -/
def trim (cs : List Char) : List Char := trimEnd (trimStart cs)

/-- Put `c` in front of the first piece. -/
def consFirst (c : Char) : List (List Char) → List (List Char)
  | [] => [[c]]
  | w :: ws => (c :: w) :: ws

/-- The maximal runs without a blank. -/
def words (cs : List Char) : List (List Char) :=
  (cs.splitOnP isBlank).filter fun w => !w.isEmpty

/-- What follows `front`, when the text starts with it. -/
def after? (front cs : List Char) : Option (List Char) :=
  match front, cs with
  | [], cs => some cs
  | _ :: _, [] => none
  | f :: fs, c :: cs => if f = c then after? fs cs else none

/-- What stands before `back`, when the text ends with it. -/
def before? (back cs : List Char) : Option (List Char) :=
  (after? back.reverse cs.reverse).map List.reverse

theorem length_of_after? {front cs rest : List Char} (h : after? front cs = some rest) :
    cs.length = front.length + rest.length := by
  induction front generalizing cs with
  | nil => simp_all [after?]
  | cons f fs ih =>
    cases cs with
    | nil => simp [after?] at h
    | cons c cs =>
      unfold after? at h
      split at h
      · have := ih h; simp; omega
      · cases h

theorem length_of_before? {back cs rest : List Char} (h : before? back cs = some rest) :
    cs.length = rest.length + back.length := by
  obtain ⟨r, hr, rfl⟩ := Option.map_eq_some_iff.1 h
  have := length_of_after? hr
  simp only [List.length_reverse] at *
  omega

theorem after?_eq_some_iff {front cs rest : List Char} :
    after? front cs = some rest ↔ cs = front ++ rest := by
  induction front generalizing cs with
  | nil => simp [after?]
  | cons f fs ih =>
    cases cs with
    | nil => simp [after?]
    | cons c cs => by_cases h : f = c <;> simp [after?, h, ih, eq_comm]

theorem before?_eq_some_iff {back cs rest : List Char} :
    before? back cs = some rest ↔ cs = rest ++ back := by
  simp only [before?, Option.map_eq_some_iff, after?_eq_some_iff]
  constructor
  · rintro ⟨r, hr, rfl⟩
    simpa using congrArg List.reverse hr
  · rintro rfl
    exact ⟨rest.reverse, by simp, by simp⟩

/-- The lines of a text. A line ends with a newline, which a carriage return may precede; both are
dropped, and a text that ends with a newline has no empty line after it. -/
def lines (cs : List Char) : List (List Char) :=
  let cut := cs.splitOnP (· == '\n')
  let ended := cut.dropLast.map fun l => (before? ['\r'] l).getD l
  match cut.getLast? with
  | some (c :: rest) => ended ++ [c :: rest]
  | _ => ended

end MethodLift.Text
