/-!
# Finite maps

A finite map is a list of pairs in which the first pair of a key counts. `insert` replaces, `erase`
forgets a key, and `agree` keeps exactly the pairs that two maps have in common, whatever pairs a
list hides behind an earlier one of the same key.
-/

namespace MethodLift

structure FinMap (κ ν : Type) where
  entries : List (κ × ν)
  deriving DecidableEq, Repr

namespace FinMap

variable {κ ν : Type} [DecidableEq κ]

def empty : FinMap κ ν := ⟨[]⟩

instance : EmptyCollection (FinMap κ ν) := ⟨empty⟩

instance : Inhabited (FinMap κ ν) := ⟨empty⟩

/-- The value of the first pair with key `k`. -/
def get? (m : FinMap κ ν) (k : κ) : Option ν := m.entries.lookup k

def contains (m : FinMap κ ν) (k : κ) : Bool := (m.get? k).isSome

def erase (m : FinMap κ ν) (k : κ) : FinMap κ ν := ⟨m.entries.filter fun e => !(e.1 == k)⟩

def insert (m : FinMap κ ν) (k : κ) (v : ν) : FinMap κ ν := ⟨(k, v) :: (m.erase k).entries⟩

/-- Insert unless the key is there. -/
def insertNew (m : FinMap κ ν) (k : κ) (v : ν) : FinMap κ ν :=
  if m.contains k then m else m.insert k v

/-- The number of keys, for a map built by `insert` and `erase`. -/
def size (m : FinMap κ ν) : Nat := m.entries.length

def ofList (es : List (κ × ν)) : FinMap κ ν := es.foldl (fun m e => m.insert e.1 e.2) empty

/-- The pairs that both maps have. -/
def agree [DecidableEq ν] (m n : FinMap κ ν) : FinMap κ ν :=
  ⟨m.entries.filter fun e => m.get? e.1 == some e.2 && n.get? e.1 == some e.2⟩

omit [DecidableEq κ] in
theorem lookup_filter_of_eq [BEq κ] [LawfulBEq κ] {es : List (κ × ν)} {p : κ × ν → Bool} {k : κ}
    (h : ∀ v, p (k, v) = true) : (es.filter p).lookup k = es.lookup k := by
  induction es with
  | nil => rfl
  | cons e es ih =>
    obtain ⟨a, v⟩ := e
    by_cases hk : k = a
    · subst hk; simp [h v]
    · have hb : (k == a) = false := by simp [hk]
      by_cases hp : p (a, v) <;> simp [hp, List.lookup_cons, hb, ih]

omit [DecidableEq κ] in
theorem lookup_filter_of_ne [BEq κ] [LawfulBEq κ] {es : List (κ × ν)} {p : κ × ν → Bool} {k : κ}
    (h : ∀ v, p (k, v) = false) : (es.filter p).lookup k = none := by
  induction es with
  | nil => rfl
  | cons e es ih =>
    obtain ⟨a, v⟩ := e
    by_cases hk : k = a
    · subst hk; simp [h v, ih]
    · have hb : (k == a) = false := by simp [hk]
      by_cases hp : p (a, v) <;> simp [hp, List.lookup_cons, hb, ih]

@[simp] theorem get?_empty (k : κ) : (empty : FinMap κ ν).get? k = none := rfl

theorem get?_erase (m : FinMap κ ν) (k a : κ) :
    (m.erase k).get? a = if a = k then none else m.get? a := by
  unfold erase get?
  split
  · subst a; exact lookup_filter_of_ne (by simp)
  · exact lookup_filter_of_eq (by simp [*])

theorem get?_insert (m : FinMap κ ν) (k a : κ) (v : ν) :
    (m.insert k v).get? a = if a = k then some v else m.get? a := by
  by_cases h : a = k
  · subst h; simp [insert, get?]
  · have hb : (a == k) = false := by simp [h]
    have he := get?_erase m k a
    simp only [get?, h, if_false] at he ⊢
    simp [insert, List.lookup_cons, hb, he]

theorem get?_insertNew (m : FinMap κ ν) (k a : κ) (v : ν) :
    (m.insertNew k v).get? a = if a = k then some ((m.get? k).getD v) else m.get? a := by
  unfold insertNew contains
  cases h : m.get? k with
  | none => simp [get?_insert]
  | some w =>
    by_cases ha : a = k
    · simp [ha, h]
    · simp [ha]

/-- The keys of a map are those it has a value for. -/
theorem mem_keys_iff {m : FinMap κ ν} {k : κ} :
    k ∈ m.entries.map Prod.fst ↔ ∃ v, m.get? k = some v := by
  unfold get?
  induction m.entries with
  | nil => simp
  | cons e es ih =>
    obtain ⟨a, w⟩ := e
    by_cases hk : k = a
    · simp [hk]
    · have hb : (k == a) = false := by simp [hk]
      simpa [List.lookup_cons, hk, hb] using ih

/-- Two maps agree on a pair exactly when both have it. -/
theorem get?_agree [DecidableEq ν] (m n : FinMap κ ν) (k : κ) (v : ν) :
    (m.agree n).get? k = some v ↔ m.get? k = some v ∧ n.get? k = some v := by
  have key : ∀ es : List (κ × ν),
      (es.filter fun e => m.get? e.1 == some e.2 && n.get? e.1 == some e.2).lookup k = some v ↔
        (k, v) ∈ es ∧ m.get? k = some v ∧ n.get? k = some v := by
    intro es
    induction es with
    | nil => simp
    | cons e es ih =>
      obtain ⟨a, w⟩ := e
      by_cases hp : m.get? a = some w ∧ n.get? a = some w
      · by_cases hk : k = a
        · subst hk
          simp only [List.filter_cons, hp.1, hp.2, beq_self_eq_true, Bool.and_self, if_true,
            List.lookup_cons, List.mem_cons, Option.some.injEq, Prod.mk.injEq, true_and]
          constructor
          · rintro rfl; simp
          · rintro ⟨-, h, -⟩; exact h
        · have hb : (k == a) = false := by simp [hk]
          simp [hp.1, hp.2, List.lookup_cons, hb, ih, hk]
      · have : (m.get? a == some w && n.get? a == some w) = false := by
          simp only [Bool.and_eq_false_iff, beq_eq_false_iff_ne, ne_eq]
          by_cases h1 : m.get? a = some w
          · exact .inr fun h2 => hp ⟨h1, h2⟩
          · exact .inl h1
        simp only [List.filter_cons, this, Bool.false_eq_true, if_false, ih, List.mem_cons,
          Prod.mk.injEq]
        constructor
        · rintro ⟨h1, h2⟩; exact ⟨.inr h1, h2⟩
        · rintro ⟨⟨rfl, rfl⟩ | h1, h2⟩
          · exact absurd h2 hp
          · exact ⟨h1, h2⟩
  rw [agree, get?, key]
  constructor
  · exact fun h => h.2
  · intro h
    refine ⟨?_, h⟩
    have hl := h.1
    unfold get? at hl
    generalize m.entries = es at hl
    induction es with
    | nil => simp at hl
    | cons e es ih =>
      obtain ⟨a, w⟩ := e
      rw [List.lookup_cons] at hl
      by_cases hk : k = a
      · subst hk; simp at hl; simp [hl]
      · have hb : (k == a) = false := by simp [hk]
        rw [hb] at hl
        exact List.mem_cons_of_mem _ (ih hl)

end FinMap

end MethodLift
