import Mathlib.Data.List.Induction
import MethodLift.Helper

/-!
# Helpers that move

A helper table is kept in two directions: the address of each helper, and the helper at each
address. Several helpers may be recorded at one address, and a helper may be recorded again.
Whatever is recorded, the helper that the table finds at an address lives there. The other way round
there is a gap: a helper that moves takes the entry of its old address with it, also where another
helper lives there. The address is `Deserted` from then on, until a helper is recorded there again.

`recorded_consistent_iff` says that this is the only gap. It needs a helper that is recorded twice,
so a table made from the exports of a binary has none (`consistentAt_ofExports`).
-/

namespace MethodLift.HelperTable

variable {t : HelperTable} {sets : List (Helper × UInt64)} {h : Helper} {a b : UInt64}

/-- The table after helpers were recorded at addresses, in this order. -/
def recorded (sets : List (Helper × UInt64)) : HelperTable :=
  sets.foldl (fun t e => t.set e.1 e.2) empty

/-- The table finds a helper at the address if one lives there, and then one that does. -/
structure ConsistentAt (t : HelperTable) (a : UInt64) : Prop where
  isSome_iff : (t.helperAt? a).isSome = true ↔ ∃ h, t.address? h = some a
  lives : ∀ h, t.helperAt? a = some h → t.address? h = some a

/-- A helper moved away from the address, and none was recorded there since. -/
def Deserted (sets : List (Helper × UInt64)) (a : UInt64) : Prop :=
  ∃ before h b after, sets = before ++ (h, b) :: after ∧ (recorded before).address? h = some a ∧
    b ≠ a ∧ ∀ e ∈ after, e.2 ≠ a

/-! ## One more helper -/

theorem address?_set (t : HelperTable) (h : Helper) (b : UInt64) (g : Helper) :
    (t.set h b).address? g = if g = h then some b else t.address? g :=
  FinMap.get?_insert t.addresses h g b

theorem helperAt?_set (t : HelperTable) (h : Helper) (b a : UInt64) :
    (t.set h b).helperAt? a =
      if a = b then some h else if t.address? h = some a then none else t.helperAt? a := by
  simp only [helperAt?, set, FinMap.get?_insert]
  by_cases hab : a = b
  · rw [if_pos hab, if_pos hab]
  · rw [if_neg hab, if_neg hab, address?]
    cases hold : t.addresses.get? h with
    | none => simp
    | some old => simp [FinMap.get?_erase, eq_comm]

theorem helperAt?_set_eq_none_iff :
    (t.set h b).helperAt? a = none ↔ b ≠ a ∧ (t.address? h = some a ∨ t.helperAt? a = none) := by
  rw [helperAt?_set, @ne_comm _ b a]
  by_cases hab : a = b
  · simp [hab]
  · by_cases hold : t.address? h = some a <;> simp [hab, hold]

theorem recorded_concat (sets : List (Helper × UInt64)) (e : Helper × UInt64) :
    recorded (sets ++ [e]) = (recorded sets).set e.1 e.2 := by
  simp [recorded]

/-- The address is deserted by the last record, or was before and is not the address of it. -/
theorem deserted_concat : Deserted (sets ++ [(h, b)]) a ↔
    b ≠ a ∧ ((recorded sets).address? h = some a ∨ Deserted sets a) := by
  constructor
  · rintro ⟨before, g, c, after, hsplit, hg, hc, hafter⟩
    rcases List.eq_nil_or_concat after with rfl | ⟨init, last, rfl⟩
    · obtain ⟨rfl, hlast⟩ := List.append_inj' hsplit rfl
      cases hlast
      exact ⟨hc, .inl hg⟩
    · have hsplit : sets ++ [(h, b)] = (before ++ (g, c) :: init) ++ [last] := by simp [hsplit]
      obtain ⟨rfl, hlast⟩ := List.append_inj' hsplit rfl
      cases hlast
      exact ⟨hafter (h, b) (by simp), .inr ⟨before, g, c, init, rfl, hg, hc,
        fun e he => hafter e (by simp [he])⟩⟩
  · rintro ⟨hb, hg | ⟨before, g, c, after, rfl, hg, hc, hafter⟩⟩
    · exact ⟨sets, h, b, [], rfl, hg, hb, by simp⟩
    · refine ⟨before, g, c, after ++ [(h, b)], by simp, hg, hc, fun e he => ?_⟩
      rcases List.mem_append.mp he with he | he
      · exact hafter e he
      · rw [List.mem_singleton.mp he]
        exact hb

/-! ## Every sequence of records -/

theorem mem_of_address?_recorded (hg : (recorded sets).address? h = some a) : (h, a) ∈ sets := by
  induction sets using List.reverseRecOn with
  | nil => cases hg
  | append_singleton sets e ih =>
    rw [recorded_concat, address?_set] at hg
    split at hg
    next heq =>
      cases hg
      simp [heq]
    next => exact List.mem_append_left _ (ih hg)

/-- What the table finds at an address lives there. -/
theorem address?_of_helperAt?_recorded (hg : (recorded sets).helperAt? a = some h) :
    (recorded sets).address? h = some a := by
  induction sets using List.reverseRecOn with
  | nil => cases hg
  | append_singleton sets e ih =>
    rw [recorded_concat, helperAt?_set] at hg
    rw [recorded_concat, address?_set]
    by_cases ha : a = e.2
    · rw [if_pos ha] at hg
      cases hg
      rw [if_pos rfl, ha]
    · rw [if_neg ha] at hg
      split at hg
      next => cases hg
      next hstays =>
        -- The one that moves had another address, so it is not the one found here.
        have hlives := ih hg
        have hne : h ≠ e.1 := fun heq => hstays (heq ▸ hlives)
        rw [if_neg hne, hlives]

theorem helperAt?_recorded_eq_none_iff :
    (recorded sets).helperAt? a = none ↔ (∀ e ∈ sets, e.2 ≠ a) ∨ Deserted sets a := by
  induction sets using List.reverseRecOn with
  | nil => exact iff_of_true rfl (.inl (by simp))
  | append_singleton sets e ih =>
    obtain ⟨h, b⟩ := e
    rw [recorded_concat, helperAt?_set_eq_none_iff, ih, deserted_concat]
    simp only [List.mem_append, List.mem_singleton]
    constructor
    · rintro ⟨hb, hmoves | hnever | hdeserted⟩
      · exact .inr ⟨hb, .inl hmoves⟩
      · refine .inl fun e he => ?_
        rcases he with he | rfl
        · exact hnever e he
        · exact hb
      · exact .inr ⟨hb, .inr hdeserted⟩
    · rintro (hnever | ⟨hb, hmoves | hdeserted⟩)
      · exact ⟨hnever (h, b) (.inr rfl), .inr (.inl fun e he => hnever e (.inl he))⟩
      · exact ⟨hb, .inl hmoves⟩
      · exact ⟨hb, .inr (.inr hdeserted)⟩

/-- The table is consistent at an address unless it finds nothing where a helper lives. -/
theorem consistentAt_recorded : ConsistentAt (recorded sets) a ↔
    ¬ ((recorded sets).helperAt? a = none ∧ ∃ h, (recorded sets).address? h = some a) := by
  constructor
  · rintro hconsistent ⟨hnone, hlives⟩
    have hsome := hconsistent.isSome_iff.mpr hlives
    rw [hnone] at hsome
    cases hsome
  · intro hgap
    refine ⟨⟨fun hsome => ?_, fun hlives => ?_⟩, fun h hh => address?_of_helperAt?_recorded hh⟩
    · obtain ⟨h, hh⟩ := Option.isSome_iff_exists.mp hsome
      exact ⟨h, address?_of_helperAt?_recorded hh⟩
    · exact Option.isSome_iff_ne_none.mpr fun hnone => hgap ⟨hnone, hlives⟩

/-- Only a helper that is recorded again deserts an address. -/
theorem not_deserted_of_nodup (hnodup : (sets.map (·.1)).Nodup) : ¬ Deserted sets a := by
  rintro ⟨before, h, b, after, rfl, hg, -⟩
  have hmem : h ∈ before.map (·.1) := List.mem_map_of_mem (mem_of_address?_recorded hg)
  rw [List.map_append, List.map_cons] at hnodup
  exact (List.nodup_append.mp hnodup).2.2 h hmem h List.mem_cons_self rfl

theorem consistentAt_of_not_deserted (hstays : ¬ Deserted sets a) :
    ConsistentAt (recorded sets) a := by
  rw [consistentAt_recorded]
  rintro ⟨hnone, h, hlives⟩
  rcases helperAt?_recorded_eq_none_iff.mp hnone with hnever | hdeserted
  · exact hnever _ (mem_of_address?_recorded hlives) rfl
  · exact hstays hdeserted

/-- After any sequence of records the two directions agree at an address, unless the address is
deserted while a helper lives there. They agree everywhere if no helper is recorded twice. -/
theorem recorded_consistent_iff (sets : List (Helper × UInt64)) :
    (∀ a, ConsistentAt (recorded sets) a ↔
      ¬ (Deserted sets a ∧ ∃ h, (recorded sets).address? h = some a)) ∧
    ((sets.map (·.1)).Nodup → ∀ a, ConsistentAt (recorded sets) a) := by
  refine ⟨fun a => ?_, fun hnodup a => consistentAt_of_not_deserted (not_deserted_of_nodup hnodup)⟩
  rw [consistentAt_recorded]
  refine not_congr (and_congr_left ?_)
  rintro ⟨h, hlives⟩
  have hcame : ¬ ∀ e ∈ sets, e.2 ≠ a := fun hnever =>
    hnever _ (mem_of_address?_recorded hlives) rfl
  rw [helperAt?_recorded_eq_none_iff, or_iff_right hcame]

/-- Two helpers at one address, of which the first moves on: the second is not found any more. -/
theorem recorded_consistent_iff_shared :
    let sets : List (Helper × UInt64) := [(.objectNew, 16), (.arrayNew, 16), (.objectNew, 32)]
    (recorded sets).address? .arrayNew = some 16 ∧ (recorded sets).helperAt? 16 = none ∧
    Deserted sets 16 ∧ ¬ ConsistentAt (recorded sets) 16 ∧ ConsistentAt (recorded sets) 32 ∧
    ∀ a, ConsistentAt (recorded (sets.drop 1)) a := by
  intro sets
  have hdeserted : Deserted sets 16 :=
    ⟨[(.objectNew, 16), (.arrayNew, 16)], .objectNew, 32, [], rfl, by decide, by decide, by simp⟩
  have hlives : (recorded sets).address? .arrayNew = some 16 := by decide
  have hiff := (recorded_consistent_iff sets).1
  refine ⟨hlives, by decide, hdeserted, fun hconsistent => ?_, ?_, ?_⟩
  · exact (hiff 16).mp hconsistent ⟨hdeserted, .arrayNew, hlives⟩
  · rw [hiff 32]
    rintro ⟨hdeserted, -⟩
    have hnone := helperAt?_recorded_eq_none_iff.mpr (.inr hdeserted)
    exact absurd hnone (by decide)
  · exact (recorded_consistent_iff (sets.drop 1)).2 (by decide)

/-! ## Tables made from exports -/

/-- The export of a helper and where its code is. -/
def exported? (exports : List (String × UInt64)) (resolve : UInt64 → UInt64) (h : Helper) :
    Option (Helper × UInt64) :=
  (exports.find? fun e => h.hasExport e.1).map fun e => (h, resolve e.2)

theorem ofExports_eq_recorded (exports : List (String × UInt64)) (resolve : UInt64 → UInt64) :
    ofExports exports resolve = recorded (Helper.all.filterMap (exported? exports resolve)) := by
  rw [ofExports, recorded, List.foldl_filterMap]
  congr 1
  funext t h
  rw [exported?]
  cases exports.find? fun e => h.hasExport e.1 <;> rfl

/-- A table made from the exports of a binary is consistent at every address, also where several
exports lead to the same code. -/
theorem consistentAt_ofExports (exports : List (String × UInt64)) (resolve : UInt64 → UInt64)
    (a : UInt64) : ConsistentAt (ofExports exports resolve) a := by
  rw [ofExports_eq_recorded]
  refine consistentAt_of_not_deserted (not_deserted_of_nodup ?_)
  have hkept : ((Helper.all.filterMap (exported? exports resolve)).map (·.1)).Sublist
      Helper.all := by
    generalize Helper.all = helpers
    induction helpers with
    | nil => exact List.Sublist.slnil
    | cons h helpers ih =>
      rw [List.filterMap_cons]
      split
      next => exact ih.cons h
      next e he =>
        obtain ⟨-, -, rfl⟩ := Option.map_eq_some_iff.mp he
        exact ih.cons_cons h
  exact hkept.nodup (by decide)

end MethodLift.HelperTable
