import PerfectHash.Table.Basic

set_option autoImplicit false

/-! # The validation of a table

`Table.validate` decides `Table.Valid`: it returns a valid table as it is and refuses every other
one (`validate_eq_ok_iff`). A table without entries is refused as such, and any other one for the
first entry that cannot occur in it (`validate_eq_error_iff`).
-/

namespace PerfectHash.Table

variable {H : HashFamily}

theorem firstCorrupt_eq_none_iff (n : Nat) (entries : List Entry) :
    firstCorrupt n entries = none ↔ ∀ entry ∈ entries, entry.Valid n := by
  rw [firstCorrupt, List.find?_eq_none]
  constructor
  · intro h entry hentry
    obtain ⟨i, hi, rfl⟩ := List.getElem_of_mem hentry
    simpa using h (entries[i], i) (by simp [List.mem_zipIdx_iff_getElem?, hi])
  · rintro h ⟨entry, i⟩ hentry
    have hmem : entry ∈ entries :=
      List.mem_of_getElem? (List.mem_zipIdx_iff_getElem?.mp hentry)
    simpa using h entry hmem

/-- The validation returns the table itself, and accepts the valid ones. -/
theorem validate_eq_ok_iff (t u : Table H) : t.validate = .ok u ↔ t = u ∧ u.Valid := by
  have hvalid := firstCorrupt_eq_none_iff t.size t.entries.toList
  simp only [Array.mem_toList_iff] at hvalid
  unfold validate
  by_cases hempty : t.entries.isEmpty
  · rw [if_pos hempty]
    constructor
    · intro h
      cases h
    · rintro ⟨rfl, hne, -⟩
      exact absurd (Array.isEmpty_iff.mp hempty) hne
  · rw [if_neg hempty]
    have hne : t.entries ≠ #[] := fun h => hempty (Array.isEmpty_iff.mpr h)
    cases hcorrupt : firstCorrupt t.size t.entries.toList with
    | none =>
        constructor
        · intro h
          cases h
          exact ⟨rfl, hne, hvalid.mp hcorrupt⟩
        · rintro ⟨rfl, -⟩
          rfl
    | some corrupt =>
        constructor
        · intro h
          cases h
        · rintro ⟨rfl, -, hall⟩
          rw [hvalid.mpr hall] at hcorrupt
          cases hcorrupt

theorem firstCorrupt_eq_some_iff (n : Nat) (entries : List Entry) (entry : Entry) (i : Nat) :
    firstCorrupt n entries = some (entry, i) ↔
      entries[i]? = some entry ∧ ¬ entry.Valid n ∧
        ∀ j < i, ∀ other, entries[j]? = some other → other.Valid n := by
  rw [firstCorrupt, List.find?_eq_some_iff_getElem]
  simp only [List.getElem_zipIdx, List.length_zipIdx]
  constructor
  · rintro ⟨hcorrupt, k, hk, heq, hbefore⟩
    rw [Nat.zero_add, Prod.mk.injEq] at heq
    obtain ⟨rfl, rfl⟩ := heq
    refine ⟨List.getElem?_eq_getElem hk, by simpa using hcorrupt, fun j hj other hother => ?_⟩
    obtain ⟨-, rfl⟩ := List.getElem?_eq_some_iff.mp hother
    simpa using hbefore j hj
  · rintro ⟨hentry, hcorrupt, hbefore⟩
    obtain ⟨hi, rfl⟩ := List.getElem?_eq_some_iff.mp hentry
    refine ⟨by simpa using hcorrupt, i, hi, by simp, fun j hj => ?_⟩
    simpa using hbefore j hj _ (List.getElem?_eq_getElem (Nat.lt_trans hj hi))

def FirstCorrupt (t : Table H) (i : Nat) (entry : Entry) : Prop :=
  t.entries[i]? = some entry ∧ ¬ entry.Valid t.size ∧
    ∀ j < i, ∀ other, t.entries[j]? = some other → other.Valid t.size

theorem validate_eq_error_iff (t : Table H) (failure : Failure) :
    t.validate = .error failure ↔
      (t.entries = #[] ∧ failure = .emptyKeySet) ∨
        ∃ i entry, t.FirstCorrupt i entry ∧ failure = .corruptEntry i entry.toRaw := by
  have hfirst := firstCorrupt_eq_some_iff t.size t.entries.toList
  simp only [Array.getElem?_toList] at hfirst
  unfold validate
  by_cases hempty : t.entries = #[]
  · rw [if_pos (Array.isEmpty_iff.mpr hempty)]
    constructor
    · intro h
      cases h
      exact .inl ⟨hempty, rfl⟩
    · rintro (⟨-, rfl⟩ | ⟨i, entry, ⟨hentry, -⟩, -⟩)
      · rfl
      · rw [hempty] at hentry
        cases hentry
  · rw [if_neg (by simpa using hempty)]
    cases hcorrupt : firstCorrupt t.size t.entries.toList with
    | none =>
        constructor
        · intro h
          cases h
        · rintro (⟨h, -⟩ | ⟨i, entry, h, -⟩)
          · exact absurd h hempty
          · rw [(hfirst entry i).mpr h] at hcorrupt
            cases hcorrupt
    | some corrupt =>
        rcases corrupt with ⟨entry, i⟩
        constructor
        · intro h
          cases h
          exact .inr ⟨i, entry, (hfirst entry i).mp hcorrupt, rfl⟩
        · rintro (⟨h, -⟩ | ⟨j, other, h, rfl⟩)
          · exact absurd h hempty
          · rw [(hfirst other j).mpr h] at hcorrupt
            cases hcorrupt
            rfl

end PerfectHash.Table
