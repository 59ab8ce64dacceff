import PerfectHash.Table.Census

set_option autoImplicit false

/-! # What a census says

A census counts the entries by kind. The kind of an entry is told by its arity, so the counts are
those of the arities `0`, `1` and `2` (`Census.foldl_count`).

A census also keeps the greatest salt of its table. That salt is within a bound exactly when the
salts of all entries are (`Table.maxSalt_census_le_iff`), and a table without salts is within
every bound, as `0` stands for its greatest one.
-/

namespace PerfectHash

/-! ## The kinds of entries -/

/-- The number of keys for which an entry stands, with `2` for any larger number. -/
def Entry.arity : Entry → Nat
  | .unset => 0
  | .direct _ => 1
  | .displacement _ => 2

def Entry.salt? : Entry → Option Salt
  | .displacement salt => some salt
  | _ => none

/-- The counts of a census go up by the numbers of entries of each arity. -/
theorem Census.foldl_count (entries : List Entry) (census : Census) :
    (entries.foldl count census).slots = census.slots ∧
      (entries.foldl count census).unset =
        census.unset + (entries.map Entry.arity).count 0 ∧
      (entries.foldl count census).direct =
        census.direct + (entries.map Entry.arity).count 1 ∧
      (entries.foldl count census).displaced =
        census.displaced + (entries.map Entry.arity).count 2 := by
  induction entries generalizing census with
  | nil => exact ⟨rfl, rfl, rfl, rfl⟩
  | cons entry entries ih =>
      obtain ⟨hslots, hunset, hdirect, hdisplaced⟩ := ih (census.count entry)
      rw [List.foldl_cons, List.map_cons, List.count_cons, List.count_cons, List.count_cons, hslots,
        hunset, hdirect, hdisplaced]
      cases entry <;> simp [count, Entry.arity] <;> omega

theorem Table.census_eq {H : HashFamily} (t : Table H) :
    t.census.slots = t.size ∧
      t.census.unset = (t.entries.toList.map Entry.arity).count 0 ∧
      t.census.direct = (t.entries.toList.map Entry.arity).count 1 ∧
      t.census.displaced = (t.entries.toList.map Entry.arity).count 2 := by
  have h := Census.foldl_count t.entries.toList { slots := t.size }
  simp only [Nat.zero_add, Array.foldl_toList] at h
  exact h

/-! ## The greatest salt -/

def Entry.Within (bound : Salt) : Entry → Prop
  | .displacement salt => salt ≤ bound
  | _ => True

theorem Entry.within_of_arity_ne_two (entry : Entry) (bound : Salt) (h : entry.arity ≠ 2) :
    entry.Within bound := by
  cases entry with
  | unset => trivial
  | direct slot => trivial
  | displacement salt => exact absurd rfl h

theorem Salt.max_le_iff (a b c : Salt) : max a b ≤ c ↔ a ≤ c ∧ b ≤ c := by
  rw [show max a b = if a ≤ b then b else a from rfl]
  split <;> simp only [UInt64.le_iff_toNat_le] at * <;> omega

theorem Census.maxSalt_count_le_iff (census : Census) (entry : Entry) (bound : Salt) :
    (census.count entry).maxSalt ≤ bound ↔ census.maxSalt ≤ bound ∧ entry.Within bound := by
  cases entry with
  | unset => simp [count, Entry.Within]
  | direct slot => simp [count, Entry.Within]
  | displacement salt => exact Salt.max_le_iff census.maxSalt salt bound

theorem Census.maxSalt_foldl_le_iff (entries : List Entry) (census : Census) (bound : Salt) :
    (entries.foldl count census).maxSalt ≤ bound ↔
      census.maxSalt ≤ bound ∧ ∀ entry ∈ entries, entry.Within bound := by
  induction entries generalizing census with
  | nil => simp
  | cons entry entries ih =>
      rw [List.foldl_cons, ih, maxSalt_count_le_iff, List.forall_mem_cons, and_assoc]

theorem Table.maxSalt_census_le_iff {H : HashFamily} (t : Table H) (bound : Salt) :
    t.census.maxSalt ≤ bound ↔ ∀ entry ∈ t.entries, entry.Within bound := by
  rw [census, ← Array.foldl_toList, Census.maxSalt_foldl_le_iff]
  simp

end PerfectHash
