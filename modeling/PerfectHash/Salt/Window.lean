import PerfectHash.LazyList
import PerfectHash.Salt.Fit
import PerfectHash.SlotSet.Basic
import Std.Data.HashSet

set_option autoImplicit false

/-! # Searching in windows

The salts `1, …, bound` are cut into windows of `width` consecutive salts. The salts of a window
can be tried independently of each other, as a test needs no memory of earlier ones. The lowest
salt of the first window with a fitting salt is the result, so the cut into windows does not show
in it.

A test has to find out whether two keys go to one slot. It can collect all slots and sort them, so
that equal ones are neighbours (`fitsSorted`), or keep the set of the slots reached so far and stop
at the first key that is in the way of another one (`fits`). The answers are the same, and the
search uses the second test, whose work ends early for most salts.

A window is given by its first and its last salt, both of them words. The last salt is a sum that
saturates, so a window near the greatest word is cut off there and does not start again at `0`.
-/

namespace PerfectHash.Window

/-- Whether the salt sends the keys to pairwise distinct slots that are free and not in
`reached`. Keys behind the first one that is not are not looked at. -/
def fitsBeside (H : HashFamily) (n : Nat) (used : SlotSet) (salt : Salt)
    (reached : Std.HashSet Nat) : List Key → Outcome Bool
  | [] => .ok true
  | key :: keys => do
      let slot ← H.slotOf n salt key
      if slot ∈ reached then
        return false
      if ← used.isUsed slot then
        return false
      fitsBeside H n used salt (reached.insert slot) keys

def fits (H : HashFamily) (n : Nat) (used : SlotSet) (keys : List Key) (salt : Salt) :
    Outcome Bool :=
  fitsBeside H n used salt ∅ keys

/-- The first of `count` consecutive salts, from `salt` on, that passes the test. -/
def first (test : Salt → Outcome Bool) : Nat → Nat → Outcome (Option Salt)
  | 0, _ => .ok none
  | count + 1, salt => do
      if ← test (.ofNat salt) then
        return some (.ofNat salt)
      first test count (salt + 1)

def saturatingAdd (a b : UInt64) : UInt64 :=
  if a + b < a then 0xFFFFFFFFFFFFFFFF else a + b

/-- The last salt of the window that starts at `start`. -/
def stop (width bound start : Salt) : Salt := min (saturatingAdd start (width - 1)) bound

theorem toNat_saturatingAdd (a b : UInt64) :
    (saturatingAdd a b).toNat = min (a.toNat + b.toNat) 0xFFFFFFFFFFFFFFFF := by
  have ha := a.toNat_lt
  have hb := b.toNat_lt
  unfold saturatingAdd
  simp only [UInt64.lt_iff_toNat_lt, UInt64.toNat_add]
  split
  · show 0xFFFFFFFFFFFFFFFF = _
    omega
  · rw [UInt64.toNat_add]
    omega

/-- No window reaches beyond the bound, and saturation is not felt below it. -/
theorem toNat_stop (width bound start : Salt) :
    (stop width bound start).toNat = min (start.toNat + (width - 1).toNat) bound.toNat := by
  have hbound := bound.toNat_lt
  have hsum := toNat_saturatingAdd start (width - 1)
  have hmin : (stop width bound start).toNat =
      min (saturatingAdd start (width - 1)).toNat bound.toNat := by
    show (if _ ≤ bound then saturatingAdd start (width - 1) else bound).toNat = _
    simp only [UInt64.le_iff_toNat_le]
    split <;> omega
  omega

/-- Below the bound there is a next salt. -/
theorem toNat_stop_add_one (width bound start : Salt) (h : stop width bound start < bound) :
    (stop width bound start + 1).toNat = (stop width bound start).toNat + 1 := by
  have hbound := bound.toNat_lt
  rw [UInt64.lt_iff_toNat_lt] at h
  rw [UInt64.toNat_add, UInt64.toNat_one]
  omega

theorem remaining_lt (width bound start : Salt) (hstart : start ≤ bound)
    (hstop : stop width bound start < bound) :
    bound.toNat + 1 - (stop width bound start + 1).toNat < bound.toNat + 1 - start.toNat := by
  have hnext := toNat_stop_add_one width bound start hstop
  have hlast := toNat_stop width bound start
  rw [UInt64.le_iff_toNat_le] at hstart
  omega

/-- The windows from `start` to `bound`, each with its first and its last salt. The window that
reaches the bound is the last one, also if the bound is the greatest word. The salt behind that
window would be `0`, and to go on there would be to start over for ever. -/
def windows (width bound start : Salt) : LazyList (Salt × Salt) :=
  if start ≤ bound then
    let stop := stop width bound start
    .cons (start, stop) fun _ => if stop < bound then windows width bound (stop + 1) else .nil
  else .nil
termination_by bound.toNat + 1 - start.toNat
decreasing_by exact remaining_lt width bound start ‹_› ‹_›

def hit (test : Salt → Outcome Bool) (window : Salt × Salt) : Outcome (Option Salt) :=
  first test (window.2.toNat + 1 - window.1.toNat) window.1.toNat

/-- The first salt from `start` to `bound` that passes the test, window by window. -/
def search (test : Salt → Outcome Bool) (width bound start : Salt) : Outcome (Option Salt) :=
  (windows width bound start).findSomeM? (hit test)

end PerfectHash.Window
