import PerfectHash.Cell

set_option autoImplicit false

/-! # The order in which buckets are placed

Large buckets are hard to place, so they go first, while most slots are free. Buckets of equal
size go in the order of their indices, and empty buckets are left out.

`largestFirst` is a counting sort: a histogram of the sizes, the first position of every size
class from the largest down, and one pass that writes each bucket to the next position of its
class.
-/

namespace PerfectHash.Schedule

/-- The number of buckets of every size up to `top`. -/
def histogram (top : Nat) (sizes : List Nat) : Outcome (Array Nat) :=
  sizes.foldlM increment (Array.replicate (top + 1) 0)

/-- For every size from `top` down to `1` the number of buckets that are larger, and in the end
the number of all buckets that are not empty. `before` counts the buckets met so far. -/
def positions (histogram : Array Nat) : Nat → Array Nat → Nat → Outcome (Array Nat × Nat)
  | 0, next, before => .ok (next, before)
  | size + 1, next, before => do
      let next ← store next (size + 1) before
      let same ← fetch histogram (size + 1)
      positions histogram size next (before + same)

/-- Writes a bucket to the next position of its size class, unless it is empty. -/
def arrange : Array Nat × Array Nat → Nat × Nat → Outcome (Array Nat × Array Nat)
  | (next, order), (size, bucket) =>
      if size = 0 then .ok (next, order)
      else do
        let cell ← fetch next size
        let order ← store order cell bucket
        let next ← store next size (cell + 1)
        return (next, order)

/-- The indices of the positive sizes, by descending size and then by ascending index. -/
def largestFirst (sizes : List Nat) : Outcome (List Nat) := do
  let top := sizes.foldl max 0
  if top = 0 then
    return []
  let counts ← histogram top sizes
  let (next, total) ← positions counts top (Array.replicate (top + 1) 0) 0
  let (_, order) ← sizes.zipIdx.foldlM arrange (next, Array.replicate total 0)
  return order.toList

end PerfectHash.Schedule
