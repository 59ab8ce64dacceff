import PerfectHash.Hash.Family

set_option autoImplicit false

/-! # Buckets

`n` keys are grouped into `n` buckets by their home. The groups lie one behind the other in a
single array `items`, and `offsets` holds the `n + 1` ends: bucket `b` is the segment from
`offsets[b]` to `offsets[b + 1]`.

`BucketLayout.ofKeys` lays the keys out in three passes and without any list of lists:

* `tally` counts the keys of every home, one cell further to the right;
* `accumulate` turns the counts into running sums, in place, which are the offsets;
* `scatter` copies every key to the cursor of its home, which starts at the offset of the
  bucket and moves one cell with every key.

Keys of one bucket keep their order.
-/

namespace PerfectHash

/-- Keys grouped by their home bucket, in one array. -/
structure BucketLayout where
  /-- The ends of the segments; the first is `0`. -/
  offsets : Array Nat
  /-- The keys, bucket after bucket. -/
  items : Array Key
deriving DecidableEq, Repr

namespace BucketLayout

/-- For each `b < n` the number of occurrences of `b` in `homes`, in cell `b + 1`. -/
def tally (n : Nat) (homes : List Nat) : Outcome (Array Nat) :=
  homes.foldlM (fun counts b => increment counts (b + 1)) (Array.replicate (n + 1) 0)

/-- Adds to every cell, from left to right, the cell before it. -/
def accumulate (n : Nat) (counts : Array Nat) : Outcome (Array Nat) :=
  (List.range n).foldlM (fun sums i => do
    let before ← fetch sums i
    let here ← fetch sums (i + 1)
    store sums (i + 1) (here + before)) counts

/-- Moves one key to the cursor of its home, and the cursor one cell on. -/
def scatterKey : Array Nat × Array Key → Nat × Key → Outcome (Array Nat × Array Key)
  | (cursors, items), (b, key) => do
      let cell ← fetch cursors b
      let items ← store items cell key
      let cursors ← store cursors b (cell + 1)
      return (cursors, items)

/-- Moves every key to its place. -/
def scatter (offsets : Array Nat) (keyed : List (Nat × Key)) : Outcome (Array Key) := do
  let (_, items) ← keyed.foldlM scatterKey (offsets, Array.replicate keyed.length 0)
  return items

def ofKeys (H : HashFamily) (keys : List Key) : Outcome BucketLayout := do
  let n := keys.length
  let homes ← keys.mapM (H.homeOf n)
  let offsets ← accumulate n (← tally n homes)
  let items ← scatter offsets (homes.zip keys)
  return { offsets, items }

def count (B : BucketLayout) : Nat := B.offsets.size - 1

/-- The keys of bucket `b`, in their order. -/
def bucket (B : BucketLayout) (b : Nat) : Outcome (List Key) := do
  let lo ← fetch B.offsets b
  let hi ← fetch B.offsets (b + 1)
  slice B.items lo hi

def size (B : BucketLayout) (b : Nat) : Outcome Nat := do
  let lo ← fetch B.offsets b
  let hi ← fetch B.offsets (b + 1)
  return hi - lo

def sizes (B : BucketLayout) : List Nat :=
  B.offsets.toList.zipWith (fun lo hi => hi - lo) B.offsets.toList.tail

/-- The number of keys of the largest bucket, and `0` when there are no buckets. -/
def largest (B : BucketLayout) : Outcome Nat :=
  (List.range B.count).foldlM (fun most b => return max most (← B.size b)) 0

end BucketLayout

end PerfectHash
