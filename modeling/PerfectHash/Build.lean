import PerfectHash.Bucket.Order
import PerfectHash.KeySet
import PerfectHash.Placement.Basic
import PerfectHash.Table.Bijection

set_option autoImplicit false

/-! # Building a table

A build checks that the keys are distinct, groups them by home, places the groups from the
largest to the smallest, and checks the table before it is given away.
-/

namespace PerfectHash

structure BuildOptions where
  maxSalt : Salt := 4096
  /-- The number of consecutive salts that are tried together. -/
  window : UInt64 := 64
  /-- The number of workers that share a window; the machine decides when there is none. The
  table does not depend on it. -/
  workers : Option Nat := none
deriving DecidableEq, Repr

structure BuildReport where
  keys : Nat
  /-- The number of keys of the largest bucket. -/
  largestBucket : Nat
  cost : PlacementCost
deriving DecidableEq, Repr

namespace Table

/-- The table for the keys and what it took to build it, without any check of the keys or of
the table. -/
def construct (H : HashFamily) (options : BuildOptions) (keys : List Key) :
    Outcome (Table H × BuildReport) := do
  let buckets ← BucketLayout.ofKeys H keys
  let order ← Schedule.largestFirst buckets.sizes
  let largestBucket ← buckets.largest
  let placement ← (Placement.ofBuckets H buckets order options.maxSalt options.window).mapError
    Halt.cause
  return (⟨placement.entries⟩, { keys := keys.length, largestBucket, cost := placement.cost })

def buildWithReport (H : HashFamily) (options : BuildOptions) (keys : List Key) :
    Outcome (Table H × BuildReport) := do
  checkDistinct keys
  let (table, report) ← construct H options keys
  table.checkBijective keys
  return (table, report)

def build (H : HashFamily) (options : BuildOptions) (keys : List Key) : Outcome (Table H) := do
  let (table, _) ← buildWithReport H options keys
  return table

end Table

end PerfectHash
