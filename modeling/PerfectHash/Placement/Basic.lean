import PerfectHash.Allocator.Basic
import PerfectHash.Bucket.Layout
import PerfectHash.Table.Entry

set_option autoImplicit false

/-! # Placing the buckets

The buckets are placed one after the other, and slots once handed out never come back. A bucket
of several keys gets the least salt that sends its keys to distinct free slots; a bucket of one
key gets the lowest free slot; an empty bucket keeps its unset entry.

A run writes an event for every bucket of several keys. The log survives a failure: it tells
what was placed before it.
-/

namespace PerfectHash

inductive Event where
  | placed (bucket size : Nat) (salt : Salt)
  /-- No salt up to `bound` fits the `size` keys of `bucket`, with `used` of the `slots` slots
  taken by other buckets. -/
  | exhausted (bucket size : Nat) (bound : Salt) (used slots : Nat)
deriving DecidableEq, Repr

/-- The line that reports an event, with its level in front. -/
def Event.render : Event → String
  | .placed bucket size salt => s!"TRACE bucket {bucket}: {size} keys placed with salt {salt}"
  | .exhausted bucket size bound used slots =>
      s!"WARN bucket {bucket} with {size} keys exhausted {bound} salts " ++
        s!"({used} of {slots} slots used)"

structure PlacementCost where
  multiKey : Nat := 0
  singleKey : Nat := 0
  /-- The number of buckets that are left out of the order. -/
  empty : Nat := 0
  /-- The number of salts that were tried up to the ones that fit, as a wrapping word. -/
  attempts : UInt64 := 0
  maxSalt : Salt := 0
deriving DecidableEq, Repr

structure Placement where
  entries : Array Entry
  cost : PlacementCost
  log : List Event
deriving DecidableEq, Repr

/-- A run of placements that came to an end before all buckets were placed. -/
structure Halt where
  cause : Failure
  log : List Event
deriving DecidableEq, Repr

namespace Placement

structure Run where
  entries : Array Entry
  allocator : Allocator
  cost : PlacementCost
  log : Array Event
deriving DecidableEq, Repr

/-- A run over `n` buckets that has placed none of them yet and will place `count`. The number
of buckets that are left out is a difference of words. -/
def Run.start (n count : Nat) (bound : Salt) (width : UInt64) : Run where
  entries := Array.replicate n .unset
  allocator := .start n bound width
  cost := { empty := (UInt64.ofNat n - UInt64.ofNat count).toNat }
  log := #[]

/-- Ends a run with its log when an operation fails. -/
def orHalt {α : Type} (log : Array Event) (result : Outcome α) : Except Halt α :=
  result.mapError fun cause => ⟨cause, log.toList⟩

/-- Places bucket `b` of one key. -/
def placeSingle (b : Nat) : Run → Except Halt Run
  | { entries, allocator, cost, log } =>
      match allocator.take with
      | (none, _) => .error ⟨.noFittingSalt b 1 0, log.toList⟩
      | (some slot, allocator) => do
          let entries ← orHalt log (store entries b (.direct slot))
          let cost := { cost with singleKey := cost.singleKey + 1 }
          return { entries, allocator, cost, log }

/-- Places bucket `b` of several keys. -/
def placeMulti (H : HashFamily) (b : Nat) (keys : List Key) : Run → Except Halt Run
  | { entries, allocator, cost, log } => do
      let size := keys.length
      match ← orHalt log (allocator.place H keys) with
      | (none, { finder, used }) =>
          let log := log.push (.exhausted b size finder.bound used.used finder.n)
          .error ⟨.noFittingSalt b size finder.bound, log.toList⟩
      | (some fit, allocator) =>
          let log := log.push (.placed b size fit.salt)
          let entries ← orHalt log (store entries b (.displacement fit.salt))
          let cost := { cost with
            multiKey := cost.multiKey + 1
            attempts := cost.attempts + fit.salt
            maxSalt := max cost.maxSalt fit.salt }
          return { entries, allocator, cost, log }

def placeBucket (H : HashFamily) (B : BucketLayout) (run : Run) (b : Nat) : Except Halt Run := do
  match ← orHalt run.log (B.bucket b) with
  | [] => return run
  | [_] => placeSingle b run
  | keys => placeMulti H b keys run

def ofBuckets (H : HashFamily) (B : BucketLayout) (order : List Nat) (bound : Salt)
    (width : UInt64) : Except Halt Placement := do
  let run ← order.foldlM (placeBucket H B) (Run.start B.count order.length bound width)
  return { entries := run.entries, cost := run.cost, log := run.log.toList }

end Placement

end PerfectHash
