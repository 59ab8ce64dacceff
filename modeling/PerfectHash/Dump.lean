import PerfectHash.Build
import PerfectHash.Table.Census

set_option autoImplicit false

/-! # From a key dump to a table

A dump is a byte string of keys, in any order and possibly with repetitions. `Dump.load` reads
it, drops the repetitions, builds a table with the default parameters and looks every key up
again. The checksum combines all slots by exclusive or; it depends on the number of keys alone.
-/

namespace PerfectHash

structure Dump (H : HashFamily) where
  /-- The number of keys in the dump, with repetitions. -/
  loaded : Nat
  unique : List Key
  table : Table H
  report : BuildReport
  /-- The exclusive or of the slots of all keys. -/
  checksum : UInt64
deriving DecidableEq, Repr

namespace Dump

/-- Adds the slot of one key to a checksum. A key without a slot counts as the word whose bits
are all set. -/
def addSlot {H : HashFamily} (table : Table H) (checksum : UInt64) (key : Key) :
    Outcome UInt64 := do
  match ← table.lookup key with
  | some slot => return checksum ^^^ .ofNat slot
  | none => return checksum ^^^ 0xFFFFFFFFFFFFFFFF

def checksumOf {H : HashFamily} (table : Table H) (keys : List Key) : Outcome UInt64 :=
  keys.foldlM (addSlot table) 0

/-- Builds and checks the table for a dump. -/
def load (H : HashFamily) (bytes : List UInt8) : Outcome (Dump H) := do
  let keys ← keysOfBytes bytes
  let unique := firstOccurrences keys
  let (table, report) ← Table.buildWithReport H {} unique
  let checksum ← checksumOf table unique
  return { loaded := keys.length, unique, table, report, checksum }

end Dump

end PerfectHash
