import PerfectHash.Failure
import PerfectHash.Word.LittleEndian
import Std.Data.HashSet

set_option autoImplicit false

/-! # Key sets

A table is built from a list of keys without repetitions. `checkDistinct` tests a
list, `firstOccurrences` drops the repetitions, and `keysOfBytes` reads the list from a dump,
eight little-endian bytes for each key.
-/

namespace PerfectHash

/-- The first key of the list that is in `seen` or occurs earlier in the list. -/
def firstRepeat (seen : Std.HashSet Key) : List Key → Option Key
  | [] => none
  | key :: keys => if key ∈ seen then some key else firstRepeat (seen.insert key) keys

def checkDistinct (keys : List Key) : Outcome Unit :=
  if keys.isEmpty then .error .emptyKeySet
  else
    match firstRepeat ∅ keys with
    | some key => .error (.duplicateKey key)
    | none => .ok ()

/-- Adds to `kept` the keys of the list that are not in `seen` and do not occur earlier in the
list. -/
def collectFirst (seen : Std.HashSet Key) (kept : Array Key) : List Key → Array Key
  | [] => kept
  | key :: keys =>
      if key ∈ seen then collectFirst seen kept keys
      else collectFirst (seen.insert key) (kept.push key) keys

def firstOccurrences (keys : List Key) : List Key := (collectFirst ∅ #[] keys).toList

def keysOfBytes (bytes : List UInt8) : Outcome (List Key) :=
  let (keys, rest) := LittleEndian.splitWords bytes
  if rest.isEmpty then .ok keys else .error (.truncatedDump bytes.length)

end PerfectHash
