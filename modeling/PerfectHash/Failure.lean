import PerfectHash.Key

set_option autoImplicit false

/-! # Failures

Everything that can go wrong, as one type of causes. A `Failure` is either a refusal that a
caller can act on (a bad key set, a corrupt table, a search that found no salt) or a `Fault`:
an access outside an array, or a hash reduced to an empty range. No operation on well-formed
data faults. The operations are checked nevertheless, so that a fault is a value that statements
can speak about.

The wording of each failure is fixed by `Failure.message`.
-/

namespace PerfectHash

/-- An operation left its domain. -/
inductive Fault where
  | outOfBounds (index size : Nat)
  /-- A hash was reduced to an index below zero. -/
  | emptyRange
deriving DecidableEq, Repr

/-- What is wrong with the slot of a key. -/
inductive Defect where
  /-- The home bucket of the key has no entry. -/
  | missing
  | outOfRange
  /-- An earlier key has the same slot. -/
  | collision (other : Key)
deriving DecidableEq, Repr

inductive Failure where
  /-- There are no keys, or a table has no entries. -/
  | emptyKeySet
  | duplicateKey (key : Key)
  /-- A key dump of `length` bytes does not consist of whole words. -/
  | truncatedDump (length : Nat)
  /-- None of the salts `1, …, attempts` fits the `size` keys of `bucket`. -/
  | noFittingSalt (bucket size : Nat) (attempts : UInt64)
  /-- The first key at which a table fails to be a bijection. -/
  | notBijective (key : Key) (slot : Nat) (defect : Defect)
  | sizeMismatch (slots keys : Nat)
  /-- Entry `index` cannot occur in a table of its size; `value` is its signed form. -/
  | corruptEntry (index : Nat) (value : Int64)
  | unexpectedEnd
  | unknownTag (tag : Nat)
  | fault (cause : Fault)
deriving DecidableEq, Repr

abbrev Outcome (α : Type) := Except Failure α

def Defect.render : Defect → String
  | .missing => "Miss"
  | .outOfRange => "OutOfRange"
  | .collision other => s!"Collision \x7b other: {other} \x7d"

def Fault.render : Fault → String
  | .outOfBounds index size => s!"index {index} is outside an array of {size} cells"
  | .emptyRange => "reduction to an empty range"

def Failure.message : Failure → String
  | .emptyKeySet => "empty key set is not supported"
  | .duplicateKey key =>
      let word := Key.render key
      s!"duplicate key {word} detected during build"
  | .truncatedDump length => s!"key buffer length {length} is not a multiple of 8"
  | .noFittingSalt bucket size attempts =>
      s!"bucket {bucket} ({size} keys) found no salt within {attempts} attempts"
  | .notBijective key slot defect =>
      let word := Key.render key
      let reason := defect.render
      s!"table is not a bijection: key {word} -> slot {slot}: {reason}"
  | .sizeMismatch slots keys => s!"table covers {slots} slots but {keys} keys were supplied"
  | .corruptEntry index value => s!"corrupt salt table entry {index}: {value}"
  | .unexpectedEnd => "serialization error: io error: unexpected end of file"
  | .unknownTag tag =>
      s!"serialization error: invalid value: integer `{tag}`, expected variant index 0 <= i < 3"
  | .fault cause => cause.render

end PerfectHash
