import PerfectHash.Table.Basic

set_option autoImplicit false

/-! # The signed form of a table

A table can be kept as the array of the signed forms of its entries, a `RawTable`.
`Table.ofRaw` accepts the forms of valid tables. `RawTable.lookup` looks a key up in the array
itself; as nothing has been checked there, a slot that is out of range counts as a miss.
-/

namespace PerfectHash

/-- The signed forms of the entries of a table, by home bucket. -/
abbrev RawTable := Array Int64

namespace Table

variable {H : HashFamily}

def toRaw (t : Table H) : RawTable := t.entries.map Entry.toRaw

/-- The table with the given signed form, valid or not. -/
def ofRawUnchecked (H : HashFamily) (raw : RawTable) : Table H := ⟨raw.map Entry.ofRaw⟩

def ofRaw (H : HashFamily) (raw : RawTable) : Outcome (Table H) := (ofRawUnchecked H raw).validate

end Table

def RawTable.lookup (H : HashFamily) (raw : RawTable) (key : Key) : Outcome (Option Nat) := do
  if raw.isEmpty then
    return none
  let home ← H.homeOf raw.size key
  let value ← fetch raw home
  match Entry.ofRaw value with
  | .unset => return none
  | .direct slot => return if slot < raw.size then some slot else none
  | .displacement salt => return some (← H.slotOf raw.size salt key)

end PerfectHash
