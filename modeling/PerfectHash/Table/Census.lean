import PerfectHash.Table.Basic

set_option autoImplicit false

/-! # The make-up of a table

A `Census` counts the entries of a table by kind and notes its greatest salt and the memory it
takes. `Census.render` is its written form; the memory is given in units of `2 ^ 20` bytes, to
two decimal places.
-/

namespace PerfectHash

structure Census where
  slots : Nat
  direct : Nat := 0
  displaced : Nat := 0
  unset : Nat := 0
  /-- The greatest salt, and `0` when there is none. -/
  maxSalt : Salt := 0
deriving DecidableEq, Repr

namespace Census

def count (census : Census) : Entry → Census
  | .unset => { census with unset := census.unset + 1 }
  | .direct _ => { census with direct := census.direct + 1 }
  | .displacement salt =>
      { census with displaced := census.displaced + 1, maxSalt := max census.maxSalt salt }

/-- The bytes of memory that a table takes: sixteen for an entry and twenty-four for the table
itself. -/
def memoryBytes (census : Census) : Nat := 24 + census.slots * 16

/-- The number of hundredths of `2 ^ 20` bytes that is nearest to `bytes`; a half goes up. -/
def hundredths (bytes : Nat) : Nat := (bytes * 100 + 512 * 1024) / (1024 * 1024)

def renderHundredths (value : Nat) : String :=
  let whole := value / 100
  let tenth := value / 10 % 10
  let last := value % 10
  s!"{whole}.{tenth}{last}"

def render (census : Census) : String :=
  let memory := renderHundredths (hundredths census.memoryBytes)
  "\n".intercalate [
    "Salt table statistics:",
    s!"  Slots: {census.slots}",
    s!"  Direct buckets: {census.direct}",
    s!"  Displaced buckets: {census.displaced}",
    s!"  Empty buckets: {census.unset}",
    s!"  Max salt: {census.maxSalt}",
    s!"  Memory: {memory} MB"]

end Census

def Table.census {H : HashFamily} (t : Table H) : Census :=
  t.entries.foldl Census.count { slots := t.size }

end PerfectHash
