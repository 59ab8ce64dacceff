import PerfectHash.Salt.Finder

set_option autoImplicit false

/-! # Handing out slots

An `Allocator` is a set of slots together with a finder of salts. It hands slots out in two
ways: `take` gives the lowest free slot, and `place` gives a list of keys the slots under the
least salt that fits. Slots handed out are used from then on and never come back.
-/

namespace PerfectHash

/-- The slots that are used so far and a finder of salts for the others. -/
structure Allocator where
  finder : SaltFinder
  used : SlotSet
deriving DecidableEq, Repr

namespace Allocator

def start (n : Nat) (bound : Salt) (width : UInt64) : Allocator :=
  { finder := .start n bound width, used := .free n }

def take : Allocator → Option Nat × Allocator
  | { finder, used } =>
      let (slot, used) := used.take
      (slot, { finder, used })

def find (H : HashFamily) (keys : List Key) : Allocator → Outcome (Option Fit × Allocator)
  | { finder, used } => do
      let (fit, finder) ← finder.find H used keys
      return (fit, { finder, used })

/-- Hands out the slots of the keys under the least salt that fits. -/
def place (H : HashFamily) (keys : List Key) : Allocator → Outcome (Option Fit × Allocator)
  | { finder, used } => do
      match ← finder.find H used keys with
      | (none, finder) => return (none, { finder, used })
      | (some fit, finder) =>
          let used ← used.markAll fit.slots
          return (some fit, { finder, used })

end Allocator

end PerfectHash
