import PerfectHash.Allocator.Basic

set_option autoImplicit false

/-! # Commands on an allocator

An `Allocator.Command` is one operation on an allocator as a value, and `perform` carries it
out. A command that fails answers with its failure and changes no slot, so that a run of
commands can go on behind a failure.
-/

namespace PerfectHash.Allocator

inductive Command where
  | mark (slot : Nat)
  | take
  | find (keys : List Key)
  /-- Hand out the slots of the keys under the least salt that fits. -/
  | place (keys : List Key)
deriving DecidableEq, Repr

inductive Reply where
  | done
  | taken (slot : Option Nat)
  | found (fit : Option Fit)
deriving DecidableEq, Repr

/-- Carries out a command. A search that fails hands out nothing, and forgets its stamps. -/
def perform (H : HashFamily) : Allocator → Command → Outcome Reply × Allocator
  | { finder, used }, .mark slot =>
      match used.mark slot with
      | .ok used => (.ok .done, { finder, used })
      | .error failure => (.error failure, { finder, used })
  | allocator, .take =>
      let (slot, allocator) := allocator.take
      (.ok (.taken slot), allocator)
  | { finder := { n, bound, width, stamps }, used }, .find keys =>
      match find H keys { finder := { n, bound, width, stamps }, used } with
      | .ok (fit, allocator) => (.ok (.found fit), allocator)
      | .error failure => (.error failure, { finder := .start n bound width, used })
  | { finder := { n, bound, width, stamps }, used }, .place keys =>
      match place H keys { finder := { n, bound, width, stamps }, used } with
      | .ok (fit, allocator) => (.ok (.found fit), allocator)
      | .error failure => (.error failure, { finder := .start n bound width, used })

end PerfectHash.Allocator
