import PerfectHash.SlotSet.Basic

set_option autoImplicit false

/-! # Commands on a set of slots

A `SlotSet.Command` is one operation on a set of slots as a value, and `perform` carries it
out. A command that fails answers with its failure and leaves the set as it was before the
failing access, so that a run of commands can go on behind a failure.
-/

namespace PerfectHash.SlotSet

inductive Command where
  | mark (slot : Nat)
  /-- Mark the slots `lo, …, hi - 1` in this order. -/
  | markRange (lo hi : Nat)
  | isUsed (slot : Nat)
  | allFree (slots : List Nat)
  | take
  | takeMany (count : Nat)
deriving DecidableEq, Repr

inductive Reply where
  | done
  | truth (answer : Bool)
  | taken (slot : Option Nat)
  | takenMany (slots : List (Option Nat))
deriving DecidableEq, Repr

/-- Marks `count` consecutive slots, from `slot` on, until an access fails; the marks made
before it stay. -/
def markFrom (set : SlotSet) (slot : Nat) : Nat → Outcome Reply × SlotSet
  | 0 => (.ok .done, set)
  | count + 1 =>
      match set.mark slot with
      | .ok set => set.markFrom (slot + 1) count
      | .error failure => (.error failure, set)

/-- Takes the lowest free slot `count` times and adds the answers to `slots`. -/
def takeEach (set : SlotSet) (slots : Array (Option Nat)) : Nat → Array (Option Nat) × SlotSet
  | 0 => (slots, set)
  | count + 1 =>
      let (slot, set) := set.take
      set.takeEach (slots.push slot) count

def perform (set : SlotSet) : Command → Outcome Reply × SlotSet
  | .mark slot =>
      match set.mark slot with
      | .ok set => (.ok .done, set)
      | .error failure => (.error failure, set)
  | .markRange lo hi => set.markFrom lo (hi - lo)
  | .isUsed slot => ((set.isUsed slot).map .truth, set)
  | .allFree slots => ((set.allFree slots).map .truth, set)
  | .take =>
      let (slot, set) := set.take
      (.ok (.taken slot), set)
  | .takeMany count =>
      let (slots, set) := set.takeEach #[] count
      (.ok (.takenMany slots.toList), set)

end PerfectHash.SlotSet
