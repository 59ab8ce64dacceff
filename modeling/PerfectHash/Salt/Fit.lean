import PerfectHash.Hash.Family

set_option autoImplicit false

/-! # Salts that fit

A salt fits a list of keys when it sends them to pairwise distinct slots none of which is taken.
This is the property that a finder of salts decides. It is stated on the plain list of slots,
without any of the devices with which it is decided, and for any set of taken slots.
-/

namespace PerfectHash

/-- A salt together with the slots of the keys under it, in the order of the keys. -/
structure Fit where
  salt : Salt
  slots : List Nat
deriving DecidableEq, Repr

namespace HashFamily

variable (H : HashFamily)

def slots (n : Nat) (salt : Salt) (keys : List Key) : List Nat := keys.map (H.slot n salt)

/-- The salt sends the keys to pairwise distinct slots that are not taken. -/
def Fits (n : Nat) (taken : Nat → Prop) (keys : List Key) (salt : Salt) : Prop :=
  (H.slots n salt keys).Nodup ∧ ∀ slot ∈ H.slots n salt keys, ¬ taken slot

instance (n : Nat) (taken : Nat → Prop) [DecidablePred taken] (keys : List Key) :
    DecidablePred (H.Fits n taken keys) :=
  fun _ => inferInstanceAs (Decidable (_ ∧ _))

/-- `salt` is the least of the salts `1, …, bound` that fits. -/
def IsLeastFit (n : Nat) (taken : Nat → Prop) (keys : List Key) (bound salt : Salt) : Prop :=
  (1 ≤ salt ∧ salt ≤ bound ∧ H.Fits n taken keys salt) ∧
    ∀ other, 1 ≤ other → other < salt → ¬ H.Fits n taken keys other

end HashFamily

end PerfectHash
