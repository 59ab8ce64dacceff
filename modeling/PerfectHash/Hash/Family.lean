import PerfectHash.Cell

set_option autoImplicit false

/-! # Hash families

A hash family gives, for every salt, a function from keys to words. Salt `0` picks the home
bucket of a key among `n` buckets; a salt `d ≥ 1` picks its slot among `n` slots when its home
bucket is displaced by `d`. Both are the remainder of the hash modulo `n`.

The remainder is undefined for `n = 0`. `HashFamily.home` and `HashFamily.slot` are the plain
remainders that statements speak about; the programs use `homeOf` and `slotOf`, which fault
when there is nothing to pick from.
-/

namespace PerfectHash

/-- A function from keys to words for every salt. -/
structure HashFamily where
  hash : Key → Salt → UInt64

def reduce (hash : UInt64) (n : Nat) : Outcome Nat :=
  if n = 0 then .error (.fault .emptyRange) else .ok (hash.toNat % n)

namespace HashFamily

variable (H : HashFamily)

/-- The home bucket of a key among `n > 0` buckets. -/
def home (n : Nat) (key : Key) : Nat := (H.hash key 0).toNat % n

def slot (n : Nat) (salt : Salt) (key : Key) : Nat := (H.hash key salt).toNat % n

/-- The home bucket of a key among `n` buckets. -/
def homeOf (n : Nat) (key : Key) : Outcome Nat := reduce (H.hash key 0) n

def slotOf (n : Nat) (salt : Salt) (key : Key) : Outcome Nat := reduce (H.hash key salt) n

theorem homeOf_of_pos (n : Nat) (key : Key) (h : 0 < n) : H.homeOf n key = .ok (H.home n key) := by
  simp [homeOf, reduce, home, Nat.pos_iff_ne_zero.mp h]

theorem slotOf_of_pos (n : Nat) (salt : Salt) (key : Key) (h : 0 < n) :
    H.slotOf n salt key = .ok (H.slot n salt key) := by
  simp [slotOf, reduce, slot, Nat.pos_iff_ne_zero.mp h]

theorem home_lt (n : Nat) (key : Key) (h : 0 < n) : H.home n key < n := Nat.mod_lt _ h

theorem slot_lt (n : Nat) (salt : Salt) (key : Key) (h : 0 < n) : H.slot n salt key < n :=
  Nat.mod_lt _ h

end HashFamily

end PerfectHash
