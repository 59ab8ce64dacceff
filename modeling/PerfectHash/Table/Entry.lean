import PerfectHash.Failure

set_option autoImplicit false

/-! # Entries

A table has one entry for every home bucket. The entry says where the keys of the bucket are:
nowhere, at a slot of their own, or at the slots that a salt sends them to.

The signed form of an entry is one 64-bit integer: `0` for an unset entry, a positive number
for a salt, and `-(slot + 1)` for a slot. All arithmetic wraps, so the form of an entry that is
too large for it is the form of another entry.
-/

namespace PerfectHash

/-- Where the keys of one home bucket are. -/
inductive Entry where
  /-- No key has this bucket as its home. -/
  | unset
  /-- The only key of the bucket is at this slot. -/
  | direct (slot : Nat)
  /-- Every key of the bucket is at its slot under this salt. -/
  | displacement (salt : Salt)
deriving DecidableEq, Repr

namespace Entry

def toRaw : Entry → Int64
  | .unset => 0
  | .direct slot => -(Int64.ofNat slot) - 1
  | .displacement salt => salt.toInt64

def ofRaw (value : Int64) : Entry :=
  if value = 0 then .unset
  else if value < 0 then .direct (-(value + 1)).toUInt64.toNat
  else .displacement value.toUInt64

/-- The entry can occur in a table of `n` entries: a slot is below `n`, and a salt is positive
and below `2 ^ 63`, so that it has a signed form of its own. -/
def Valid (n : Nat) : Entry → Prop
  | .unset => True
  | .direct slot => slot < n
  | .displacement salt => 0 < salt.toNat ∧ salt.toNat < 0x8000000000000000

instance (n : Nat) : DecidablePred (Valid n)
  | .unset => inferInstanceAs (Decidable True)
  | .direct _ => inferInstanceAs (Decidable (_ < _))
  | .displacement _ => inferInstanceAs (Decidable (_ ∧ _))

end Entry

end PerfectHash
