set_option autoImplicit false

/-! # Bits of a word

A 64-bit word as a row of 64 bits. Positions are below `64` wherever these functions are used.
-/

namespace PerfectHash.Bits

def isSet (word : UInt64) (position : Nat) : Bool :=
  (word >>> UInt64.ofNat position) &&& 1 != 0

def set (word : UInt64) (position : Nat) : UInt64 :=
  word ||| (1 <<< UInt64.ofNat position)

def lowestClear? (word : UInt64) : Option Nat :=
  (List.range 64).find? fun position => !isSet word position

theorem isSet_eq_testBit (word : UInt64) (position : Nat) (h : position < 64) :
    isSet word position = word.toNat.testBit position := by
  have hp : (UInt64.ofNat position).toNat % 64 = position := by
    simp [Nat.mod_eq_of_lt h]
  have hw : ((word >>> UInt64.ofNat position) &&& 1).toNat = word.toNat >>> position &&& 1 := by
    rw [UInt64.toNat_and, UInt64.toNat_shiftRight, hp]
    rfl
  have hz : ((word >>> UInt64.ofNat position) &&& 1 != 0) =
      (((word >>> UInt64.ofNat position) &&& 1).toNat != 0) := by
    rw [Bool.eq_iff_iff]
    simp [← UInt64.toNat_inj]
  rw [isSet, hz, hw, Nat.testBit, Nat.and_comm]

/-- Setting a bit sets that bit and changes no other. -/
theorem isSet_set (word : UInt64) (position other : Nat) (h : position < 64) (ho : other < 64) :
    isSet (set word position) other = (decide (other = position) || isSet word other) := by
  have hp : (UInt64.ofNat position).toNat % 64 = position := by
    simp [Nat.mod_eq_of_lt h]
  have hone : ((1 : UInt64) <<< UInt64.ofNat position).toNat = 2 ^ position := by
    rw [UInt64.toNat_shiftLeft, hp, UInt64.toNat_one, Nat.shiftLeft_eq, Nat.one_mul,
      Nat.mod_eq_of_lt (Nat.pow_lt_pow_right (by decide) h)]
  rw [isSet_eq_testBit _ _ ho, isSet_eq_testBit _ _ ho, set, UInt64.toNat_or, hone,
    Nat.testBit_or, Nat.testBit_two_pow, Bool.or_comm]
  congr 1
  simp [eq_comm]

end PerfectHash.Bits
