import Mathlib.Algebra.Group.Nat.Defs
import PerfectHash.Word.Product

set_option autoImplicit false

/-! # The high word of a product

The high word is computed from products of halves, with their carries. The main statement
`highProduct_toNat` says that nothing is lost on the way.
-/

namespace PerfectHash

theorem lowHalf_toNat (word : UInt64) : (lowHalf word).toNat = word.toNat % 2 ^ 32 := by
  unfold lowHalf
  rw [UInt64.toNat_and]
  exact Nat.and_two_pow_sub_one_eq_mod word.toNat 32

theorem highHalf_toNat (word : UInt64) : (highHalf word).toNat = word.toNat / 2 ^ 32 := by
  unfold highHalf
  rw [UInt64.toNat_shiftRight]
  exact Nat.shiftRight_eq_div_pow word.toNat 32

/-- Long multiplication in base `m`: the upper two digits of a product of two-digit numbers. -/
theorem longProduct_div (m p q r s : Nat) (hm : 0 < m) :
    (p * m + q) * (r * m + s) / (m * m) =
      p * r + p * s / m + q * r / m + (q * s / m + p * s % m + q * r % m) / m := by
  have hexpand : (p * m + q) * (r * m + s) = q * s + m * (p * s + q * r + m * (p * r)) := by
    grind
  have hmiddle : p * s + q * r = m * (p * s / m + q * r / m) + (p * s % m + q * r % m) := by
    have hleft := Nat.div_add_mod (p * s) m
    have hright := Nat.div_add_mod (q * r) m
    rw [Nat.mul_add]
    omega
  rw [hexpand, ← Nat.div_div_eq_div_mul, Nat.add_mul_div_left _ _ hm, hmiddle]
  have hsum : q * s / m + (m * (p * s / m + q * r / m) + (p * s % m + q * r % m) + m * (p * r)) =
      (q * s / m + p * s % m + q * r % m) + m * (p * r + p * s / m + q * r / m) := by
    rw [Nat.mul_add, Nat.mul_add, Nat.mul_add]
    omega
  rw [hsum, Nat.add_mul_div_left _ _ hm]
  omega

theorem mul_half_lt {x y : Nat} (hx : x < 2 ^ 32) (hy : y < 2 ^ 32) : x * y < 2 ^ 64 :=
  (Nat.mul_lt_mul'' hx hy : x * y < 2 ^ 32 * 2 ^ 32)

/-- The high word of a product is the quotient of the product by `2 ^ 64`. -/
theorem highProduct_toNat (a b : UInt64) :
    (highProduct a b).toNat = a.toNat * b.toNat / 2 ^ 64 := by
  have ha := a.toNat_lt
  have hb := b.toNat_lt
  have hp : a.toNat / 2 ^ 32 < 2 ^ 32 := by omega
  have hq : a.toNat % 2 ^ 32 < 2 ^ 32 := Nat.mod_lt _ (by decide)
  have hr : b.toNat / 2 ^ 32 < 2 ^ 32 := by omega
  have hs : b.toNat % 2 ^ 32 < 2 ^ 32 := Nat.mod_lt _ (by decide)
  have hlong := longProduct_div (2 ^ 32) (a.toNat / 2 ^ 32) (a.toNat % 2 ^ 32) (b.toNat / 2 ^ 32)
    (b.toNat % 2 ^ 32) (by decide)
  have hquotient : a.toNat * b.toNat / 2 ^ 64 < 2 ^ 64 :=
    Nat.div_lt_of_lt_mul (Nat.mul_lt_mul'' ha hb)
  rw [Nat.div_add_mod', Nat.div_add_mod'] at hlong
  simp only [highProduct, UInt64.toNat_add, UInt64.toNat_mul, highHalf_toNat, lowHalf_toNat,
    Nat.mod_eq_of_lt (mul_half_lt hp hr), Nat.mod_eq_of_lt (mul_half_lt hp hs),
    Nat.mod_eq_of_lt (mul_half_lt hq hr), Nat.mod_eq_of_lt (mul_half_lt hq hs)]
  have hlow := mul_half_lt hq hs
  generalize a.toNat / 2 ^ 32 * (b.toNat / 2 ^ 32) = high at *
  generalize a.toNat / 2 ^ 32 * (b.toNat % 2 ^ 32) = left at *
  generalize a.toNat % 2 ^ 32 * (b.toNat / 2 ^ 32) = right at *
  generalize a.toNat % 2 ^ 32 * (b.toNat % 2 ^ 32) = low at *
  omega

end PerfectHash
