import Mathlib.Logic.Function.Basic
import PerfectHash.Hash.Families

set_option autoImplicit false

/-! # Mixing is a permutation

Each step of `mix` has an inverse on the words. Adding is undone by subtracting, and multiplying
by an odd constant by multiplying with its inverse modulo `2 ^ 64`. A xor-shift is undone by
repeating it: two rounds are one round of twice the shift, so after four rounds of a shift between
`16` and `31` nothing is left of the shifted word. `unmix` undoes the steps in reverse order.

`splitMix` combines the key with the mixed salt before it mixes, and both can be recovered from the
hash and each other. The main statement is `HashFamily.splitMix_bijective`.
-/

namespace PerfectHash

/-! ## Xor-shifts -/

theorem toNat_add_self (shift : UInt64) (h : shift.toNat < 32) :
    (shift + shift).toNat = shift.toNat + shift.toNat := by
  rw [UInt64.toNat_add]
  omega

theorem shiftRight_shiftRight (word shift : UInt64) (h : shift.toNat < 32) :
    word >>> shift >>> shift = word >>> (shift + shift) := by
  apply UInt64.toNat_inj.mp
  rw [UInt64.toNat_shiftRight, UInt64.toNat_shiftRight, UInt64.toNat_shiftRight,
    toNat_add_self shift h, ← Nat.shiftRight_add, Nat.mod_eq_of_lt (by omega),
    Nat.mod_eq_of_lt (by omega)]

theorem shiftRight_shiftRight_eq_zero (word shift : UInt64) (hlow : 32 ≤ shift.toNat)
    (hhigh : shift.toNat < 64) : word >>> shift >>> shift = 0 := by
  have hword : word.toNat < 2 ^ (shift.toNat + shift.toNat) :=
    Nat.lt_of_lt_of_le word.toNat_lt (Nat.pow_le_pow_right (by decide) (by omega))
  apply UInt64.toNat_inj.mp
  rw [UInt64.toNat_shiftRight, UInt64.toNat_shiftRight, ← Nat.shiftRight_add,
    Nat.mod_eq_of_lt hhigh, Nat.shiftRight_eq_zero _ _ hword]
  rfl

/-- In two rounds of a xor-shift the word shifted once cancels. -/
theorem xorShift_xorShift (shift word : UInt64) :
    xorShift shift (xorShift shift word) = word ^^^ (word >>> shift >>> shift) :=
  calc xorShift shift (xorShift shift word)
    _ = word ^^^ (word >>> shift) ^^^ ((word >>> shift) ^^^ (word >>> shift >>> shift)) := by
        rw [xorShift, xorShift, UInt64.shiftRight_xor]
    _ = word ^^^ (word >>> shift >>> shift) := by
        rw [UInt64.xor_assoc, ← UInt64.xor_assoc (word >>> shift), UInt64.xor_self,
          UInt64.zero_xor]

/-- Two rounds of a xor-shift are one round of twice the shift. -/
theorem xorShift_xorShift_of_lt (shift word : UInt64) (h : shift.toNat < 32) :
    xorShift shift (xorShift shift word) = xorShift (shift + shift) word := by
  rw [xorShift_xorShift, shiftRight_shiftRight word shift h]
  rfl

/-- A xor-shift by half of the word or more is its own inverse. -/
theorem xorShift_xorShift_of_le (shift word : UInt64) (hlow : 32 ≤ shift.toNat)
    (hhigh : shift.toNat < 64) : xorShift shift (xorShift shift word) = word := by
  rw [xorShift_xorShift, shiftRight_shiftRight_eq_zero word shift hlow hhigh, UInt64.xor_zero]

/-- Three more rounds of a xor-shift. They undo a round of a shift between `16` and `31`. -/
def undoXorShift (shift word : UInt64) : UInt64 :=
  xorShift shift (xorShift shift (xorShift shift word))

theorem undoXorShift_xorShift (shift word : UInt64) (hlow : 16 ≤ shift.toNat)
    (hhigh : shift.toNat < 32) : undoXorShift shift (xorShift shift word) = word := by
  have hdouble := toNat_add_self shift hhigh
  calc undoXorShift shift (xorShift shift word)
    _ = xorShift (shift + shift) (xorShift (shift + shift) word) := by
        rw [undoXorShift, xorShift_xorShift_of_lt _ _ hhigh, xorShift_xorShift_of_lt _ _ hhigh]
    _ = word := xorShift_xorShift_of_le _ _ (by omega) (by omega)

theorem xorShift_undoXorShift (shift word : UInt64) (hlow : 16 ≤ shift.toNat)
    (hhigh : shift.toNat < 32) : xorShift shift (undoXorShift shift word) = word :=
  -- In either order these are four rounds.
  undoXorShift_xorShift shift word hlow hhigh

/-! ## Factors with an inverse -/

theorem mul_mul_eq_self {factor inverse : UInt64} (h : factor * inverse = 1) (word : UInt64) :
    word * factor * inverse = word := by
  rw [UInt64.mul_assoc, h, UInt64.mul_one]

theorem mul_inj_of_inverse {factor inverse : UInt64} (h : factor * inverse = 1)
    (word word' : UInt64) : word * factor = word' * factor ↔ word = word' := by
  constructor
  · intro heq
    rw [← mul_mul_eq_self h word, heq, mul_mul_eq_self h]
  · rintro rfl
    rfl

/-! ## Mixing -/

def unmix (word : UInt64) : UInt64 :=
  let second := undoXorShift 31 word * 0x319642B2D24D8EC3
  let first := undoXorShift 27 second * 0x96DE1B173F119089
  undoXorShift 30 first - goldenGamma

theorem unmix_mix (word : UInt64) : unmix (mix word) = word := by
  simp only [unmix, mix]
  rw [undoXorShift_xorShift 31 _ (by decide) (by decide), mul_mul_eq_self (by decide),
    undoXorShift_xorShift 27 _ (by decide) (by decide), mul_mul_eq_self (by decide),
    undoXorShift_xorShift 30 _ (by decide) (by decide), UInt64.add_sub_cancel]

theorem mix_unmix (word : UInt64) : mix (unmix word) = word := by
  simp only [unmix, mix]
  rw [UInt64.sub_add_cancel, xorShift_undoXorShift 30 _ (by decide) (by decide),
    mul_mul_eq_self (by decide), xorShift_undoXorShift 27 _ (by decide) (by decide),
    mul_mul_eq_self (by decide), xorShift_undoXorShift 31 _ (by decide) (by decide)]

theorem mix_eq_iff (word mixed : UInt64) : mix word = mixed ↔ word = unmix mixed := by
  constructor
  · rintro rfl
    exact (unmix_mix word).symm
  · rintro rfl
    exact mix_unmix mixed

example : mix 0 = 0xE220A8397B1DCDAF ∧ unmix 0xE220A8397B1DCDAF = 0 := by decide

theorem mix_bijective : Function.Bijective mix :=
  Function.bijective_iff_has_inverse.mpr ⟨unmix, unmix_mix, mix_unmix⟩

theorem mix_inj (word word' : UInt64) : mix word = mix word' ↔ word = word' :=
  mix_bijective.injective.eq_iff

/-! ## The family -/

theorem xor_eq_iff (word mask masked : UInt64) :
    word ^^^ mask = masked ↔ word = masked ^^^ mask := by
  constructor
  · rintro rfl
    rw [UInt64.xor_assoc, UInt64.xor_self, UInt64.xor_zero]
  · rintro rfl
    rw [UInt64.xor_assoc, UInt64.xor_self, UInt64.xor_zero]

namespace HashFamily

theorem splitMix_hash_eq_iff_key (key : Key) (salt : Salt) (word : UInt64) :
    splitMix.hash key salt = word ↔ key = unmix word ^^^ mix (salt ^^^ 0xD6E8FD9BD6E8FD9B) := by
  rw [splitMix, mix_eq_iff, xor_eq_iff]

theorem splitMix_hash_eq_iff_salt (key : Key) (salt : Salt) (word : UInt64) :
    splitMix.hash key salt = word ↔ salt = unmix (unmix word ^^^ key) ^^^ 0xD6E8FD9BD6E8FD9B := by
  rw [splitMix, mix_eq_iff, UInt64.xor_comm key, xor_eq_iff, mix_eq_iff, xor_eq_iff]

theorem splitMix_key_bijective (salt : Salt) :
    Function.Bijective fun key => splitMix.hash key salt := by
  rw [Function.bijective_iff_existsUnique]
  intro word
  simp only [splitMix_hash_eq_iff_key]
  exact existsUnique_eq

theorem splitMix_salt_bijective (key : Key) :
    Function.Bijective fun salt => splitMix.hash key salt := by
  rw [Function.bijective_iff_existsUnique]
  intro word
  simp only [splitMix_hash_eq_iff_salt]
  exact existsUnique_eq

/-- Mixing is a permutation of the words. So is the hash of the family, as a function of the key
under every salt and as a function of the salt for every key: neither two keys under one salt nor
two salts of one key have the same hash. -/
theorem splitMix_bijective :
    Function.Bijective mix ∧
    (∀ salt, Function.Bijective fun key => splitMix.hash key salt) ∧
    (∀ key, Function.Bijective fun salt => splitMix.hash key salt) ∧
    (∀ key key' salt, splitMix.hash key salt = splitMix.hash key' salt ↔ key = key') ∧
    (∀ key salt salt', splitMix.hash key salt = splitMix.hash key salt' ↔ salt = salt') := by
  refine ⟨mix_bijective, splitMix_key_bijective, splitMix_salt_bijective, ?_, ?_⟩
  · intro key key' salt
    exact (splitMix_key_bijective salt).injective.eq_iff
  · intro key salt salt'
    exact (splitMix_salt_bijective key).injective.eq_iff

end HashFamily

end PerfectHash
