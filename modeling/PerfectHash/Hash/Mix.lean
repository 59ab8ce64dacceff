set_option autoImplicit false

/-! # Mixing a word

`mix` is the output function of the SplitMix generator: an odd increment, then two rounds of a
xor-shift and a multiplication by an odd constant, then a last xor-shift. Each of these steps
is invertible on 64-bit words, so `mix` is a permutation of the words. All arithmetic wraps.
-/

namespace PerfectHash

/-- Adds to a word its own high bits, `shift` places down, without carries. -/
def xorShift (shift : UInt64) (word : UInt64) : UInt64 := word ^^^ (word >>> shift)

/-- The golden ratio of the 64-bit words: the odd number nearest `2 ^ 64` over the golden
ratio. -/
def goldenGamma : UInt64 := 0x9E3779B97F4A7C15

/-- A permutation of the words in which every input bit affects every output bit. -/
def mix (word : UInt64) : UInt64 :=
  let first := xorShift 30 (word + goldenGamma) * 0xBF58476D1CE4E5B9
  let second := xorShift 27 first * 0x94D049BB133111EB
  xorShift 31 second

end PerfectHash
