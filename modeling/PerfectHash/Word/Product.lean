set_option autoImplicit false

/-! # Products of words

The product of two 64-bit words has 128 bits. Its low word is the wrapping product. Its high word
is computed by multiplying halves of 32 bits, of which every product fits into a word.
-/

namespace PerfectHash

def lowHalf (word : UInt64) : UInt64 := word &&& 0xFFFFFFFF

def highHalf (word : UInt64) : UInt64 := word >>> 32

def swapHalves (word : UInt64) : UInt64 := highHalf word ||| (word <<< 32)

/-- The high word of the 128-bit product of `a` and `b`. -/
def highProduct (a b : UInt64) : UInt64 :=
  let low := lowHalf a * lowHalf b
  let left := highHalf a * lowHalf b
  let right := lowHalf a * highHalf b
  let middle := highHalf low + lowHalf left + lowHalf right
  highHalf a * highHalf b + highHalf left + highHalf right + highHalf middle

end PerfectHash
