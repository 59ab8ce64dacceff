set_option autoImplicit false

/-! # Keys and salts

Keys and salts are 64-bit words. A key is reported as `0x` followed by all sixteen hexadecimal
digits of the word, in lower case and with leading zeros, so that every key is written with
the same width.
-/

namespace PerfectHash

/-- A key is a 64-bit word, for instance an address. -/
abbrev Key := UInt64

/-- A salt selects one member of a hash family. Salt `0` picks the home bucket of a key. -/
abbrev Salt := UInt64

/-- The last `width` hexadecimal digits of `value`, most significant first. -/
def hexDigits : Nat → Nat → List Char
  | 0, _ => []
  | width + 1, value => hexDigits width (value / 16) ++ [Nat.digitChar (value % 16)]

def Key.render (key : Key) : String := "0x" ++ String.ofList (hexDigits 16 key.toNat)

end PerfectHash
