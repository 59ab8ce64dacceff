set_option autoImplicit false

/-! # Little-endian byte strings

A number is written on a fixed number of bytes, least significant byte first, and a number too
large for its width keeps its low bytes only. `toBytes` writes, `ofBytes` reads all bytes it is
given, and `readNumber` reads a number of known width off the front of a longer string.

`splitWords` cuts a byte string into its leading whole 64-bit words and the fewer than eight
bytes left over.
-/

namespace PerfectHash.LittleEndian

/-- The low `width` bytes of `value`, least significant first. -/
def toBytes : Nat → Nat → List UInt8
  | 0, _ => []
  | width + 1, value => UInt8.ofNat value :: toBytes width (value / 256)

def ofBytes : List UInt8 → Nat
  | [] => 0
  | b :: rest => b.toNat + 256 * ofBytes rest

/-- The number on the first `width` bytes and the bytes behind it, if there are that many. -/
def readNumber : Nat → List UInt8 → Option (Nat × List UInt8)
  | 0, bytes => some (0, bytes)
  | _ + 1, [] => none
  | width + 1, b :: bytes =>
      (readNumber width bytes).map fun (value, rest) => (b.toNat + 256 * value, rest)

def wordBytes (word : UInt64) : List UInt8 := toBytes 8 word.toNat

/-- The words written by consecutive groups of eight bytes, added to `words`, and the bytes
behind the last whole group. -/
def splitWordsFrom (words : Array UInt64) : List UInt8 → Array UInt64 × List UInt8
  | b₀ :: b₁ :: b₂ :: b₃ :: b₄ :: b₅ :: b₆ :: b₇ :: rest =>
      splitWordsFrom (words.push (.ofNat (ofBytes [b₀, b₁, b₂, b₃, b₄, b₅, b₆, b₇]))) rest
  | rest => (words, rest)

def splitWords (bytes : List UInt8) : List UInt64 × List UInt8 :=
  let (words, rest) := splitWordsFrom #[] bytes
  (words.toList, rest)

end PerfectHash.LittleEndian
