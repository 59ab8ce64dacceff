import PerfectHash.Hash.Mix
import PerfectHash.Word.LittleEndian

set_option autoImplicit false

/-! # Hashing a stream of bytes

A stream hash is one word of state. Whole words of the input are absorbed one at a time; the
bytes behind the last whole word are absorbed singly, each spread over the word by an odd
factor. A word absorbed directly and its eight bytes leave the same state.
-/

namespace PerfectHash

/-- The state of a stream hash, which is also its result so far. -/
structure StreamHash where
  state : UInt64 := 0
deriving DecidableEq, Repr

namespace StreamHash

def absorbWord (s : StreamHash) (word : UInt64) : StreamHash := ⟨mix (s.state ^^^ word)⟩

/-- Absorbs one byte that belongs to no whole word. -/
def absorbByte (s : StreamHash) (byte : UInt8) : StreamHash :=
  s.absorbWord (byte.toUInt64 * goldenGamma)

/-- Absorbs a byte string: its leading whole words, then the bytes left over. -/
def absorb (s : StreamHash) (bytes : List UInt8) : StreamHash :=
  let (words, rest) := LittleEndian.splitWords bytes
  rest.foldl absorbByte (words.foldl absorbWord s)

end StreamHash

end PerfectHash
