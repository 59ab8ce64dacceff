import PerfectHash.Hash.Family
import PerfectHash.Hash.Mix
import PerfectHash.Word.Product

set_option autoImplicit false

/-! # The hash families of the library

`wyhash` is the family used unless another one is asked for. It folds 128-bit products: a
product of two words is reduced to one word by adding its halves without carries. `splitMix`
applies `mix` twice, once to the salt and once to the key.

The families in `HashFamily.Arithmetic` are far from random. They make collisions easy to
arrange, which is what they are for: every branch of the construction can be reached with
them on a handful of small keys.
-/

namespace PerfectHash

/-- The two words of the 128-bit product of `a` and `b`, added without carries. -/
def foldedProduct (a b : UInt64) : UInt64 := highProduct a b ^^^ (a * b)

namespace HashFamily

/-- The multiply-and-fold hash of the eight bytes of the key, seeded with the salt. The last
factor carries the number of bytes. -/
def wyhash : HashFamily where
  hash key salt :=
    let seeded := salt ^^^ 0xA0761D6478BD642F
    let body := foldedProduct seeded (swapHalves key ^^^ 0xE7037ED1A0B428DB)
    foldedProduct body (8 ^^^ 0xEB44ACCAB455D165)

def splitMix : HashFamily where
  hash key salt := mix (key ^^^ mix (salt ^^^ 0xD6E8FD9BD6E8FD9B))

namespace Arithmetic

/-- The key plus the salt times half of the key. -/
def halving : HashFamily where
  hash key salt := key + salt * (key / 2)

def shifted : HashFamily where
  hash key salt := key + salt

def unsalted : HashFamily where
  hash key _ := key

def constant : HashFamily where
  hash _ _ := 0

def exclusive : HashFamily where
  hash key salt := key ^^^ salt

def product : HashFamily where
  hash key salt := key * salt

def late : HashFamily where
  hash key salt := if salt < 50 then 0 else key

end Arithmetic

end HashFamily

end PerfectHash
