import PerfectHash.Salt.Stamps
import PerfectHash.Salt.Window

set_option autoImplicit false

/-! # Finding a salt

A `SaltFinder` looks, for one list of keys after another, for the least salt that fits. With a
width of at most one the salts are tried one after the other and the stamps of earlier attempts
are carried along; with a larger width they are tried in windows. Both ways find the same salt.
-/

namespace PerfectHash

/-- A finder of salts that fit among `n` slots. -/
structure SaltFinder where
  n : Nat
  /-- The greatest salt that is tried. -/
  bound : Salt
  /-- The number of salts that are tried together. -/
  width : UInt64
  stamps : Stamps
deriving DecidableEq, Repr

namespace SaltFinder

def start (n : Nat) (bound : Salt) (width : UInt64) : SaltFinder :=
  { n, bound, width, stamps := .blank n }

/-- The least salt up to the bound that fits the keys, with their slots. The slots are part of the
answer and not of the finder: a search that finds no salt leaves none behind. -/
def find (H : HashFamily) (used : SlotSet) (keys : List Key) :
    SaltFinder → Outcome (Option Fit × SaltFinder)
  | { n, bound, width, stamps } => do
      if 1 < width then
        match ← Window.search (Window.fits H n used keys) width bound 1 with
        | some salt =>
            let slots ← keys.mapM (H.slotOf n salt)
            return (some ⟨salt, slots⟩, { n, bound, width, stamps })
        | none => return (none, { n, bound, width, stamps })
      else
        let (fit, stamps) ← Stamps.scan H n used keys bound.toNat 1 stamps
        return (fit, { n, bound, width, stamps })

end SaltFinder

end PerfectHash
