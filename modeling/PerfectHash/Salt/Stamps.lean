import PerfectHash.Salt.Fit
import PerfectHash.SlotSet.Basic

set_option autoImplicit false

/-! # One attempt, with stamps

To find out whether a salt sends two keys to one slot, every slot reached is stamped with the
number of the attempt. A slot that already bears the number of the current attempt has been
reached twice. Older stamps are simply ignored, so that nothing is cleared between attempts.

The numbers are 32-bit words. When they are used up, all stamps are erased and the numbers
start again from `1`, so a stamp never survives long enough to be mistaken for a new one.
-/

namespace PerfectHash

/-- A stamp for every slot and the number of the current attempt. -/
structure Stamps where
  /-- The number of the attempt that last reached the slot, and `0` for none. -/
  marks : Array UInt32
  epoch : UInt32
deriving DecidableEq, Repr

namespace Stamps

def blank (n : Nat) : Stamps := ⟨Array.replicate n 0, 0⟩

/-- The stamps at the beginning of the next attempt. -/
def next : Stamps → Stamps
  | { marks, epoch } =>
      if epoch + 1 = 0 then { marks := Array.replicate marks.size 0, epoch := 1 }
      else { marks, epoch := epoch + 1 }

/-- Stamps the slots of the keys in their order and collects them, until one is reached for
the second time. -/
def spread (H : HashFamily) (n : Nat) (salt : Salt) :
    List Key → Stamps → Array Nat → Outcome (Option (List Nat) × Stamps)
  | [], stamps, slots => .ok (some slots.toList, stamps)
  | key :: keys, { marks, epoch }, slots => do
      let slot ← H.slotOf n salt key
      let last ← fetch marks slot
      if last = epoch then
        return (none, { marks, epoch })
      let marks ← store marks slot epoch
      spread H n salt keys { marks, epoch } (slots.push slot)

/-- The slots of the keys under the salt, if they are pairwise distinct and free. -/
def attempt (H : HashFamily) (n : Nat) (used : SlotSet) (keys : List Key) (salt : Salt)
    (stamps : Stamps) : Outcome (Option (List Nat) × Stamps) := do
  let (reached, stamps) ← spread H n salt keys stamps.next #[]
  match reached with
  | none => return (none, stamps)
  | some slots =>
      if ← used.allFree slots then
        return (some slots, stamps)
      return (none, stamps)

/-- Attempts `remaining` consecutive salts, from `salt` on, until one fits. -/
def scan (H : HashFamily) (n : Nat) (used : SlotSet) (keys : List Key) :
    Nat → Nat → Stamps → Outcome (Option Fit × Stamps)
  | 0, _, stamps => .ok (none, stamps)
  | remaining + 1, salt, stamps => do
      let (slots, stamps) ← attempt H n used keys (.ofNat salt) stamps
      match slots with
      | some slots => return (some ⟨.ofNat salt, slots⟩, stamps)
      | none => scan H n used keys remaining (salt + 1) stamps

end Stamps

end PerfectHash
