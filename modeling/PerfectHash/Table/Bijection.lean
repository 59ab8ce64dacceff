import PerfectHash.SlotSet.Basic
import PerfectHash.Table.Basic

set_option autoImplicit false

/-! # Checking that a table is a bijection

`Table.checkBijective` looks every key up and accepts the table when the slots of the keys are
all the slots, each once. It keeps the set of the slots seen so far and, for every slot, the key
that has it, so that a collision can be reported with both keys. As there are as many keys as
slots, it is enough that no slot is missing, out of range or seen twice.
-/

namespace PerfectHash.Table

variable {H : HashFamily}

/-- Checks the keys one after the other; `seen` holds the slots of the keys before them and
`owner` the keys that have these slots. -/
def checkFrom (t : Table H) : List Key → SlotSet → Array Key → Outcome Unit
  | [], _, _ => .ok ()
  | key :: keys, seen, owner => do
      match ← t.lookup key with
      | none => .error (.notBijective key 0 .missing)
      | some slot =>
          if t.size ≤ slot then
            .error (.notBijective key slot .outOfRange)
          else if ← seen.isUsed slot then
            .error (.notBijective key slot (.collision (← fetch owner slot)))
          else
            let seen ← seen.mark slot
            let owner ← store owner slot key
            t.checkFrom keys seen owner

def checkBijective (t : Table H) (keys : List Key) : Outcome Unit :=
  if t.size = keys.length then t.checkFrom keys (.free t.size) (Array.replicate t.size 0)
  else .error (.sizeMismatch t.size keys.length)

end PerfectHash.Table
