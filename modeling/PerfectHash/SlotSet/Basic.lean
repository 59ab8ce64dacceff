import PerfectHash.Cell
import PerfectHash.Word.Bits

set_option autoImplicit false

/-! # Sets of slots

A `SlotSet` records which of the slots `0, …, len - 1` are used. The slots are the bits of an
array of words: slot `s` is bit `s % 64` of word `s / 64`. The last word may have bits behind
`len`. They can be marked and asked for like any other bit, but they are never handed out.

Slots are handed out from below. All words before `cursor` are full, and as slots are never
given back, the cursor only moves forward.

`s ∈ set` says that slot `s` is marked; this is the view through which the operations are
described.
-/

namespace PerfectHash

/-- A set of slots below `len`, packed into words. -/
structure SlotSet where
  /-- The bits of the slots, 64 to a word. -/
  words : Array UInt64
  /-- The number of slots that can be handed out. -/
  len : Nat
  used : Nat
  /-- The words before this one are full. -/
  cursor : Nat
deriving DecidableEq, Repr

namespace SlotSet

def free (len : Nat) : SlotSet where
  words := Array.replicate ((len + 63) / 64) 0
  len := len
  used := 0
  cursor := 0

/-- Slot `slot` has a bit in the set. -/
def Accessible (set : SlotSet) (slot : Nat) : Prop := slot / 64 < set.words.size

instance (set : SlotSet) (slot : Nat) : Decidable (set.Accessible slot) :=
  inferInstanceAs (Decidable (_ < _))

def Marked (set : SlotSet) (slot : Nat) : Prop :=
  ∃ word, set.words[slot / 64]? = some word ∧ Bits.isSet word (slot % 64) = true

instance : Membership Nat SlotSet := ⟨Marked⟩

def isUsed (set : SlotSet) (slot : Nat) : Outcome Bool := do
  let word ← fetch set.words (slot / 64)
  return Bits.isSet word (slot % 64)

def outside (set : SlotSet) (slot : Nat) : Failure :=
  .fault (.outOfBounds (slot / 64) set.words.size)

/-- The set with an accessible slot marked. -/
def add : SlotSet → Nat → SlotSet
  | { words, len, used, cursor }, slot =>
      { words := words.modify (slot / 64) (Bits.set · (slot % 64)), len, used := used + 1, cursor }

/-- Marks a free slot as used. It is inlined so that a caller that keeps the set for the case of a
failure does not make the successful case copy it. -/
@[inline]
def mark (set : SlotSet) (slot : Nat) : Outcome SlotSet :=
  if set.Accessible slot then .ok (set.add slot) else .error (set.outside slot)

/-- Whether no slot of the list is used. Slots behind the first used one are not looked at. -/
def allFree (set : SlotSet) : List Nat → Outcome Bool
  | [] => .ok true
  | slot :: slots => do
      if ← set.isUsed slot then
        return false
      set.allFree slots

/-- The first word at or behind `cursor` that is not full, and its lowest clear bit. -/
def nextClear (words : Array UInt64) (cursor : Nat) : Nat × Option Nat :=
  if h : cursor < words.size then
    match Bits.lowestClear? words[cursor] with
    | some bit => (cursor, some bit)
    | none => nextClear words (cursor + 1)
  else (cursor, none)
termination_by words.size - cursor

/-- Hands out the lowest free slot, which is then used. -/
def take : SlotSet → Option Nat × SlotSet
  | { words, len, used, cursor } =>
      match nextClear words cursor with
      | (cursor, none) => (none, { words, len, used, cursor })
      | (cursor, some bit) =>
          let slot := cursor * 64 + bit
          if slot < len then (some slot, add { words, len, used, cursor } slot)
          else (none, { words, len, used, cursor })

def markAll (set : SlotSet) (slots : List Nat) : Outcome SlotSet := slots.foldlM mark set

/-! ## The operations through the view -/

theorem mem_def (set : SlotSet) (slot : Nat) :
    slot ∈ set ↔
      ∃ word, set.words[slot / 64]? = some word ∧ Bits.isSet word (slot % 64) = true :=
  Iff.rfl

theorem not_mem_free (len slot : Nat) : slot ∉ free len := by
  rintro ⟨word, hword, hset⟩
  simp only [free, Array.getElem?_replicate] at hword
  split at hword
  · cases hword
    rw [Bits.isSet_eq_testBit _ _ (Nat.mod_lt _ (by decide))] at hset
    simp at hset
  · cases hword

theorem isUsed_eq_ok_iff (set : SlotSet) (slot : Nat) (answer : Bool) :
    set.isUsed slot = .ok answer ↔ set.Accessible slot ∧ (answer = true ↔ slot ∈ set) := by
  by_cases h : slot / 64 < set.words.size
  · have hread : fetch set.words (slot / 64) = .ok set.words[slot / 64] := fetch_of_lt _ _ h
    have hmem : slot ∈ set ↔ Bits.isSet set.words[slot / 64] (slot % 64) = true := by
      simp [mem_def, h]
    simp only [isUsed, hread, Accessible, h, hmem, true_and]
    show Except.ok _ = Except.ok _ ↔ _
    rw [Except.ok.injEq, Bool.eq_iff_iff]
    exact ⟨fun e => e.symm, fun e => e.symm⟩
  · simp [isUsed, fetch, Accessible, h, bind, Except.bind]

theorem mark_of_accessible (set : SlotSet) (slot : Nat) (h : set.Accessible slot) :
    set.mark slot = .ok (set.add slot) := if_pos h

theorem mark_of_not_accessible (set : SlotSet) (slot : Nat) (h : ¬ set.Accessible slot) :
    set.mark slot = .error (set.outside slot) := if_neg h

/-- Marking an accessible slot adds that slot and nothing else. -/
theorem mem_add (set : SlotSet) (slot other : Nat) (h : set.Accessible slot) :
    other ∈ set.add slot ↔ other = slot ∨ other ∈ set := by
  obtain ⟨words, len, used, cursor⟩ := set
  have hs : slot / 64 < words.size := h
  simp only [mem_def, add, Array.getElem?_modify]
  by_cases hw : other / 64 = slot / 64
  · have hbit := Bits.isSet_set words[slot / 64] (slot % 64) (other % 64)
      (Nat.mod_lt _ (by decide)) (Nat.mod_lt _ (by decide))
    have heq : other % 64 = slot % 64 ↔ other = slot := by omega
    simp [hw, hs, hbit, heq]
  · have hne : other ≠ slot := fun e => hw (by rw [e])
    simp [Ne.symm hw, hne]

end SlotSet

end PerfectHash
