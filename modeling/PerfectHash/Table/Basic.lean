import PerfectHash.Hash.Family
import PerfectHash.Table.Entry

set_option autoImplicit false

/-! # Tables

A table over a hash family sends every key to at most one slot: the entry of the home bucket
decides. A table that was built for `n` keys has `n` entries and sends these keys one-to-one
onto the slots `0, …, n - 1`. A key outside the build set still gets a slot, unless its home
bucket is empty.

A table read from outside is accepted only if it is `Valid`; otherwise the failure names the
first entry that cannot occur.
-/

namespace PerfectHash

/-- One entry for every home bucket under the family `H`. -/
structure Table (H : HashFamily) where
  entries : Array Entry
deriving DecidableEq, Repr

namespace Table

variable {H : HashFamily}

def size (t : Table H) : Nat := t.entries.size

/-- The slot that an entry gives to a key among `n` slots. -/
def resolve (H : HashFamily) (n : Nat) (key : Key) : Entry → Outcome (Option Nat)
  | .unset => .ok none
  | .direct slot => .ok (some slot)
  | .displacement salt => (H.slotOf n salt key).map some

/-- The slot of a key, or `none` when its home bucket is empty. -/
def lookup (t : Table H) (key : Key) : Outcome (Option Nat) := do
  let home ← H.homeOf t.size key
  let entry ← fetch t.entries home
  resolve H t.size key entry

/-- The table has entries, and each of them can occur in it. -/
def Valid (t : Table H) : Prop := t.entries ≠ #[] ∧ ∀ entry ∈ t.entries, entry.Valid t.size

/-- The first entry that cannot occur among `n` entries, with its index. -/
def firstCorrupt (n : Nat) (entries : List Entry) : Option (Entry × Nat) :=
  entries.zipIdx.find? fun (entry, _) => ¬ entry.Valid n

def validate (t : Table H) : Outcome (Table H) :=
  if t.entries.isEmpty then .error .emptyKeySet
  else
    match firstCorrupt t.size t.entries.toList with
    | some (entry, index) => .error (.corruptEntry index entry.toRaw)
    | none => .ok t

/-! ## Lookups without failures -/

/-- The slot that an entry gives to a key among `n > 0` slots. -/
def slotIn (H : HashFamily) (n : Nat) (key : Key) : Entry → Option Nat
  | .unset => none
  | .direct slot => some slot
  | .displacement salt => some (H.slot n salt key)

theorem resolve_of_pos (n : Nat) (key : Key) (entry : Entry) (h : 0 < n) :
    resolve H n key entry = .ok (slotIn H n key entry) := by
  cases entry with
  | unset => rfl
  | direct slot => rfl
  | displacement salt =>
      rw [resolve, H.slotOf_of_pos n salt key h]
      rfl

theorem lookup_eq_resolve (t : Table H) (key : Key) (entry : Entry)
    (h : t.entries[H.home t.size key]? = some entry) :
    t.lookup key = resolve H t.size key entry := by
  rcases Array.getElem?_eq_some_iff.mp h with ⟨hlt, -⟩
  have hpos : 0 < t.size := Nat.zero_lt_of_lt hlt
  simp only [lookup, bind, Except.bind]
  rw [H.homeOf_of_pos t.size key hpos]
  simp only
  rw [(fetch_eq_ok_iff _ _ _).mpr h]

theorem exists_entry_home (t : Table H) (key : Key) (hpos : 0 < t.size) :
    ∃ entry, t.entries[H.home t.size key]? = some entry :=
  ⟨_, Array.getElem?_eq_getElem (H.home_lt t.size key hpos)⟩

/-- A lookup is decided by the entry of the home bucket. -/
theorem lookup_eq_slotIn (t : Table H) (key : Key) (entry : Entry)
    (h : t.entries[H.home t.size key]? = some entry) :
    t.lookup key = .ok (slotIn H t.size key entry) := by
  rcases Array.getElem?_eq_some_iff.mp h with ⟨hlt, -⟩
  rw [t.lookup_eq_resolve key entry h, resolve_of_pos t.size key entry (Nat.zero_lt_of_lt hlt)]

theorem exists_lookup_eq (t : Table H) (key : Key) (hpos : 0 < t.size) :
    ∃ found, t.lookup key = .ok found := by
  obtain ⟨entry, hentry⟩ := t.exists_entry_home key hpos
  exact ⟨_, t.lookup_eq_slotIn key entry hentry⟩

end Table

end PerfectHash
