import PerfectHash.Table.Basic
import PerfectHash.Word.LittleEndian

set_option autoImplicit false

/-! # The byte form of a table

A table is written as the number of its entries on eight bytes and then the entries. An entry
is its tag on four bytes, `0`, `1` or `2`, and for the tags `1` and `2` the slot or the salt on
eight bytes. All numbers are little-endian.

Reading takes the entries off the front of a byte string, stops at the first thing that is not
there or not known, and ignores what stands behind the last entry. Only then is the table
validated.
-/

namespace PerfectHash

namespace Entry

def toBytes : Entry → List UInt8
  | .unset => LittleEndian.toBytes 4 0
  | .direct slot => LittleEndian.toBytes 4 1 ++ LittleEndian.toBytes 8 slot
  | .displacement salt => LittleEndian.toBytes 4 2 ++ LittleEndian.wordBytes salt

end Entry

/-- The number on the first `width` bytes and the bytes behind it. -/
def readField (width : Nat) (bytes : List UInt8) : Outcome (Nat × List UInt8) :=
  match LittleEndian.readNumber width bytes with
  | some field => .ok field
  | none => .error .unexpectedEnd

namespace Entry

def read (bytes : List UInt8) : Outcome (Entry × List UInt8) := do
  let (tag, bytes) ← readField 4 bytes
  match tag with
  | 0 => return (.unset, bytes)
  | 1 =>
      let (slot, bytes) ← readField 8 bytes
      return (.direct slot, bytes)
  | 2 =>
      let (salt, bytes) ← readField 8 bytes
      return (.displacement (.ofNat salt), bytes)
  | tag => .error (.unknownTag tag)

end Entry

namespace Table

variable {H : HashFamily}

def toBytes (t : Table H) : List UInt8 :=
  LittleEndian.toBytes 8 t.size ++ t.entries.toList.flatMap Entry.toBytes

/-- Reads `count` entries off the front of a byte string, behind the entries read so far. -/
def readEntries : Nat → List UInt8 → Array Entry → Outcome (Array Entry)
  | 0, _, entries => .ok entries
  | count + 1, bytes, entries => do
      let (entry, bytes) ← Entry.read bytes
      readEntries count bytes (entries.push entry)

/-- The valid table whose byte form is at the front of the byte string. -/
def ofBytes (H : HashFamily) (bytes : List UInt8) : Outcome (Table H) := do
  let (count, bytes) ← readField 8 bytes
  let entries ← readEntries count bytes #[]
  validate ⟨entries⟩

end Table

end PerfectHash
