import PerfectHash.Hash.Families
import PerfectHash.Proofs.Cell
import PerfectHash.Proofs.Table.Valid
import PerfectHash.Proofs.Word.LittleEndian
import PerfectHash.Table.Bytes

set_option autoImplicit false

/-! # The byte form determines the table

A valid table is accepted from exactly those byte strings that begin with its byte form
(`toBytes_canonical`). So bytes behind the table do not matter, no byte form begins with another
one, and there is no second spelling of a table: what has been read is what would be written.

`Entry.readMany` and `Table.read` read without validating and return the bytes that they left.
Every part of the format is one statement about such a reader: it succeeds with a value and a
rest exactly on the byte form of the value followed by this rest. For a slot this holds below
`2 ^ 64` only (`Entry.Writable`), and the validation refuses larger ones.
-/

namespace PerfectHash

/-! ## Entries -/

theorem readField_eq_ok_iff (width value : Nat) (bytes rest : List UInt8) :
    readField width bytes = .ok (value, rest) ↔
      value < 256 ^ width ∧ bytes = LittleEndian.toBytes width value ++ rest := by
  rw [← LittleEndian.readNumber_eq_some_iff, readField]
  cases LittleEndian.readNumber width bytes with
  | none => simp
  | some field => simp

namespace Entry

/-- The byte form of the entry keeps all of it. -/
def Writable : Entry → Prop
  | .direct slot => slot < 2 ^ 64
  | _ => True

theorem Valid.writable {n : Nat} {entry : Entry} (h : entry.Valid n) (hn : n ≤ 2 ^ 64) :
    entry.Writable := by
  cases entry with
  | unset => trivial
  | direct slot => exact Nat.lt_of_lt_of_le h hn
  | displacement salt => trivial

/-- A writable entry is read off the front of a byte string. -/
theorem read_append (entry : Entry) (h : entry.Writable) (rest : List UInt8) :
    read (entry.toBytes ++ rest) = .ok (entry, rest) := by
  unfold read
  rw [bind_eq_ok_iff]
  cases entry with
  | unset =>
      have htag := (readField_eq_ok_iff 4 0 _ rest).mpr ⟨by decide, rfl⟩
      exact ⟨_, htag, rfl⟩
  | direct slot =>
      rw [toBytes, List.append_assoc]
      have htag := (readField_eq_ok_iff 4 1 _ (LittleEndian.toBytes 8 slot ++ rest)).mpr
        ⟨by decide, rfl⟩
      have hslot := (readField_eq_ok_iff 8 slot _ rest).mpr ⟨h, rfl⟩
      exact ⟨_, htag, bind_eq_ok_iff.mpr ⟨_, hslot, rfl⟩⟩
  | displacement salt =>
      rw [toBytes, LittleEndian.wordBytes, List.append_assoc]
      have htag := (readField_eq_ok_iff 4 2 _ (LittleEndian.toBytes 8 salt.toNat ++ rest)).mpr
        ⟨by decide, rfl⟩
      have hsalt := (readField_eq_ok_iff 8 salt.toNat _ rest).mpr ⟨salt.toNat_lt, rfl⟩
      refine ⟨_, htag, bind_eq_ok_iff.mpr ⟨_, hsalt, ?_⟩⟩
      show Except.ok (displacement (.ofNat salt.toNat), rest) = _
      rw [UInt64.ofNat_toNat]

/-- What is read as an entry is its byte form. -/
theorem eq_append_of_read (bytes rest : List UInt8) (entry : Entry)
    (h : read bytes = .ok (entry, rest)) :
    entry.Writable ∧ bytes = entry.toBytes ++ rest := by
  unfold read at h
  obtain ⟨⟨tag, payload⟩, htag, hentry⟩ := bind_eq_ok_iff.mp h
  obtain ⟨-, hbytes⟩ := (readField_eq_ok_iff 4 tag bytes payload).mp htag
  dsimp only at hentry
  split at hentry
  -- The tags `0`, `1` and `2`, and all others.
  · cases hentry
    exact ⟨trivial, hbytes⟩
  · obtain ⟨⟨slot, behind⟩, hslot, hentry⟩ := bind_eq_ok_iff.mp hentry
    obtain ⟨hlt, hpayload⟩ := (readField_eq_ok_iff 8 slot payload behind).mp hslot
    cases hentry
    exact ⟨hlt, by rw [hbytes, hpayload, toBytes, List.append_assoc]⟩
  · obtain ⟨⟨number, behind⟩, hsalt, hentry⟩ := bind_eq_ok_iff.mp hentry
    obtain ⟨hlt, hpayload⟩ := (readField_eq_ok_iff 8 number payload behind).mp hsalt
    cases hentry
    refine ⟨trivial, ?_⟩
    rw [hbytes, hpayload, toBytes, LittleEndian.wordBytes, List.append_assoc,
      UInt64.toNat_ofNat_of_lt' hlt]
  · cases hentry

theorem read_eq_ok_iff (bytes rest : List UInt8) (entry : Entry) :
    read bytes = .ok (entry, rest) ↔ entry.Writable ∧ bytes = entry.toBytes ++ rest := by
  constructor
  · exact eq_append_of_read bytes rest entry
  · rintro ⟨hwritable, rfl⟩
    exact read_append entry hwritable rest

/-- The entries at the front of a byte string, `count` of them, and the bytes behind them. -/
def readMany : Nat → List UInt8 → Outcome (List Entry × List UInt8)
  | 0, bytes => .ok ([], bytes)
  | count + 1, bytes => do
      let (entry, bytes) ← read bytes
      let (entries, bytes) ← readMany count bytes
      return (entry :: entries, bytes)

theorem readMany_eq_ok_iff (count : Nat) (bytes rest : List UInt8) (entries : List Entry) :
    readMany count bytes = .ok (entries, rest) ↔
      entries.length = count ∧ (∀ entry ∈ entries, entry.Writable) ∧
        bytes = entries.flatMap toBytes ++ rest := by
  induction count generalizing bytes entries with
  | zero =>
      constructor
      · intro h
        cases h
        exact ⟨rfl, by simp, rfl⟩
      · rintro ⟨hlength, -, rfl⟩
        rw [List.length_eq_zero_iff.mp hlength]
        rfl
  | succ count ih =>
      rw [readMany, bind_eq_ok_iff]
      constructor
      · rintro ⟨⟨entry, behind⟩, hentry, h⟩
        obtain ⟨hwritable, rfl⟩ := (read_eq_ok_iff bytes behind entry).mp hentry
        obtain ⟨⟨others, rest'⟩, hothers, h⟩ := bind_eq_ok_iff.mp h
        cases h
        obtain ⟨hlength, hall, rfl⟩ := (ih behind others).mp hothers
        exact ⟨by rw [List.length_cons, hlength], List.forall_mem_cons.mpr ⟨hwritable, hall⟩,
          by rw [List.flatMap_cons, List.append_assoc]⟩
      · rintro ⟨hlength, hall, rfl⟩
        obtain ⟨entry, others, rfl⟩ := List.exists_cons_of_length_eq_add_one hlength
        obtain ⟨hwritable, hothers⟩ := List.forall_mem_cons.mp hall
        rw [List.flatMap_cons, List.append_assoc]
        have hmany := (ih _ others).mpr ⟨by simpa using hlength, hothers, rfl⟩
        exact ⟨_, read_append entry hwritable _, bind_eq_ok_iff.mpr ⟨_, hmany, rfl⟩⟩

theorem four_le_length_toBytes (entry : Entry) : 4 ≤ entry.toBytes.length := by
  cases entry <;> simp [toBytes, LittleEndian.wordBytes, LittleEndian.toBytes_length]

end Entry

/-! ## Tables -/

namespace Table

variable {H : HashFamily}

/-- Collecting the entries in an array comes to the same. -/
theorem readEntries_eq (count : Nat) (bytes : List UInt8) (entries : Array Entry) :
    readEntries count bytes entries =
      (do let (others, _) ← Entry.readMany count bytes; return entries ++ others) := by
  induction count generalizing bytes entries with
  | zero => simp [readEntries, Entry.readMany, bind, Except.bind, pure, Except.pure]
  | succ count ih =>
      rw [readEntries, Entry.readMany]
      cases Entry.read bytes with
      | error e => rfl
      | ok first =>
          rcases first with ⟨entry, behind⟩
          refine (ih behind _).trans ?_
          cases hmany : Entry.readMany count behind with
          | error e => simp [bind, Except.bind, hmany]
          | ok others => simp [bind, Except.bind, hmany, pure, Except.pure]

/-- The table, valid or not, whose byte form is at the front of a byte string, and the bytes
behind it. -/
def read (H : HashFamily) (bytes : List UInt8) : Outcome (Table H × List UInt8) := do
  let (count, bytes) ← readField 8 bytes
  let (entries, bytes) ← Entry.readMany count bytes
  return (⟨entries.toArray⟩, bytes)

theorem read_eq_ok_iff (bytes rest : List UInt8) (t : Table H) :
    read H bytes = .ok (t, rest) ↔
      t.size < 2 ^ 64 ∧ (∀ entry ∈ t.entries, entry.Writable) ∧ bytes = t.toBytes ++ rest := by
  rw [read, bind_eq_ok_iff]
  constructor
  · rintro ⟨⟨count, behind⟩, hcount, h⟩
    obtain ⟨hlt, rfl⟩ := (readField_eq_ok_iff 8 count bytes behind).mp hcount
    obtain ⟨⟨entries, rest'⟩, hentries, h⟩ := bind_eq_ok_iff.mp h
    cases h
    obtain ⟨rfl, hall, rfl⟩ := (Entry.readMany_eq_ok_iff count behind rest entries).mp hentries
    exact ⟨hlt, by simpa using hall, by rw [toBytes, List.append_assoc]; rfl⟩
  · rintro ⟨hlt, hall, rfl⟩
    rw [toBytes, List.append_assoc]
    have hcount := (readField_eq_ok_iff 8 t.size _
      (t.entries.toList.flatMap Entry.toBytes ++ rest)).mpr ⟨hlt, rfl⟩
    have hentries := (Entry.readMany_eq_ok_iff t.size _ rest t.entries.toList).mpr
      ⟨rfl, by simpa using hall, rfl⟩
    exact ⟨_, hcount, bind_eq_ok_iff.mpr ⟨_, hentries, rfl⟩⟩

/-- The reader of the program drops the rest and validates what it has read. -/
theorem ofBytes_eq_read_validate (H : HashFamily) (bytes : List UInt8) :
    ofBytes H bytes = (do let (t, _) ← read H bytes; t.validate) := by
  rw [ofBytes, read]
  cases readField 8 bytes with
  | error e => rfl
  | ok field =>
      rcases field with ⟨count, behind⟩
      simp only [bind, Except.bind, readEntries_eq]
      cases Entry.readMany count behind with
      | error e => rfl
      | ok others => simp [pure, Except.pure]

theorem ofBytes_eq_ok_iff (bytes : List UInt8) (t : Table H) :
    ofBytes H bytes = .ok t ↔ t.Valid ∧ ∃ rest, read H bytes = .ok (t, rest) := by
  rw [ofBytes_eq_read_validate, bind_eq_ok_iff]
  constructor
  · rintro ⟨⟨u, rest⟩, hread, hvalidate⟩
    obtain ⟨rfl, hvalid⟩ := (validate_eq_ok_iff u t).mp hvalidate
    exact ⟨hvalid, rest, hread⟩
  · rintro ⟨hvalid, rest, hread⟩
    exact ⟨_, hread, (validate_eq_ok_iff t t).mpr ⟨rfl, hvalid⟩⟩

/-- A table is accepted from exactly the byte strings that begin with its byte form. -/
theorem ofBytes_eq_ok_iff_isPrefix (bytes : List UInt8) (t : Table H) :
    ofBytes H bytes = .ok t ↔ (t.Valid ∧ t.size < 2 ^ 64) ∧ t.toBytes <+: bytes := by
  simp only [ofBytes_eq_ok_iff, read_eq_ok_iff]
  constructor
  · rintro ⟨hvalid, rest, hsize, -, hbytes⟩
    exact ⟨⟨hvalid, hsize⟩, rest, hbytes.symm⟩
  · rintro ⟨⟨hvalid, hsize⟩, rest, hbytes⟩
    have hwritable : ∀ entry ∈ t.entries, entry.Writable :=
      fun entry hentry => (hvalid.2 entry hentry).writable (Nat.le_of_lt hsize)
    exact ⟨hvalid, rest, hsize, hwritable, hbytes.symm⟩

/-- A byte string begins with the byte form of at most one valid table. -/
theorem eq_of_toBytes_isPrefix (bytes : List UInt8) (t u : Table H)
    (ht : t.Valid ∧ t.size < 2 ^ 64) (hu : u.Valid ∧ u.size < 2 ^ 64)
    (htbytes : t.toBytes <+: bytes) (hubytes : u.toBytes <+: bytes) : t = u := by
  have hread := (ofBytes_eq_ok_iff_isPrefix bytes t).mpr ⟨ht, htbytes⟩
  rw [(ofBytes_eq_ok_iff_isPrefix bytes u).mpr ⟨hu, hubytes⟩] at hread
  cases hread
  rfl

theorem four_mul_length_le_flatMap (entries : List Entry) :
    4 * entries.length ≤ (entries.flatMap Entry.toBytes).length := by
  induction entries with
  | nil => exact Nat.le_refl 0
  | cons entry entries ih =>
      have hentry := entry.four_le_length_toBytes
      rw [List.flatMap_cons, List.length_append, List.length_cons]
      omega

/-- The byte form has eight bytes for the count and at least four for every entry. -/
theorem le_length_toBytes (t : Table H) : 8 + 4 * t.size ≤ t.toBytes.length := by
  rw [toBytes, List.length_append, LittleEndian.toBytes_length]
  exact Nat.add_le_add_left (four_mul_length_le_flatMap t.entries.toList) 8

/-- The valid tables and their byte forms determine each other. A table is accepted from exactly
the byte strings that begin with its byte form, so bytes behind the table are ignored, and the byte
form of one table never begins that of another. An accepted table is written as the bytes that were
read: these are all but the rest that the reader leaves, and no shorter beginning is accepted. The
count has eight bytes, so a table must have fewer than `2 ^ 64` entries. As `8 + 4 * n` bytes are
needed for `n` entries, a byte string of fewer than `2 ^ 63` bytes gives fewer than `2 ^ 63`. -/
theorem toBytes_canonical (H : HashFamily) :
    (∀ (bytes : List UInt8) (t : Table H),
      ofBytes H bytes = .ok t ↔ (t.Valid ∧ t.size < 2 ^ 64) ∧ t.toBytes <+: bytes) ∧
    (∀ t : Table H, t.Valid ∧ t.size < 2 ^ 64 →
      ∀ junk, ofBytes H (t.toBytes ++ junk) = .ok t) ∧
    (∀ t u : Table H, t.Valid ∧ t.size < 2 ^ 64 → u.Valid ∧ u.size < 2 ^ 64 → t ≠ u →
      ¬ t.toBytes <+: u.toBytes ∧ ¬ u.toBytes <+: t.toBytes) ∧
    (∀ (bytes : List UInt8) (t : Table H), ofBytes H bytes = .ok t →
      (∃ rest, read H bytes = .ok (t, rest) ∧ bytes = t.toBytes ++ rest) ∧
      (∀ front, front <+: bytes →
        ((∃ u, ofBytes H front = .ok u) ↔ t.toBytes <+: front)) ∧
      8 + 4 * t.size ≤ bytes.length) := by
  refine ⟨ofBytes_eq_ok_iff_isPrefix, fun t ht junk => ?_, fun t u ht hu hne => ⟨?_, ?_⟩,
    fun bytes t h => ⟨?_, fun front hfront => ⟨?_, ?_⟩, ?_⟩⟩
  · exact (ofBytes_eq_ok_iff_isPrefix _ t).mpr ⟨ht, List.prefix_append _ _⟩
  · intro hbegins
    exact hne (eq_of_toBytes_isPrefix u.toBytes t u ht hu hbegins List.prefix_rfl)
  · intro hbegins
    exact hne (eq_of_toBytes_isPrefix t.toBytes t u ht hu List.prefix_rfl hbegins)
  · obtain ⟨-, rest, hread⟩ := (ofBytes_eq_ok_iff bytes t).mp h
    obtain ⟨-, -, hbytes⟩ := (read_eq_ok_iff bytes rest t).mp hread
    exact ⟨rest, hread, hbytes⟩
  · rintro ⟨u, hu⟩
    -- What is accepted from the beginning is accepted from the whole.
    obtain ⟨ht, htbytes⟩ := (ofBytes_eq_ok_iff_isPrefix bytes t).mp h
    obtain ⟨hu, hubytes⟩ := (ofBytes_eq_ok_iff_isPrefix front u).mp hu
    rwa [eq_of_toBytes_isPrefix bytes t u ht hu htbytes (hubytes.trans hfront)]
  · intro htfront
    obtain ⟨ht, -⟩ := (ofBytes_eq_ok_iff_isPrefix bytes t).mp h
    exact ⟨t, (ofBytes_eq_ok_iff_isPrefix front t).mpr ⟨ht, htfront⟩⟩
  · obtain ⟨-, htbytes⟩ := (ofBytes_eq_ok_iff_isPrefix bytes t).mp h
    exact Nat.le_trans (le_length_toBytes t) htbytes.length_le

/-- A table with an entry of each kind, another table, and the bytes of a salt `0`, which are read
but do not make a valid table. -/
theorem toBytes_canonical_halving :
    ∃ t u w : Table HashFamily.Arithmetic.halving,
      t.entries = #[.direct 2, .displacement 7, .unset] ∧ u.entries = #[.direct 0] ∧
      w.entries = #[.displacement 0] ∧
      t.toBytes = [3, 0, 0, 0, 0, 0, 0, 0, 1, 0, 0, 0, 2, 0, 0, 0, 0, 0, 0, 0,
        2, 0, 0, 0, 7, 0, 0, 0, 0, 0, 0, 0, 0, 0, 0, 0] ∧
      (t.Valid ∧ t.size < 2 ^ 64) ∧ (u.Valid ∧ u.size < 2 ^ 64) ∧ t ≠ u ∧
      ofBytes HashFamily.Arithmetic.halving (t.toBytes ++ [255, 255]) = .ok t ∧
      ¬ t.toBytes <+: u.toBytes ∧
      ofBytes HashFamily.Arithmetic.halving w.toBytes ≠ .ok w := by
  obtain ⟨hiff, happend, hfree, -⟩ := toBytes_canonical HashFamily.Arithmetic.halving
  have ht : Valid (H := HashFamily.Arithmetic.halving) ⟨#[.direct 2, .displacement 7, .unset]⟩ :=
    ⟨by decide, by decide⟩
  have hu : Valid (H := HashFamily.Arithmetic.halving) ⟨#[.direct 0]⟩ := ⟨by decide, by decide⟩
  refine ⟨⟨#[.direct 2, .displacement 7, .unset]⟩, ⟨#[.direct 0]⟩, ⟨#[.displacement 0]⟩, rfl, rfl,
    rfl, by decide, ⟨ht, by decide⟩, ⟨hu, by decide⟩, by decide, happend _ ⟨ht, by decide⟩ _,
    (hfree _ _ ⟨ht, by decide⟩ ⟨hu, by decide⟩ (by decide)).1, fun hread => ?_⟩
  obtain ⟨⟨⟨-, hvalid⟩, -⟩, -⟩ := (hiff _ _).mp hread
  revert hvalid
  decide

end Table

end PerfectHash
