import Mathlib.Data.List.Basic
import PerfectHash.Proofs.Table.Bytes

set_option autoImplicit false

/-! # Byte strings that are no table

A byte string is refused for the first thing that goes wrong while it is read, and an entry that
cannot occur in the table is looked for only when all of it has been read. `Refused` is the
grammar of the byte strings on which reading stops, with the failure that each of them gets: they
end inside the count, inside a tag or inside the number behind a tag, or they hold an unknown tag
where an entry is due. What stands before the fault does not matter, so corrupt entries there are
not reported.

The readers decide this grammar (`Table.read_eq_error_iff`), and what they read is validated
(`Table.ofBytes_eq_error_iff`). The main statement `Table.ofBytes_failures` says what every byte
string gets. That a byte form that was cut short is never mistaken for anything else comes from
comparing it with the whole: a table or an unknown tag at its front would be there in the whole
as well.
-/

namespace PerfectHash

theorem readField_eq_error_iff (width : Nat) (bytes : List UInt8) (failure : Failure) :
    readField width bytes = .error failure ↔
      bytes.length < width ∧ failure = .unexpectedEnd := by
  rw [← LittleEndian.readNumber_eq_none_iff, readField]
  cases LittleEndian.readNumber width bytes with
  | none => simp [eq_comm]
  | some field => simp

/-! ## Entries -/

namespace Entry

/-- No entry can be read off the front of the byte string, for the given reason. -/
inductive Refused : List UInt8 → Failure → Prop where
  | cutTag {bytes : List UInt8} (hcut : bytes.length < 4) : Refused bytes .unexpectedEnd
  | cutNumber {tag : Nat} {bytes : List UInt8} (htag : tag = 1 ∨ tag = 2)
      (hcut : bytes.length < 8) :
      Refused (LittleEndian.toBytes 4 tag ++ bytes) .unexpectedEnd
  | unknownTag {tag : Nat} (rest : List UInt8) (htag : 3 ≤ tag) (hlt : tag < 2 ^ 32) :
      Refused (LittleEndian.toBytes 4 tag ++ rest) (.unknownTag tag)

theorem refused_of_read (bytes : List UInt8) (failure : Failure)
    (h : read bytes = .error failure) : Refused bytes failure := by
  unfold read at h
  rcases bind_eq_error_iff.mp h with htag | ⟨⟨tag, payload⟩, htag, hentry⟩
  · obtain ⟨hcut, rfl⟩ := (readField_eq_error_iff 4 bytes failure).mp htag
    exact .cutTag hcut
  · obtain ⟨hlt, rfl⟩ := (readField_eq_ok_iff 4 tag bytes payload).mp htag
    dsimp only at hentry
    split at hentry
    -- The tags `0`, `1` and `2`, and all others.
    · cases hentry
    · rcases bind_eq_error_iff.mp hentry with hslot | ⟨_, -, hdone⟩
      · obtain ⟨hcut, rfl⟩ := (readField_eq_error_iff 8 payload failure).mp hslot
        exact .cutNumber (.inl rfl) hcut
      · cases hdone
    · rcases bind_eq_error_iff.mp hentry with hsalt | ⟨_, -, hdone⟩
      · obtain ⟨hcut, rfl⟩ := (readField_eq_error_iff 8 payload failure).mp hsalt
        exact .cutNumber (.inr rfl) hcut
      · cases hdone
    · next hzero hone htwo =>
        cases hentry
        have hother : tag ≠ 0 ∧ tag ≠ 1 ∧ tag ≠ 2 := ⟨hzero, hone, htwo⟩
        exact .unknownTag payload (by omega) hlt

theorem Refused.read_eq {bytes : List UInt8} {failure : Failure} (h : Refused bytes failure) :
    read bytes = .error failure := by
  unfold read
  rw [bind_eq_error_iff]
  cases h with
  | cutTag hcut => exact .inl ((readField_eq_error_iff 4 bytes _).mpr ⟨hcut, rfl⟩)
  | @cutNumber tag payload htag hcut =>
      have hnumber := (readField_eq_error_iff 8 payload _).mpr ⟨hcut, rfl⟩
      rcases htag with rfl | rfl
      · have htag := (readField_eq_ok_iff 4 1 _ payload).mpr ⟨by decide, rfl⟩
        exact .inr ⟨_, htag, bind_eq_error_iff.mpr (.inl hnumber)⟩
      · have htag := (readField_eq_ok_iff 4 2 _ payload).mpr ⟨by decide, rfl⟩
        exact .inr ⟨_, htag, bind_eq_error_iff.mpr (.inl hnumber)⟩
  | @unknownTag tag rest htag hlt =>
      refine .inr ⟨_, (readField_eq_ok_iff 4 tag _ rest).mpr ⟨hlt, rfl⟩, ?_⟩
      match tag with
      | tag + 3 => rfl

/-- Reading several entries stops at the first one that cannot be read. -/
theorem readMany_eq_error_iff (count : Nat) (bytes : List UInt8) (failure : Failure) :
    readMany count bytes = .error failure ↔
      ∃ (entries : List Entry) (rest : List UInt8), entries.length < count ∧
        (∀ entry ∈ entries, entry.Writable) ∧ bytes = entries.flatMap toBytes ++ rest ∧
        Refused rest failure := by
  induction count generalizing bytes with
  | zero =>
      constructor
      · intro h
        cases h
      · rintro ⟨entries, -, hlength, -⟩
        exact absurd hlength (Nat.not_lt_zero _)
  | succ count ih =>
      rw [readMany, bind_eq_error_iff]
      constructor
      · rintro (hfirst | ⟨⟨entry, behind⟩, hentry, hmany⟩)
        · exact ⟨[], bytes, Nat.succ_pos count, by simp, rfl, refused_of_read _ _ hfirst⟩
        · obtain ⟨hwritable, rfl⟩ := (read_eq_ok_iff bytes behind entry).mp hentry
          rcases bind_eq_error_iff.mp hmany with hothers | ⟨_, -, hdone⟩
          · obtain ⟨others, rest, hlength, hall, rfl, hrefused⟩ := (ih behind).mp hothers
            refine ⟨entry :: others, rest, Nat.succ_lt_succ hlength,
              List.forall_mem_cons.mpr ⟨hwritable, hall⟩, ?_, hrefused⟩
            rw [List.flatMap_cons, List.append_assoc]
          · cases hdone
      · rintro ⟨entries, rest, hlength, hall, rfl, hrefused⟩
        cases entries with
        | nil => exact .inl hrefused.read_eq
        | cons entry others =>
            obtain ⟨hwritable, hothers⟩ := List.forall_mem_cons.mp hall
            have hmany := (ih _).mpr
              ⟨others, rest, Nat.lt_of_succ_lt_succ hlength, hothers, rfl, hrefused⟩
            rw [List.flatMap_cons, List.append_assoc]
            exact .inr ⟨_, read_append entry hwritable _, bind_eq_error_iff.mpr (.inl hmany)⟩

/-- The entry that is read from the byte form of an entry, which keeps the low bytes of a slot. -/
def written : Entry → Entry
  | .direct slot => .direct (slot % 2 ^ 64)
  | entry => entry

theorem writable_written (entry : Entry) : entry.written.Writable := by
  cases entry with
  | unset => trivial
  | direct slot => exact Nat.mod_lt slot (by decide)
  | displacement salt => trivial

theorem toBytes_written (entry : Entry) : entry.written.toBytes = entry.toBytes := by
  cases entry with
  | unset => rfl
  | direct slot => exact congrArg (LittleEndian.toBytes 4 1 ++ ·) (LittleEndian.toBytes_mod 8 slot)
  | displacement salt => rfl

theorem flatMap_toBytes_written (entries : List Entry) :
    (entries.map written).flatMap toBytes = entries.flatMap toBytes := by
  rw [List.flatMap_map]
  exact List.flatMap_congr fun entry _ => entry.toBytes_written

end Entry

/-! ## Tables -/

namespace Table

variable {H : HashFamily}

/-- No table can be read off the front of the byte string, for the given reason. -/
inductive Refused : List UInt8 → Failure → Prop where
  | cutCount {bytes : List UInt8} (hcut : bytes.length < 8) : Refused bytes .unexpectedEnd
  /-- Behind fewer entries than announced there is no further one. -/
  | entry {count : Nat} {entries : List Entry} {rest : List UInt8} {failure : Failure}
      (hcount : count < 2 ^ 64) (hfewer : entries.length < count)
      (hentry : Entry.Refused rest failure) :
      Refused (LittleEndian.toBytes 8 count ++ entries.flatMap Entry.toBytes ++ rest) failure

theorem read_eq_error_iff (bytes : List UInt8) (failure : Failure) :
    read H bytes = .error failure ↔ Refused bytes failure := by
  rw [read, bind_eq_error_iff]
  constructor
  · rintro (hcount | ⟨⟨count, behind⟩, hcount, hmany⟩)
    · obtain ⟨hcut, rfl⟩ := (readField_eq_error_iff 8 bytes failure).mp hcount
      exact .cutCount hcut
    · obtain ⟨hlt, rfl⟩ := (readField_eq_ok_iff 8 count bytes behind).mp hcount
      rcases bind_eq_error_iff.mp hmany with hentries | ⟨_, -, hdone⟩
      · obtain ⟨entries, rest, hlength, -, rfl, hrefused⟩ :=
          (Entry.readMany_eq_error_iff count behind failure).mp hentries
        rw [← List.append_assoc]
        exact .entry hlt hlength hrefused
      · cases hdone
  · intro h
    cases h with
    | cutCount hcut => exact .inl ((readField_eq_error_iff 8 bytes _).mpr ⟨hcut, rfl⟩)
    | @entry count entries rest failure hcount hfewer hentry =>
        rw [List.append_assoc]
        have hmany := (Entry.readMany_eq_error_iff count (entries.flatMap Entry.toBytes ++ rest)
          failure).mpr ⟨entries.map Entry.written, rest, by rwa [List.length_map], ?_, ?_, hentry⟩
        · have hfield := (readField_eq_ok_iff 8 count _
            (entries.flatMap Entry.toBytes ++ rest)).mpr ⟨hcount, rfl⟩
          exact .inr ⟨_, hfield, bind_eq_error_iff.mpr (.inl hmany)⟩
        · intro entry hmem
          obtain ⟨original, -, rfl⟩ := List.mem_map.mp hmem
          exact original.writable_written
        · rw [Entry.flatMap_toBytes_written]

theorem Refused.failure_cases {bytes : List UInt8} {failure : Failure}
    (h : Refused bytes failure) :
    failure = .unexpectedEnd ∨ ∃ tag, (3 ≤ tag ∧ tag < 2 ^ 32) ∧ failure = .unknownTag tag := by
  cases h with
  | cutCount => exact .inl rfl
  | entry _ _ hentry =>
      cases hentry with
      | cutTag => exact .inl rfl
      | cutNumber => exact .inl rfl
      | @unknownTag tag rest htag hlt => exact .inr ⟨tag, ⟨htag, hlt⟩, rfl⟩

/-- An unknown tag is found whatever follows it. -/
theorem Refused.append {bytes : List UInt8} {tag : Nat} (h : Refused bytes (.unknownTag tag))
    (more : List UInt8) : Refused (bytes ++ more) (.unknownTag tag) := by
  cases h with
  | entry hcount hfewer hentry =>
      cases hentry with
      | unknownTag rest htag hlt =>
          rw [List.append_assoc, List.append_assoc]
          exact .entry hcount hfewer (.unknownTag (rest ++ more) htag hlt)

/-- The first entries of a byte form do not show where it ends, and neither do its bytes. -/
theorem refused_of_isPrefix (t : Table H) (hsize : t.size < 2 ^ 64)
    (hwritable : ∀ entry ∈ t.entries, entry.Writable) (front : List UInt8)
    (hfront : front <+: t.toBytes) (hne : front ≠ t.toBytes) : Refused front .unexpectedEnd := by
  obtain ⟨back, hback⟩ := hfront
  have hwhole : read H t.toBytes = .ok (t, []) :=
    (read_eq_ok_iff t.toBytes [] t).mpr ⟨hsize, hwritable, (List.append_nil _).symm⟩
  cases hread : read H front with
  | ok result =>
      -- The table at the front is also at the front of the whole, so nothing was cut off.
      rcases result with ⟨u, rest⟩
      obtain ⟨husize, huwritable, hu⟩ := (read_eq_ok_iff front rest u).mp hread
      have hsame : read H t.toBytes = .ok (u, rest ++ back) :=
        (read_eq_ok_iff _ _ u).mpr ⟨husize, huwritable, by rw [← hback, hu, List.append_assoc]⟩
      rw [hwhole, Except.ok.injEq, Prod.mk.injEq] at hsame
      rw [(List.append_eq_nil_iff.mp hsame.2.symm).2, List.append_nil] at hback
      exact absurd hback hne
  | error failure =>
      have hrefused := (read_eq_error_iff front failure).mp hread
      rcases hrefused.failure_cases with rfl | ⟨tag, -, rfl⟩
      · exact hrefused
      · -- The tag would be found in the whole as well.
        have hsame := (read_eq_error_iff (H := H) _ _).mpr (hrefused.append back)
        rw [hback, hwhole] at hsame
        cases hsame

/-- A byte string is refused while it is read, or for the table that was read from it. -/
theorem ofBytes_eq_error_iff (bytes : List UInt8) (failure : Failure) :
    ofBytes H bytes = .error failure ↔ Refused bytes failure ∨
      ∃ (t : Table H) (rest : List UInt8), (t.size < 2 ^ 64 ∧
        (∀ entry ∈ t.entries, entry.Writable) ∧ bytes = t.toBytes ++ rest) ∧
        t.validate = .error failure := by
  rw [ofBytes_eq_read_validate, bind_eq_error_iff, read_eq_error_iff]
  refine or_congr_right ?_
  constructor
  · rintro ⟨⟨t, rest⟩, hread, hvalidate⟩
    exact ⟨t, rest, (read_eq_ok_iff bytes rest t).mp hread, hvalidate⟩
  · rintro ⟨t, rest, hbytes, hvalidate⟩
    exact ⟨(t, rest), (read_eq_ok_iff bytes rest t).mpr hbytes, hvalidate⟩

theorem Refused.ofBytes_eq {bytes : List UInt8} {failure : Failure} (h : Refused bytes failure) :
    ofBytes H bytes = .error failure :=
  (ofBytes_eq_error_iff bytes failure).mpr (.inl h)

/-- The validation reports nothing that reading reports. -/
theorem ofBytes_eq_error_iff_refused (bytes : List UInt8) (failure : Failure)
    (h : failure = .unexpectedEnd ∨ ∃ tag, failure = .unknownTag tag) :
    ofBytes H bytes = .error failure ↔ Refused bytes failure := by
  rw [ofBytes_eq_error_iff]
  refine or_iff_left ?_
  rintro ⟨t, rest, -, hvalidate⟩
  rcases (validate_eq_error_iff t failure).mp hvalidate with ⟨-, rfl⟩ | ⟨i, entry, -, rfl⟩
  · rcases h with h | ⟨tag, h⟩ <;> cases h
  · rcases h with h | ⟨tag, h⟩ <;> cases h

/-- A table without entries is announced by eight zero bytes. -/
theorem ofBytes_eq_emptyKeySet_iff (bytes : List UInt8) :
    ofBytes H bytes = .error .emptyKeySet ↔ bytes.take 8 = List.replicate 8 0 := by
  have hempty : toBytes (H := H) ⟨#[]⟩ = List.replicate 8 0 := by
    show LittleEndian.toBytes 8 0 = _
    decide
  rw [ofBytes_eq_error_iff]
  constructor
  · rintro (hrefused | ⟨⟨entries⟩, rest, ⟨-, -, rfl⟩, hvalidate⟩)
    · rcases hrefused.failure_cases with h | ⟨tag, -, h⟩ <;> cases h
    · rcases (validate_eq_error_iff _ _).mp hvalidate with ⟨rfl, -⟩ | ⟨i, entry, -, h⟩
      · rw [hempty]
        exact List.take_left' rfl
      · cases h
  · intro hzero
    refine .inr ⟨⟨#[]⟩, bytes.drop 8, ⟨Nat.two_pow_pos 64, by simp, ?_⟩, rfl⟩
    rw [hempty, ← hzero, List.take_append_drop]

/-- A table that was read is refused for its first entry that cannot occur. -/
theorem ofBytes_eq_corruptEntry_iff (bytes : List UInt8) (i : Nat) (value : Int64) :
    ofBytes H bytes = .error (.corruptEntry i value) ↔
      ∃ (t : Table H) (rest : List UInt8) (entry : Entry), (t.size < 2 ^ 64 ∧
        (∀ entry ∈ t.entries, entry.Writable) ∧ bytes = t.toBytes ++ rest) ∧
        t.FirstCorrupt i entry ∧ value = entry.toRaw := by
  rw [ofBytes_eq_error_iff]
  constructor
  · rintro (hrefused | ⟨t, rest, hbytes, hvalidate⟩)
    · rcases hrefused.failure_cases with h | ⟨tag, -, h⟩ <;> cases h
    · rcases (validate_eq_error_iff t _).mp hvalidate with ⟨-, h⟩ | ⟨j, entry, hcorrupt, h⟩
      · cases h
      · cases h
        exact ⟨t, rest, entry, hbytes, hcorrupt, rfl⟩
  · rintro ⟨t, rest, entry, hbytes, hcorrupt, rfl⟩
    exact .inr ⟨t, rest, hbytes, (validate_eq_error_iff t _).mpr (.inr ⟨i, entry, hcorrupt, rfl⟩)⟩

/-- Every byte string is accepted or gets one of four failures. It ends too early if it is the byte
form of a table, valid or not, without its last bytes. An unknown tag behind fewer entries than
announced is named, whatever these entries are and whatever follows. Both are told by the grammar
`Refused`, and nothing else stops the reading. Eight zero bytes announce a table without entries.
If all entries that were announced are there, at least one, then the first one that cannot occur
among that many is reported with its signed form. The count has eight bytes and a tag has four.
The failures of the reader have the messages of the byte format. -/
theorem ofBytes_failures (H : HashFamily) :
    (∀ t : Table H, t.size < 2 ^ 64 → ∀ front, front <+: t.toBytes → front ≠ t.toBytes →
      ofBytes H front = .error .unexpectedEnd) ∧
    (∀ (count : Nat) (entries : List Entry) (tag : Nat) (rest : List UInt8), count < 2 ^ 64 →
      entries.length < count → 3 ≤ tag → tag < 2 ^ 32 →
      ofBytes H (LittleEndian.toBytes 8 count ++ entries.flatMap Entry.toBytes ++
        (LittleEndian.toBytes 4 tag ++ rest)) = .error (.unknownTag tag)) ∧
    (∀ (bytes : List UInt8) (failure : Failure),
      (failure = .unexpectedEnd ∨ ∃ tag, failure = .unknownTag tag) →
      (ofBytes H bytes = .error failure ↔ Refused bytes failure)) ∧
    (∀ bytes, ofBytes H bytes = .error .emptyKeySet ↔ bytes.take 8 = List.replicate 8 0) ∧
    (∀ bytes i value, ofBytes H bytes = .error (.corruptEntry i value) ↔
      ∃ (t : Table H) (rest : List UInt8) (entry : Entry), (t.size < 2 ^ 64 ∧
        (∀ entry ∈ t.entries, entry.Writable) ∧ bytes = t.toBytes ++ rest) ∧
        t.FirstCorrupt i entry ∧ value = entry.toRaw) ∧
    (∀ bytes, (∃ t, ofBytes H bytes = .ok t) ∨ ofBytes H bytes = .error .unexpectedEnd ∨
      (∃ tag, (3 ≤ tag ∧ tag < 2 ^ 32) ∧ ofBytes H bytes = .error (.unknownTag tag)) ∨
      ofBytes H bytes = .error .emptyKeySet ∨
      ∃ i value, ofBytes H bytes = .error (.corruptEntry i value)) ∧
    Failure.unexpectedEnd.message = "serialization error: io error: unexpected end of file" ∧
    ∀ k, (Failure.unknownTag k).message =
      s!"serialization error: invalid value: integer `{k}`, expected variant index 0 <= i < 3" := by
  refine ⟨fun t hsize front hfront hne => ?_,
    fun count entries tag rest hcount hfewer htag hlt =>
      (Refused.entry hcount hfewer (.unknownTag rest htag hlt)).ofBytes_eq,
    ofBytes_eq_error_iff_refused, ofBytes_eq_emptyKeySet_iff, ofBytes_eq_corruptEntry_iff,
    fun bytes => ?_, rfl, fun k => rfl⟩
  · -- The same bytes are the byte form of a table whose slots are words.
    have hwritten : toBytes (H := H) ⟨t.entries.map Entry.written⟩ = t.toBytes := by
      simp only [toBytes, size, Array.size_map, Array.toList_map, Entry.flatMap_toBytes_written]
    rw [← hwritten] at hfront hne
    refine (refused_of_isPrefix _ ?_ ?_ front hfront hne).ofBytes_eq
    · simpa only [size, Array.size_map] using hsize
    · intro entry hentry
      obtain ⟨original, -, rfl⟩ := Array.mem_map.mp hentry
      exact original.writable_written
  · cases hread : ofBytes H bytes with
    | ok t => exact .inl ⟨t, rfl⟩
    | error failure =>
        rcases (ofBytes_eq_error_iff bytes failure).mp hread with hrefused | ⟨t, rest, -, hvalidate⟩
        · rcases hrefused.failure_cases with rfl | ⟨tag, htag, rfl⟩
          · exact .inr (.inl rfl)
          · exact .inr (.inr (.inl ⟨tag, htag, rfl⟩))
        · rcases (validate_eq_error_iff t failure).mp hvalidate with ⟨-, rfl⟩ | ⟨i, entry, -, rfl⟩
          · exact .inr (.inr (.inr (.inl rfl)))
          · exact .inr (.inr (.inr (.inr ⟨i, _, rfl⟩)))

/-- Of three entries the last two cannot occur: the slot `2 ^ 63`, whose signed form is that of
another entry, and the salt `0`. Without its last byte the table just ends too early. -/
theorem ofBytes_failures_halving :
    ∃ t : Table HashFamily.Arithmetic.halving,
      t.entries = #[.displacement 1, .direct (2 ^ 63), .displacement 0] ∧
      ofBytes HashFamily.Arithmetic.halving t.toBytes =
        .error (.corruptEntry 1 9223372036854775807) ∧
      (∀ front, front <+: t.toBytes → front ≠ t.toBytes →
        ofBytes HashFamily.Arithmetic.halving front = .error .unexpectedEnd) ∧
      ofBytes HashFamily.Arithmetic.halving ([4, 0, 0, 0, 0, 0, 0, 0] ++
        t.entries.toList.flatMap Entry.toBytes ++ ([0, 1, 0, 0] ++ [7])) =
          .error (.unknownTag 256) ∧
      ofBytes HashFamily.Arithmetic.halving [0, 0, 0, 0, 0, 0, 0, 0, 7] = .error .emptyKeySet := by
  obtain ⟨hcut, htag, -, hempty, hcorrupt, -⟩ := ofBytes_failures HashFamily.Arithmetic.halving
  refine ⟨⟨#[.displacement 1, .direct (2 ^ 63), .displacement 0]⟩, rfl, ?_, hcut _ (by decide),
    htag 4 _ 256 [7] (by decide) (by decide) (by decide) (by decide), (hempty _).mpr (by decide)⟩
  refine (hcorrupt _ 1 _).mpr ⟨_, [], .direct (2 ^ 63), ⟨by decide, ?_, (List.append_nil _).symm⟩,
    ⟨rfl, by decide, ?_⟩, by decide⟩
  · simp [Entry.Writable]
  · intro j hj other hother
    obtain rfl : j = 0 := by omega
    cases hother
    decide

end Table

end PerfectHash
