import Mathlib.Algebra.Group.Nat.Defs
import PerfectHash.Hash.Families
import PerfectHash.Proofs.Table.Valid
import PerfectHash.Table.Raw

set_option autoImplicit false

/-! # The signed form determines the table

Every signed word is the form of an entry: zero of the unset one, `-(slot + 1)` of a slot, and a
positive word of a salt. Reading a word and writing the entry gives the word back
(`Entry.toRaw_ofRaw`), for `-2 ^ 63` as for any other. The other way round it is not so, as there
are more entries than words: a slot or a salt from `2 ^ 63` on wraps around and is read as another
entry. Among the entries of a valid table there is none of these (`Entry.ofRaw_toRaw`).

So a table of at most `2 ^ 63` entries survives its signed form exactly when it is valid
(`Table.ofRaw_toRaw_eq_ok_iff`). In terms of the words, all that has to be checked of a table of
`n` entries is that no word is below `-n` (`Entry.valid_ofRaw_iff`).
-/

namespace PerfectHash

namespace Entry

/-! ## Entries as words -/

theorem toInt_toRaw_direct (slot : Nat) :
    (toRaw (.direct slot)).toInt = (-(slot : Int) - 1).bmod (2 ^ 64) := by
  rw [toRaw, Int64.toInt_sub, Int64.toInt_neg, Int64.toInt_ofNat', Int64.toInt_one]
  simp

theorem toInt_toRaw_displacement (salt : Salt) :
    (toRaw (.displacement salt)).toInt = (salt.toNat : Int).bmod (2 ^ 64) :=
  BitVec.toInt_eq_toNat_bmod salt.toBitVec

theorem ofRaw_of_neg (value : Int64) (h : value.toInt < 0) :
    ofRaw value = .direct (-(value.toInt + 1)).toNat := by
  have hlow := value.le_toInt
  have hne : value ≠ 0 := by
    rintro rfl
    exact absurd h (by decide)
  have hneg : value < 0 := Int64.lt_iff_toInt_lt.mpr h
  -- Neither the increment nor the negation can wrap, as the word is negative.
  have hsucc : (value + 1).toInt = value.toInt + 1 := by
    rw [Int64.toInt_add, Int64.toInt_one]
    exact Int.bmod_eq_of_le (by omega) (by omega)
  have hslot : (-(value + 1)).toInt = -(value.toInt + 1) := by
    rw [Int64.toInt_neg, hsucc]
    exact Int.bmod_eq_of_le (by omega) (by omega)
  have hnonneg : 0 ≤ -(value + 1) := by
    rw [Int64.le_iff_toInt_le, hslot]
    show 0 ≤ -(value.toInt + 1)
    omega
  rw [ofRaw, if_neg hne, if_pos hneg, Int64.toNat_toUInt64_of_le hnonneg, ← hslot]
  rfl

theorem ofRaw_of_pos (value : Int64) (h : 0 < value.toInt) :
    ofRaw value = .displacement value.toUInt64 ∧ value.toUInt64.toNat = value.toInt.toNat := by
  have hne : value ≠ 0 := by
    rintro rfl
    exact absurd h (by decide)
  have hneg : ¬ value < 0 := by
    rw [Int64.lt_iff_toInt_lt]
    exact Int.not_lt.mpr (Int.le_of_lt h)
  have hnonneg : 0 ≤ value := Int64.le_iff_toInt_le.mpr (Int.le_of_lt h)
  rw [ofRaw, if_neg hne, if_neg hneg]
  exact ⟨rfl, Int64.toNat_toUInt64_of_le hnonneg⟩

theorem eq_zero_of_toInt_eq_zero (value : Int64) (h : value.toInt = 0) : value = 0 :=
  Int64.toInt_inj.mp (h.trans Int64.toInt_zero.symm)

/-- No word is lost by reading it. -/
theorem toRaw_ofRaw (value : Int64) : (ofRaw value).toRaw = value := by
  have hlow := value.le_toInt
  have hhigh := value.toInt_lt
  rcases Int.lt_trichotomy value.toInt 0 with hneg | hzero | hpos
  · apply Int64.toInt_inj.mp
    have hslot : -((-(value.toInt + 1)).toNat : Int) - 1 = value.toInt := by omega
    rw [ofRaw_of_neg value hneg, toInt_toRaw_direct, hslot]
    exact Int.bmod_eq_of_le hlow hhigh
  · rw [eq_zero_of_toInt_eq_zero value hzero]
    rfl
  · rw [(ofRaw_of_pos value hpos).1]
    rfl

/-- The entry of a word can occur among `n` entries exactly when the word is not below `-n`. -/
theorem valid_ofRaw_iff (n : Nat) (value : Int64) :
    (ofRaw value).Valid n ↔ -(n : Int) ≤ value.toInt := by
  have hhigh := value.toInt_lt
  rcases Int.lt_trichotomy value.toInt 0 with hneg | hzero | hpos
  · rw [ofRaw_of_neg value hneg]
    show (-(value.toInt + 1)).toNat < n ↔ _
    omega
  · rw [eq_zero_of_toInt_eq_zero value hzero]
    show True ↔ -(n : Int) ≤ 0
    simp
  · obtain ⟨hentry, hsalt⟩ := ofRaw_of_pos value hpos
    rw [hentry]
    show 0 < value.toUInt64.toNat ∧ value.toUInt64.toNat < 0x8000000000000000 ↔ _
    omega

theorem ofRaw_toRaw (n : Nat) (hn : n ≤ 2 ^ 63) (entry : Entry) (h : entry.Valid n) :
    ofRaw entry.toRaw = entry := by
  cases entry with
  | unset => rfl
  | direct slot =>
      have hslot : slot < n := h
      have hword : (toRaw (.direct slot)).toInt = -(slot : Int) - 1 := by
        rw [toInt_toRaw_direct]
        exact Int.bmod_eq_of_le (by omega) (by omega)
      have hback : (-(-(slot : Int) - 1 + 1)).toNat = slot := by omega
      rw [ofRaw_of_neg _ (by omega), hword, hback]
  | displacement salt =>
      obtain ⟨hpos, hlt⟩ := h
      have hword : (toRaw (.displacement salt)).toInt = (salt.toNat : Int) := by
        rw [toInt_toRaw_displacement]
        exact Int.bmod_eq_of_le (by omega) (by omega)
      rw [(ofRaw_of_pos _ (by omega)).1]
      rfl

end Entry

/-! ## Tables as arrays of words -/

namespace Table

variable {H : HashFamily}

theorem valid_iff (t : Table H) :
    t.Valid ↔ t.entries ≠ #[] ∧ (∀ slot, .direct slot ∈ t.entries → slot < t.size) ∧
      ∀ salt, .displacement salt ∈ t.entries → 1 ≤ salt.toNat ∧ salt.toNat ≤ 2 ^ 63 - 1 := by
  constructor
  · rintro ⟨hne, hall⟩
    refine ⟨hne, fun slot hslot => hall _ hslot, fun salt hsalt => ?_⟩
    obtain ⟨hpos, hlt⟩ := hall _ hsalt
    omega
  · rintro ⟨hne, hslots, hsalts⟩
    refine ⟨hne, fun entry hentry => ?_⟩
    cases entry with
    | unset => trivial
    | direct slot => exact hslots slot hentry
    | displacement salt =>
        have := hsalts salt hentry
        show 0 < salt.toNat ∧ salt.toNat < 0x8000000000000000
        omega

theorem toRaw_ofRawUnchecked (raw : RawTable) : (ofRawUnchecked H raw).toRaw = raw := by
  have hid : Entry.toRaw ∘ Entry.ofRaw = id := funext Entry.toRaw_ofRaw
  rw [toRaw, ofRawUnchecked, Array.map_map, hid, Array.map_id]

theorem size_ofRawUnchecked (raw : RawTable) : (ofRawUnchecked H raw).size = raw.size :=
  Array.size_map

theorem getElem?_ofRawUnchecked (raw : RawTable) (i : Nat) :
    (ofRawUnchecked H raw).entries[i]? = raw[i]?.map Entry.ofRaw :=
  Array.getElem?_map

/-- The validation of a table read from words is a bound on the words. -/
theorem valid_ofRawUnchecked_iff (raw : RawTable) :
    (ofRawUnchecked H raw).Valid ↔ raw ≠ #[] ∧ ∀ value ∈ raw, -(raw.size : Int) ≤ value.toInt := by
  unfold Valid
  rw [size_ofRawUnchecked]
  simp only [ofRawUnchecked, ne_eq, Array.map_eq_empty_iff, Array.forall_mem_map,
    Entry.valid_ofRaw_iff]

theorem ofRaw_eq_ok_iff (raw : RawTable) (t : Table H) :
    ofRaw H raw = .ok t ↔ ofRawUnchecked H raw = t ∧ t.Valid :=
  validate_eq_ok_iff _ t

/-- A valid table is read back from its signed form. -/
theorem ofRawUnchecked_toRaw (t : Table H) (hsize : t.size ≤ 2 ^ 63) (h : t.Valid) :
    ofRawUnchecked H t.toRaw = t := by
  have hentries : t.entries.map (fun entry => Entry.ofRaw entry.toRaw) = t.entries := by
    rw [Array.map_congr_left fun entry hentry =>
      Entry.ofRaw_toRaw t.size hsize entry (h.2 entry hentry)]
    exact Array.map_id' _
  show (⟨(t.entries.map Entry.toRaw).map Entry.ofRaw⟩ : Table H) = t
  rw [Array.map_map]
  exact congrArg (Table.mk (H := H)) hentries

/-- The tables that survive their signed form are the valid ones. -/
theorem ofRaw_toRaw_eq_ok_iff (t : Table H) (hsize : t.size ≤ 2 ^ 63) :
    ofRaw H t.toRaw = .ok t ↔ t.Valid := by
  rw [ofRaw_eq_ok_iff]
  exact ⟨fun h => h.2, fun h => ⟨t.ofRawUnchecked_toRaw hsize h, h⟩⟩

/-- The first entry that cannot occur is at the first word that is too low. -/
theorem firstCorrupt_ofRawUnchecked_iff (raw : RawTable) (i : Nat) (entry : Entry) :
    (ofRawUnchecked H raw).FirstCorrupt i entry ↔
      ∃ value, raw[i]? = some value ∧ value.toInt < -(raw.size : Int) ∧
        (∀ j < i, ∀ other, raw[j]? = some other → -(raw.size : Int) ≤ other.toInt) ∧
        entry = .ofRaw value := by
  unfold FirstCorrupt
  simp only [size_ofRawUnchecked, getElem?_ofRawUnchecked, Option.map_eq_some_iff,
    forall_exists_index, and_imp, forall_apply_eq_imp_iff₂, Entry.valid_ofRaw_iff]
  constructor
  · rintro ⟨⟨value, hvalue, rfl⟩, hlow, hbefore⟩
    rw [Entry.valid_ofRaw_iff, Int.not_le] at hlow
    exact ⟨value, hvalue, hlow, hbefore, rfl⟩
  · rintro ⟨value, hvalue, hlow, hbefore, rfl⟩
    refine ⟨⟨value, hvalue, rfl⟩, ?_, hbefore⟩
    rw [Entry.valid_ofRaw_iff, Int.not_le]
    exact hlow

/-- The words of a table are refused as empty or for the first one that is too low. -/
theorem ofRaw_eq_error_iff (raw : RawTable) (failure : Failure) :
    ofRaw H raw = .error failure ↔
      (raw = #[] ∧ failure = .emptyKeySet) ∨
        ∃ i value, raw[i]? = some value ∧ value.toInt < -(raw.size : Int) ∧
          (∀ j < i, ∀ other, raw[j]? = some other → -(raw.size : Int) ≤ other.toInt) ∧
          failure = .corruptEntry i value := by
  rw [ofRaw, validate_eq_error_iff]
  simp only [firstCorrupt_ofRawUnchecked_iff]
  refine or_congr (and_congr_left fun _ => Array.map_eq_empty_iff) ⟨?_, ?_⟩
  · rintro ⟨i, _, ⟨value, hvalue, hlow, hbefore, rfl⟩, rfl⟩
    exact ⟨i, value, hvalue, hlow, hbefore, by rw [Entry.toRaw_ofRaw]⟩
  · rintro ⟨i, value, hvalue, hlow, hbefore, rfl⟩
    exact ⟨i, _, ⟨value, hvalue, hlow, hbefore, rfl⟩, by rw [Entry.toRaw_ofRaw]⟩

/-- Signed forms and valid tables determine each other. The words of a table are accepted exactly
when there are some and none is below minus their number, and writing gives the words back;
otherwise the first word that is too low is reported. A table is read back from its signed form
exactly when it is valid. All this is arithmetic of 64-bit words that wrap. -/
theorem ofRaw_exact (H : HashFamily) :
    (∀ raw : RawTable,
      ((∃ t, ofRaw H raw = .ok t) ↔
        raw ≠ #[] ∧ ∀ value ∈ raw, -(raw.size : Int) ≤ value.toInt) ∧
      (∀ t, ofRaw H raw = .ok t → t.toRaw = raw) ∧
      ∀ failure, ofRaw H raw = .error failure ↔
        (raw = #[] ∧ failure = .emptyKeySet) ∨
          ∃ i value, raw[i]? = some value ∧ value.toInt < -(raw.size : Int) ∧
            (∀ j < i, ∀ other, raw[j]? = some other → -(raw.size : Int) ≤ other.toInt) ∧
            failure = .corruptEntry i value) ∧
    (∀ t : Table H, t.size < 2 ^ 63 →
      (ofRaw H t.toRaw = .ok t ↔
        t.entries ≠ #[] ∧ (∀ slot, .direct slot ∈ t.entries → slot < t.size) ∧
          ∀ salt, .displacement salt ∈ t.entries → 1 ≤ salt.toNat ∧ salt.toNat ≤ 2 ^ 63 - 1)) ∧
    (∀ slot : Nat, (Entry.toRaw (.direct slot)).toInt = (-(slot : Int) - 1).bmod (2 ^ 64)) ∧
    (∀ salt : Salt, (Entry.toRaw (.displacement salt)).toInt =
      (salt.toNat : Int).bmod (2 ^ 64)) ∧
    ∀ value, (Entry.ofRaw value).toRaw = value := by
  refine ⟨fun raw => ⟨?_, fun t h => ?_, ofRaw_eq_error_iff raw⟩, fun t hsize => ?_,
    Entry.toInt_toRaw_direct, Entry.toInt_toRaw_displacement, Entry.toRaw_ofRaw⟩
  · rw [← valid_ofRawUnchecked_iff (H := H)]
    simp only [ofRaw_eq_ok_iff, exists_eq_left']
  · obtain ⟨rfl, -⟩ := (ofRaw_eq_ok_iff raw t).mp h
    exact toRaw_ofRawUnchecked raw
  · rw [t.ofRaw_toRaw_eq_ok_iff (Nat.le_of_lt hsize), valid_iff]

/-- The greatest salt survives and the next one does not, nor does salt `0`. The lowest word is
reported where it stands, before a word that is only just too low. -/
theorem ofRaw_exact_halving :
    ∃ t u w : Table HashFamily.Arithmetic.halving,
      t.entries = #[.direct 2, .displacement 0x7FFFFFFFFFFFFFFF, .unset] ∧
      u.entries = #[.displacement 0x8000000000000000] ∧ w.entries = #[.displacement 0] ∧
      t.size < 2 ^ 63 ∧ u.size < 2 ^ 63 ∧ w.size < 2 ^ 63 ∧
      ofRaw HashFamily.Arithmetic.halving t.toRaw = .ok t ∧
      ofRaw HashFamily.Arithmetic.halving u.toRaw ≠ .ok u ∧
      ofRaw HashFamily.Arithmetic.halving w.toRaw ≠ .ok w ∧
      ofRaw HashFamily.Arithmetic.halving #[-3, Int64.minValue, -4] =
        .error (.corruptEntry 1 Int64.minValue) := by
  obtain ⟨hraw, htable, -⟩ := ofRaw_exact HashFamily.Arithmetic.halving
  refine ⟨⟨#[.direct 2, .displacement 0x7FFFFFFFFFFFFFFF, .unset]⟩,
    ⟨#[.displacement 0x8000000000000000]⟩, ⟨#[.displacement 0]⟩, rfl, rfl, rfl, by decide,
    by decide, by decide, ?_, fun h => ?_, fun h => ?_, ?_⟩
  · refine (htable _ (by decide)).mpr ⟨by decide, fun slot hslot => ?_, fun salt hsalt => ?_⟩
    · simp at hslot
      subst hslot
      decide
    · simp at hsalt
      subst hsalt
      decide
  · have := ((htable _ (by decide)).mp h).2.2 0x8000000000000000 (Array.mem_singleton.mpr rfl)
    exact absurd this.2 (by decide)
  · have := ((htable _ (by decide)).mp h).2.2 0 (Array.mem_singleton.mpr rfl)
    exact absurd this.1 (by decide)
  · refine ((hraw _).2.2 _).mpr (.inr ⟨1, Int64.minValue, rfl, by decide, ?_, rfl⟩)
    intro j hj other hother
    obtain rfl : j = 0 := by omega
    obtain rfl : -3 = other := by simpa using hother
    decide

end Table

end PerfectHash
