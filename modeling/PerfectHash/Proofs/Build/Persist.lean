import PerfectHash.Proofs.Build.Construct
import PerfectHash.Proofs.Table.Census
import PerfectHash.Proofs.Table.Lookup

set_option autoImplicit false

/-! # Built tables can be kept

The slots of a built table are in range and its salts are positive, so there is only one thing that
keeps it from being valid: a salt that is too large for the signed form. A build may try such
salts, as its bound is any word. Whether it has chosen one is told by the greatest salt
(`Chosen.valid_table_iff`).

A table that is valid is read back from its words and from its bytes as the very same table, so
it answers every key as before, and a lookup in the words does the same. The main statement is
`Table.build_restored_iff`.
-/

namespace PerfectHash

variable {H : HashFamily}

namespace Greedy

variable {bound : Salt} {keys : List Key}

theorem Suits.within {n : Nat} {entry : Entry} (h : Suits n bound keys entry) :
    entry.Within bound := by
  cases entry with
  | unset => trivial
  | direct slot => trivial
  | displacement salt => exact h.2.2

/-- A chosen entry can occur in a table unless its salt is too large. -/
theorem Suits.valid_iff {n : Nat} {entry : Entry} (h : Suits n bound keys entry) :
    entry.Valid n ↔ entry.Within 0x7FFFFFFFFFFFFFFF := by
  cases entry with
  | unset => exact Iff.rfl
  | direct slot => exact iff_of_true h.2 trivial
  | displacement salt =>
      have hone : 1 ≤ salt.toNat := UInt64.le_iff_toNat_le.mp h.2.1
      show 0 < salt.toNat ∧ salt.toNat < 0x8000000000000000 ↔ salt ≤ 0x7FFFFFFFFFFFFFFF
      rw [UInt64.le_iff_toNat_le]
      show _ ↔ salt.toNat ≤ 0x7FFFFFFFFFFFFFFF
      omega

namespace History

variable {history : History}

/-- An entry of the table was left unset, or it was chosen for some bucket. -/
theorem Chosen.suits_of_mem_table (h : history.Chosen H bound keys) (entry : Entry)
    (hentry : entry ∈ (table H keys history).entries) :
    entry = .unset ∨ ∃ b, Suits keys.length bound (group H keys b) entry := by
  have hmem : entry ∈ entries keys.length history := List.mem_toArray.mp hentry
  exact (exists_visit_of_mem_entries _ history entry hmem).imp_right
    fun ⟨b, hb⟩ => ⟨b, h.suits b entry hb⟩

theorem Chosen.maxSalt_table_le (h : history.Chosen H bound keys) :
    (table H keys history).census.maxSalt ≤ bound := by
  rw [Table.maxSalt_census_le_iff]
  intro entry hentry
  rcases h.suits_of_mem_table entry hentry with rfl | ⟨b, hsuits⟩
  · trivial
  · exact hsuits.within

theorem Chosen.valid_table_iff (h : history.Chosen H bound keys) (hne : keys ≠ []) :
    (table H keys history).Valid ↔
      (table H keys history).census.maxSalt ≤ 0x7FFFFFFFFFFFFFFF := by
  have hentries : (table H keys history).entries ≠ #[] := by
    rw [← Array.size_pos_iff]
    show 0 < (table H keys history).size
    rw [size_table]
    exact List.length_pos_iff.mpr hne
  rw [Table.maxSalt_census_le_iff]
  refine (and_iff_right hentries).trans (forall₂_congr fun entry hentry => ?_)
  rcases h.suits_of_mem_table entry hentry with rfl | ⟨b, hsuits⟩
  · exact Iff.rfl
  · rw [size_table, hsuits.valid_iff]

end History

end Greedy

namespace Table

open Greedy (History)

theorem ofBytes_toBytes_eq_ok_iff (t : Table H) (hsize : t.size < 2 ^ 64) :
    ofBytes H t.toBytes = .ok t ↔ t.Valid := by
  rw [ofBytes_eq_ok_iff_isPrefix]
  exact ⟨fun h => h.1.1, fun h => ⟨⟨h, hsize⟩, List.prefix_rfl⟩⟩

/-- What a build gives is valid unless a salt is too large, which the bound on the salts can
exclude. -/
theorem valid_iff_of_build (options : BuildOptions) (keys : List Key) (t : Table H)
    (h : build H options keys = .ok t) :
    (t.Valid ↔ t.census.maxSalt ≤ 0x7FFFFFFFFFFFFFFF) ∧ t.census.maxSalt ≤ options.maxSalt ∧
      t.size = keys.length ∧ t.IsBijectionOn keys := by
  obtain ⟨⟨hne, -⟩, history, hrun, rfl⟩ := (build_eq_ok_iff options keys t).mp h
  obtain ⟨-, hchosen⟩ := (History.ofOrder_eq_ok_iff _ keys _ history).mp hrun
  exact ⟨hchosen.valid_table_iff hne, hchosen.maxSalt_table_le, Greedy.History.size_table,
    (Greedy.History.isBijectionOn_of_visits _ keys history hrun).2⟩

/-- A built table is read back from its words, and from its bytes, exactly when its greatest salt
is below `2 ^ 63`, as it is under any bound below `2 ^ 63`. What is read back passes the check of
the table, and every key, built in or not, is answered alike by the table, by what is read back
and by a lookup in the words. -/
theorem build_restored_iff (H : HashFamily) (options : BuildOptions) (keys : List Key)
    (t : Table H) (hsize : keys.length < 2 ^ 63) (h : build H options keys = .ok t) :
    (ofRaw H t.toRaw = .ok t ↔ t.census.maxSalt.toNat ≤ 2 ^ 63 - 1) ∧
    (ofBytes H t.toBytes = .ok t ↔ t.census.maxSalt.toNat ≤ 2 ^ 63 - 1) ∧
    (options.maxSalt.toNat ≤ 2 ^ 63 - 1 → t.census.maxSalt.toNat ≤ 2 ^ 63 - 1) ∧
    (t.census.maxSalt.toNat ≤ 2 ^ 63 - 1 →
      ∃ fromRaw fromBytes, ofRaw H t.toRaw = .ok fromRaw ∧ ofBytes H t.toBytes = .ok fromBytes ∧
        fromRaw.checkBijective keys = .ok () ∧ fromBytes.checkBijective keys = .ok () ∧
        ∀ key, ∃ found, t.lookup key = .ok found ∧ fromRaw.lookup key = .ok found ∧
          fromBytes.lookup key = .ok found ∧ RawTable.lookup H t.toRaw key = .ok found) := by
  obtain ⟨hvalid, hmax, hlength, hbijection⟩ := valid_iff_of_build options keys t h
  rw [UInt64.le_iff_toNat_le] at hvalid hmax
  have hraw := t.ofRaw_toRaw_eq_ok_iff (by omega)
  have hbytes := t.ofBytes_toBytes_eq_ok_iff (by omega)
  refine ⟨hraw.trans hvalid, hbytes.trans hvalid, fun hbound => Nat.le_trans hmax hbound,
    fun hkept => ?_⟩
  have ht : t.Valid := hvalid.mpr hkept
  have hcheck := hbijection.checkBijective_eq_ok
  refine ⟨t, t, hraw.mpr ht, hbytes.mpr ht, hcheck, hcheck, fun key => ?_⟩
  obtain ⟨found, hfound, -⟩ := ht.exists_lookup_lt key
  have hback := t.ofRawUnchecked_toRaw (by omega) ht
  have hlookup := RawTable.lookup_eq_of_valid (H := H) t.toRaw key (hback.symm ▸ ht)
  rw [hback] at hlookup
  exact ⟨found, hfound, hfound, hfound, hlookup.trans hfound⟩

/-- Five keys under a bound of four salts. The key `13` was not built in, and gets a slot from the
entry of the keys `3` and `8` all the same. -/
theorem build_restored_iff_halving :
    ([10, 3, 7, 21, 8] : List Key).length < 2 ^ 63 ∧
      ∃ t, build HashFamily.Arithmetic.halving { maxSalt := 4 } [10, 3, 7, 21, 8] = .ok t ∧
        t.census.maxSalt.toNat ≤ 2 ^ 63 - 1 ∧
        ofRaw HashFamily.Arithmetic.halving t.toRaw = .ok t ∧
        ofBytes HashFamily.Arithmetic.halving t.toBytes = .ok t ∧
        t.lookup 13 = .ok (some 4) ∧
        RawTable.lookup HashFamily.Arithmetic.halving t.toRaw 13 = .ok (some 4) := by
  obtain ⟨hraw, hbytes, hbound, hkept⟩ := build_restored_iff HashFamily.Arithmetic.halving
    { maxSalt := 4 } [10, 3, 7, 21, 8] _ (by decide) build_halving
  have hmax := hbound (by decide)
  obtain ⟨_, _, -, -, -, -, hlookup⟩ := hkept hmax
  obtain ⟨found, hfound, -, -, hwords⟩ := hlookup 13
  cases hfound.symm.trans (rfl : _ = Except.ok (some 4))
  exact ⟨by decide, _, build_halving, hmax, hraw.mpr hmax, hbytes.mpr hmax, hfound, hwords⟩

end Table

end PerfectHash
