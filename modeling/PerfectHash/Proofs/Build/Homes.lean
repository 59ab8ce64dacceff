import Mathlib.Data.Finset.Card
import PerfectHash.Hash.Families
import PerfectHash.Proofs.Build.Construct
import PerfectHash.Proofs.Placement.AnyOrder
import PerfectHash.Proofs.Table.Lookup

set_option autoImplicit false

/-! # The home of a key decides its lookup

A built table serves its keys: every bucket has the entry that its keys call for, and no two keys
share a slot (`Table.Serves`, `Table.serves_of_build`). How a table answers a key that was not
built in follows from this alone. The key is answered as the keys of its home bucket are, and the
number of these tells how (`Table.lookup_by_home`): without any it has no slot, with one it has the
slot of that key, and with several it has the slot to which their salt sends it.
-/

namespace PerfectHash

variable {H : HashFamily}

/-! ## The sizes of buckets -/

namespace Greedy

theorem group_eq_nil_iff (keys : List Key) (b : Nat) :
    group H keys b = [] ↔ ∀ key ∈ keys, H.home keys.length key ≠ b := by
  simp [group, List.filter_eq_nil_iff]

/-- A bucket has several keys when two keys share it as their home. -/
theorem two_le_length_group_iff (keys : List Key) (hnodup : keys.Nodup) (b : Nat) :
    2 ≤ (group H keys b).length ↔ ∃ key ∈ keys, ∃ other ∈ keys, key ≠ other ∧
      H.home keys.length key = b ∧ H.home keys.length other = b := by
  have hgroup : (group H keys b).Nodup := hnodup.filter _
  rw [← List.toFinset_card_of_nodup hgroup]
  show 1 < _ ↔ _
  rw [Finset.one_lt_card]
  simp only [List.mem_toFinset, mem_group]
  constructor
  · rintro ⟨key, ⟨hkey, hhome⟩, other, ⟨hother, hhome'⟩, hne⟩
    exact ⟨key, hkey, other, hother, hne, hhome, hhome'⟩
  · rintro ⟨key, hkey, other, hother, hne, hhome, hhome'⟩
    exact ⟨key, ⟨hkey, hhome⟩, other, ⟨hother, hhome'⟩, hne⟩

end Greedy

namespace Table

open Greedy (History)

/-! ## Tables that serve their keys -/

/-- The entry of every bucket is of the kind that its keys call for, and the keys are sent
one-to-one onto the slots. -/
structure Serves (t : Table H) (bound : Salt) (keys : List Key) : Prop where
  suits : ∀ b < keys.length, ∃ entry, t.entries[b]? = some entry ∧
    Greedy.Suits keys.length bound (Greedy.group H keys b) entry
  bijective : t.IsBijectionOn keys

/-- A run over the visits leaves no bucket with keys unset. -/
theorem serves_of_visits (bound : Salt) (keys : List Key) (history : History)
    (h : History.ofOrder H bound keys (Greedy.visits H keys) = .ok history) :
    (History.table H keys history).Serves bound keys where
  suits b hb := by
    obtain ⟨hmap, hchosen⟩ := (History.ofOrder_eq_ok_iff _ keys _ history).mp h
    obtain ⟨entry, hentry, hkind⟩ := hchosen.exists_entry b hb
    refine ⟨entry, by rw [History.table, List.getElem?_toArray, hentry], ?_⟩
    rcases hkind with ⟨hunvisited, rfl⟩ | ⟨-, hsuits⟩
    · by_contra hne
      apply hunvisited
      rw [hmap, List.mem_reverse, Greedy.mem_visits]
      exact ⟨hb, hne⟩
    · exact hsuits
  bijective := (Greedy.History.isBijectionOn_of_visits _ keys history h).2

theorem serves_of_build (options : BuildOptions) (keys : List Key) (t : Table H)
    (h : build H options keys = .ok t) : t.Serves options.maxSalt keys := by
  obtain ⟨-, history, hrun, rfl⟩ := (build_eq_ok_iff options keys t).mp h
  exact serves_of_visits options.maxSalt keys history hrun

section Serves

variable {t : Table H} {bound : Salt} {keys : List Key} (h : t.Serves bound keys)
include h

theorem Serves.size_eq : t.size = keys.length := h.bijective.length_eq.symm

theorem Serves.nodup : keys.Nodup := h.bijective.nodup

/-- A bucket has one entry, and that entry decides the lookups of all keys with this home. -/
theorem Serves.exists_entry (b : Nat) (hb : b < keys.length) :
    ∃ entry, t.entries[b]? = some entry ∧
      Greedy.Suits keys.length bound (Greedy.group H keys b) entry ∧
      ∀ query, H.home keys.length query = b →
        t.lookup query = .ok (slotIn H keys.length query entry) := by
  obtain ⟨entry, hentry, hsuits⟩ := h.suits b hb
  refine ⟨entry, hentry, hsuits, fun query hhome => ?_⟩
  rw [← h.size_eq] at hhome ⊢
  exact t.lookup_eq_slotIn query entry (hhome ▸ hentry)

theorem Serves.lookup_eq_none_iff (hne : keys ≠ []) (query : Key) :
    t.lookup query = .ok none ↔
      ∀ key ∈ keys, H.home keys.length key ≠ H.home keys.length query := by
  obtain ⟨entry, -, hsuits, hlookup⟩ :=
    h.exists_entry _ (H.home_lt keys.length query (List.length_pos_iff.mpr hne))
  rw [hlookup query rfl, Except.ok.injEq, slotIn_eq_none_iff, hsuits.eq_unset_iff,
    Greedy.group_eq_nil_iff]

/-- A key is answered like the only key with its home. -/
theorem Serves.lookup_eq_of_unique (query key : Key) (hkey : key ∈ keys)
    (hhome : H.home keys.length key = H.home keys.length query)
    (hunique : ∀ other ∈ keys, H.home keys.length other = H.home keys.length query →
      other = key) : t.lookup query = t.lookup key := by
  obtain ⟨entry, -, hsuits, hlookup⟩ :=
    h.exists_entry _ (H.home_lt keys.length query (List.length_pos_of_mem hkey))
  have hpos : 0 < (Greedy.group H keys (H.home keys.length query)).length :=
    List.length_pos_of_mem ((Greedy.mem_group H keys _ key).mpr ⟨hkey, hhome⟩)
  have hfew : ¬ 2 ≤ (Greedy.group H keys (H.home keys.length query)).length := by
    rw [Greedy.two_le_length_group_iff keys h.nodup]
    rintro ⟨first, hfirst, second, hsecond, hdiffer, hhome', hhome''⟩
    exact hdiffer ((hunique first hfirst hhome').trans (hunique second hsecond hhome'').symm)
  obtain ⟨slot, -, rfl⟩ := hsuits.exists_direct (by omega)
  calc t.lookup query
    _ = .ok (some slot) := hlookup query rfl
    _ = t.lookup key := (hlookup key hhome).symm

theorem Serves.slot_inj (b : Nat) (salt : Salt)
    (hlookup : ∀ query, H.home keys.length query = b →
      t.lookup query = .ok (some (H.slot keys.length salt query)))
    (key other : Key) (hkey : key ∈ keys) (hother : other ∈ keys)
    (hhome : H.home keys.length key = b) (hhome' : H.home keys.length other = b)
    (hslot : H.slot keys.length salt key = H.slot keys.length salt other) : key = other := by
  apply h.bijective.lookup_inj key other hkey hother
  rw [hlookup key hhome, hlookup other hhome', hslot]

theorem Serves.exists_salt (b : Nat) (hb : 2 ≤ (Greedy.group H keys b).length) :
    ∃ salt, 1 ≤ salt ∧ salt ≤ bound ∧ t.entries[b]? = some (.displacement salt) ∧
      ∀ query, H.home keys.length query = b →
        t.lookup query = .ok (some (H.slot keys.length salt query)) := by
  obtain ⟨key, hmem⟩ := List.exists_mem_of_length_pos (Nat.lt_of_lt_of_le Nat.two_pos hb)
  obtain ⟨hkey, hhome⟩ := (Greedy.mem_group H keys b key).mp hmem
  have hlt : b < keys.length := by
    rw [← hhome]
    exact H.home_lt keys.length key (List.length_pos_of_mem hkey)
  obtain ⟨entry, hentry, hsuits, hlookup⟩ := h.exists_entry b hlt
  obtain ⟨salt, hone, hle, rfl⟩ := hsuits.exists_displacement hb
  exact ⟨salt, hone, hle, hentry, hlookup⟩

theorem Serves.exists_slot (key : Key) (hkey : key ∈ keys) :
    ∃ slot < keys.length, t.lookup key = .ok (some slot) :=
  h.size_eq ▸ h.bijective.exists_slot key hkey

theorem Serves.exists_key (slot : Nat) (hslot : slot < keys.length) :
    ∃ key ∈ keys, t.lookup key = .ok (some slot) :=
  h.bijective.exists_key slot (h.size_eq.symm ▸ hslot)

end Serves

/-! ## Lookups of any key -/

/-- In a built table the lookup of a key, built in or not, is decided by the keys with its home.
Without such a key there is no slot, and only then, so that the keys that were built in are found.
With one such key it is the slot of that key. With several it is the slot under a salt within the
bound, which is that of the bucket and sends its keys to distinct slots. -/
theorem lookup_by_home (H : HashFamily) (options : BuildOptions) (keys : List Key) (t : Table H)
    (h : build H options keys = .ok t) :
    (∀ query, t.lookup query = .ok none ↔
      ∀ key ∈ keys, H.home keys.length key ≠ H.home keys.length query) ∧
    (∀ key ∈ keys, ∃ slot < keys.length, t.lookup key = .ok (some slot)) ∧
    (∀ query, ∀ key ∈ keys, H.home keys.length key = H.home keys.length query →
      (∀ other ∈ keys, H.home keys.length other = H.home keys.length query → other = key) →
      t.lookup query = t.lookup key) ∧
    ∀ b, (∃ key ∈ keys, ∃ other ∈ keys, key ≠ other ∧
        H.home keys.length key = b ∧ H.home keys.length other = b) →
      ∃ salt, 1 ≤ salt ∧ salt ≤ options.maxSalt ∧ t.entries[b]? = some (.displacement salt) ∧
        (∀ query, H.home keys.length query = b →
          t.lookup query = .ok (some (H.slot keys.length salt query))) ∧
        ∀ key ∈ keys, ∀ other ∈ keys, H.home keys.length key = b →
          H.home keys.length other = b →
          H.slot keys.length salt key = H.slot keys.length salt other → key = other := by
  obtain ⟨⟨hne, hnodup⟩, -⟩ := (build_eq_ok_iff options keys t).mp h
  have hserves := serves_of_build options keys t h
  refine ⟨hserves.lookup_eq_none_iff hne, hserves.exists_slot, ?_, fun b hshared => ?_⟩
  · intro query key hkey hhome hunique
    exact hserves.lookup_eq_of_unique query key hkey hhome hunique
  · obtain ⟨salt, hone, hle, hentry, hlookup⟩ :=
      hserves.exists_salt b ((Greedy.two_le_length_group_iff keys hnodup b).mpr hshared)
    refine ⟨salt, hone, hle, hentry, hlookup, fun key hkey other hother => ?_⟩
    exact hserves.slot_inj b salt hlookup key other hkey hother

open HashFamily.Arithmetic in
/-- Of the keys `4`, `5` and `13`, none was built in. The first has a home of its own, the second
shares its home with the key `10`, and the third with the keys `3` and `8`. -/
theorem lookup_by_home_halving :
    ∃ t, build halving { maxSalt := 4 } [10, 3, 7, 21, 8] = .ok t ∧
      t.lookup 4 = .ok none ∧ t.lookup 5 = t.lookup 10 ∧
      ∃ salt, 1 ≤ salt ∧ salt ≤ 4 ∧ t.lookup 13 = .ok (some (halving.slot 5 salt 13)) ∧
        t.lookup 3 = .ok (some (halving.slot 5 salt 3)) ∧
        halving.slot 5 salt 3 ≠ halving.slot 5 salt 8 := by
  have hfour : ∀ key ∈ ([10, 3, 7, 21, 8] : List Key), halving.home 5 key ≠ halving.home 5 4 := by
    simp only [List.forall_mem_cons, List.not_mem_nil, IsEmpty.forall_iff, implies_true]
    decide
  have hfive : ∀ key ∈ ([10, 3, 7, 21, 8] : List Key), halving.home 5 key = halving.home 5 5 →
      key = 10 := by
    simp only [List.forall_mem_cons, List.not_mem_nil, IsEmpty.forall_iff, implies_true]
    decide
  obtain ⟨hnone, -, hunique, hshared⟩ := lookup_by_home halving _ _ _ build_halving
  obtain ⟨salt, hone, hle, -, hlookup, hinj⟩ :=
    hshared 3 ⟨3, by decide, 8, by decide, by decide, by decide, by decide⟩
  refine ⟨_, build_halving, (hnone 4).mpr hfour, hunique 5 10 (by decide) (by decide) hfive,
    salt, hone, hle, hlookup 13 (by decide), hlookup 3 (by decide), fun hslot => ?_⟩
  exact absurd (hinj 3 (by decide) 8 (by decide) (by decide) (by decide) hslot) (by decide)

end Table

end PerfectHash
