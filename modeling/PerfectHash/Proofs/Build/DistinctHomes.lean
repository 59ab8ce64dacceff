import Mathlib.Data.List.TFAE
import Mathlib.Tactic.TFAE
import PerfectHash.Proofs.Build.Gaps

set_option autoImplicit false

/-! # Keys with distinct homes

There are as many buckets as keys. So no two keys share a bucket exactly when no bucket is empty,
and both is said of the list of the homes: it has no repetition (`Greedy.nodup_homesOf_iff_le_one`,
`Greedy.nodup_homesOf_iff_ne_nil`). For such keys there is nothing to search: no bucket has a salt,
every slot is a gap, and the keys fill the gaps in the order of their homes. So every key is at its
home, and the bound on the salts plays no part. The main statement is
`Table.distinct_homes_need_no_search`.
-/

namespace PerfectHash

variable {H : HashFamily}

/-! ## Homes without repetition -/

namespace Greedy

theorem nodup_homesOf_iff_le_one (keys : List Key) :
    (homesOf H keys).Nodup ↔ ∀ b, (group H keys b).length ≤ 1 := by
  simp only [List.nodup_iff_count_le_one, length_group]

theorem mem_homesOf_iff (keys : List Key) (b : Nat) :
    b ∈ homesOf H keys ↔ group H keys b ≠ [] := by
  rw [← List.length_pos_iff, length_group, List.count_pos_iff]

/-- The homes are distinct when no bucket is empty. -/
theorem nodup_homesOf_iff_ne_nil (keys : List Key) :
    (homesOf H keys).Nodup ↔ ∀ b < keys.length, group H keys b ≠ [] := by
  have hlength : (homesOf H keys).length = (List.range keys.length).length := by
    rw [homesOf, List.length_map, List.length_range]
  simp only [← mem_homesOf_iff, ← List.mem_range]
  constructor
  · intro hnodup b hb
    have hsubset : homesOf H keys ⊆ List.range keys.length :=
      fun home hhome => List.mem_range.mpr (homesOf_lt H keys home hhome)
    exact ((hnodup.subperm hsubset).perm_of_length_le hlength.ge).mem_iff.mpr hb
  · intro hall
    have hsubset : List.range keys.length ⊆ homesOf H keys := fun b hb => hall b hb
    have hperm := (List.nodup_range.subperm hsubset).perm_of_length_le hlength.le
    exact hperm.nodup_iff.mp List.nodup_range

end Greedy

/-! ## Builds without a search -/

theorem map_direct_filterMap_slot? (entries : List Entry)
    (h : ∀ entry ∈ entries, ∃ slot, entry = .direct slot) :
    (entries.filterMap Entry.slot?).map .direct = entries := by
  rw [List.map_filterMap]
  have hself := List.filterMap_eq_map_iff_forall_eq_some
    (f := fun entry : Entry => entry.slot?.map Entry.direct) (g := id) (l := entries)
  rw [List.map_id] at hself
  refine hself.mpr fun entry hentry => ?_
  obtain ⟨slot, rfl⟩ := h entry hentry
  rfl

namespace Table

open Greedy (History)

section Build

variable {options : BuildOptions} {keys : List Key} {t : Table H}
  (h : build H options keys = .ok t) (hhomes : (homesOf H keys).Nodup)
include h hhomes

theorem exists_direct_of_build (entry : Entry) (hentry : entry ∈ t.entries.toList) :
    ∃ slot, entry = .direct slot := by
  have hserves := serves_of_build options keys t h
  obtain ⟨b, hb⟩ := List.getElem?_of_mem hentry
  rw [Array.getElem?_toList] at hb
  have hlt : b < keys.length := by
    rw [← hserves.size_eq]
    exact (Array.getElem?_eq_some_iff.mp hb).1
  have hone : (Greedy.group H keys b).length = 1 := by
    have hle := (Greedy.nodup_homesOf_iff_le_one keys).mp hhomes b
    have hpos := List.length_pos_iff.mpr ((Greedy.nodup_homesOf_iff_ne_nil keys).mp hhomes b hlt)
    omega
  obtain ⟨entry', hentry', hsuits, -⟩ := hserves.exists_entry b hlt
  cases hb.symm.trans hentry'
  obtain ⟨slot, -, hslot⟩ := hsuits.exists_direct hone
  exact ⟨slot, hslot⟩

/-- Without salts every slot is a gap, and every key is at its home. -/
theorem entries_eq_of_build : t.entries.toList = (List.range keys.length).map .direct := by
  have hdirect := exists_direct_of_build h hhomes
  have hnone : t.displacedSlots keys = [] := by
    refine List.eq_nil_iff_forall_not_mem.mpr fun slot hslot => ?_
    obtain ⟨key, -, salt, hentry, -⟩ := (mem_displacedSlots t keys slot).mp hslot
    obtain ⟨other, heq⟩ := hdirect _ (Array.mem_toList_iff.mpr (Array.mem_of_getElem? hentry))
    cases heq
  calc t.entries.toList
    _ = t.directSlots.map .direct := (map_direct_filterMap_slot? _ hdirect).symm
    _ = ((List.range keys.length).filter (· ∉ t.displacedSlots keys)).map .direct := by
        rw [directSlots_eq_of_build h]
    _ = (List.range keys.length).map .direct := by simp [hnone]

/-- Every key, built in or not, has its home as its slot. -/
theorem lookup_eq_home_of_build (query : Key) :
    t.lookup query = .ok (some (H.home keys.length query)) := by
  obtain ⟨⟨hne, -⟩, -⟩ := (build_eq_ok_iff options keys t).mp h
  have hhome := H.home_lt keys.length query (List.length_pos_iff.mpr hne)
  obtain ⟨entry, hentry, -, hlookup⟩ := (serves_of_build options keys t h).exists_entry _ hhome
  rw [← Array.getElem?_toList, entries_eq_of_build h hhomes, List.getElem?_map,
    List.getElem?_range hhome, Option.map_some, Option.some_inj] at hentry
  rw [hlookup query rfl, ← hentry, slotIn]

end Build

theorem exists_buildWithReport_of_homes (options : BuildOptions) (keys : List Key)
    (hne : keys ≠ []) (hnodup : keys.Nodup) (hhomes : (homesOf H keys).Nodup) :
    ∃ t report, buildWithReport H options keys = .ok (t, report) ∧
      t.entries.toList = (List.range keys.length).map .direct ∧ report.cost.attempts = 0 := by
  have hbuild := buildWithReport_eq (H := H) options keys hne hnodup
  cases hrun : History.ofOrder H options.maxSalt keys (Greedy.visits H keys) with
  | error failed =>
      rcases failed with ⟨b, before⟩
      have htwo := Greedy.History.two_le_of_ofOrder_eq_error _ keys _ b before
        (Greedy.nodup_visits keys) hrun
      have hle := (Greedy.nodup_homesOf_iff_le_one keys).mp hhomes b
      omega
  | ok history =>
      rw [hrun] at hbuild
      have htable : build H options keys = .ok (History.table H keys history) := by
        rw [build_eq_map, hbuild]
        rfl
      have hentries := entries_eq_of_build htable hhomes
      obtain ⟨-, -, hattempts, -⟩ :=
        Greedy.History.cost_entries_of_visits hrun (Greedy.visits H keys).length
      refine ⟨_, _, hbuild, hentries, UInt64.toNat_inj.mp ?_⟩
      -- The salts that were tried are the salts of the table, and there are none.
      have hsalts : (History.entries keys.length history).filterMap Entry.salt? = [] := by
        rw [show History.entries keys.length history = _ from hentries, List.filterMap_map]
        exact List.filterMap_eq_nil_iff.mpr fun b _ => rfl
      show (History.cost keys.length _ history).attempts.toNat = 0
      rw [hattempts, hsalts]
      rfl

/-- For a key set the following are equivalent: no two keys have the same home; the build succeeds
when it may try no salt; under every bound it gives the table whose entry at `b` is the slot `b`,
and tries no salt; under some bound it gives a table without an unset entry. In that case every
key, built in or not, has its home as its slot. -/
theorem distinct_homes_need_no_search (H : HashFamily) (options : BuildOptions) (keys : List Key)
    (hne : keys ≠ []) (hnodup : keys.Nodup) :
    [∀ key ∈ keys, ∀ other ∈ keys,
        H.home keys.length key = H.home keys.length other → key = other,
      ∃ t, build H { options with maxSalt := 0 } keys = .ok t,
      ∀ bound, ∃ t report, buildWithReport H { options with maxSalt := bound } keys =
          .ok (t, report) ∧
        t.entries.toList = (List.range keys.length).map .direct ∧ report.cost.attempts = 0,
      ∃ bound t, build H { options with maxSalt := bound } keys = .ok t ∧
        ∀ entry ∈ t.entries, entry ≠ .unset].TFAE ∧
    ((∀ key ∈ keys, ∀ other ∈ keys,
        H.home keys.length key = H.home keys.length other → key = other) →
      ∀ bound t, build H { options with maxSalt := bound } keys = .ok t →
        ∀ query, t.lookup query = .ok (some (H.home keys.length query))) := by
  rw [← List.nodup_map_iff_inj_on hnodup]
  refine ⟨?_, fun hhomes bound t h => lookup_eq_home_of_build h hhomes⟩
  tfae_have 1 → 3 := fun hhomes bound =>
    exists_buildWithReport_of_homes { options with maxSalt := bound } keys hne hnodup hhomes
  tfae_have 3 → 2 := by
    intro hbuild
    obtain ⟨t, report, hreport, -⟩ := hbuild 0
    exact ⟨t, by rw [build_eq_map, hreport]; rfl⟩
  tfae_have 3 → 4 := by
    intro hbuild
    obtain ⟨t, report, hreport, hentries, -⟩ := hbuild 0
    refine ⟨0, t, by rw [build_eq_map, hreport]; rfl, fun entry hentry => ?_⟩
    rw [← Array.mem_toList_iff, hentries] at hentry
    obtain ⟨slot, -, rfl⟩ := List.mem_map.mp hentry
    exact nofun
  tfae_have 2 → 1 := by
    rintro ⟨t, h⟩
    refine (Greedy.nodup_homesOf_iff_le_one keys).mpr fun b => ?_
    by_contra hseveral
    -- A bucket of several keys would have a positive salt that is at most `0`.
    obtain ⟨salt, hone, hle, -⟩ :=
      (serves_of_build _ keys t h).exists_salt b (Nat.lt_of_not_le hseveral)
    have hpositive : ¬ (1 : Salt) ≤ 0 := by decide
    exact hpositive (UInt64.le_trans hone hle)
  tfae_have 4 → 1 := by
    rintro ⟨bound, t, h, hset⟩
    refine (Greedy.nodup_homesOf_iff_ne_nil keys).mpr fun b hb hempty => ?_
    obtain ⟨entry, hentry, hsuits, -⟩ := (serves_of_build _ keys t h).exists_entry b hb
    exact hset entry (Array.mem_of_getElem? hentry) (hsuits.eq_unset_iff.mpr hempty)
  tfae_finish

open HashFamily.Arithmetic in
/-- The homes of `10`, `11` and `12` among three buckets are distinct. Of the five other keys, `3`
and `8` share a home. -/
theorem distinct_homes_need_no_search_halving :
    ([10, 11, 12] : List Key) ≠ [] ∧ ([10, 11, 12] : List Key).Nodup ∧
      (∃ t report, buildWithReport halving { maxSalt := 7 } [10, 11, 12] = .ok (t, report) ∧
        t.entries.toList = [.direct 0, .direct 1, .direct 2] ∧ report.cost.attempts = 0 ∧
        t.lookup 20 = .ok (some 2)) ∧
      ¬ ∃ t, build halving { maxSalt := 0 } [10, 3, 7, 21, 8] = .ok t := by
  refine ⟨by decide, by decide, ?_, ?_⟩
  · obtain ⟨hequiv, hlookup⟩ :=
      distinct_homes_need_no_search halving {} [10, 11, 12] (by decide) (by decide)
    have hhomes : ∀ key ∈ ([10, 11, 12] : List Key), ∀ other ∈ ([10, 11, 12] : List Key),
        halving.home 3 key = halving.home 3 other → key = other := by
      simp only [List.forall_mem_cons, List.not_mem_nil, IsEmpty.forall_iff, implies_true]
      decide
    have hbound := hequiv.out 0 2
    obtain ⟨t, report, hreport, hentries, hattempts⟩ := hbound.mp hhomes 7
    have hbuild : build halving { maxSalt := 7 } [10, 11, 12] = .ok t := by
      rw [build_eq_map, hreport]
      rfl
    exact ⟨t, report, hreport, hentries, hattempts, hlookup hhomes 7 t hbuild 20⟩
  · obtain ⟨hequiv, -⟩ :=
      distinct_homes_need_no_search halving {} [10, 3, 7, 21, 8] (by decide) (by decide)
    have hzero := hequiv.out 0 1
    intro hbuild
    have hhomes := hzero.mpr hbuild
    exact absurd (hhomes 3 (by decide) 8 (by decide) (by decide)) (by decide)

end Table

end PerfectHash
