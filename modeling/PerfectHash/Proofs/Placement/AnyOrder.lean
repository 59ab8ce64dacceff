import PerfectHash.Hash.Families
import PerfectHash.Proofs.Placement.Lookup

set_option autoImplicit false

/-! # Placements in any order

The buckets need not be placed from the largest to the smallest, and an order may leave buckets
out or visit them again. A bucket that is visited again gets a new entry and new slots, and its
old slots are lost. Still a placement that succeeds is sound (`ofBuckets_any_order`): every entry
is of the kind that its bucket calls for, and no two keys of the visited buckets share a slot.

How many visits there can be is a matter of counting. A run claims one slot for every key of every
visit, and there are no more slots than keys. So if all keys are visited, none is visited twice
(`Chosen.count_le_one`), and all slots are taken.
-/

namespace PerfectHash

variable {H : HashFamily}

/-- When the keys of a list of groups are sent apart, a lookup determines the group and the
position in it. -/
theorem Table.SendsApart.group_position_inj {t : Table H} {groups : Nat → List Key}
    {buckets slots : List Nat} (h : t.SendsApart (buckets.flatMap groups) slots) (b c : Nat)
    (hb : b ∈ buckets) (hc : c ∈ buckets) (i j : Nat) (hi : i < (groups b).length)
    (hj : j < (groups c).length) (hsame : t.lookup (groups b)[i] = t.lookup (groups c)[j]) :
    b = c ∧ i = j := by
  have hnodup : (buckets.flatMap fun b => (groups b).map t.lookup).Nodup := by
    rw [← List.map_flatMap, h.lookup_eq]
    exact h.nodup.map Table.injective_found
  obtain ⟨hinside, hacross⟩ := List.nodup_flatMap.mp hnodup
  have hbc : b = c := by
    by_contra hne
    have : Std.Symm (Function.onFun List.Disjoint fun b => (groups b).map t.lookup) :=
      ⟨fun _ _ h => List.disjoint_symm h⟩
    have hdisjoint : List.Disjoint ((groups b).map t.lookup) ((groups c).map t.lookup) :=
      hacross.forall hb hc hne
    apply hdisjoint (a := t.lookup (groups b)[i]) (List.mem_map_of_mem (List.getElem_mem hi))
    rw [hsame]
    exact List.mem_map_of_mem (List.getElem_mem hj)
  subst hbc
  refine ⟨rfl, ?_⟩
  have hi' : i < ((groups b).map t.lookup).length := by simpa using hi
  have hj' : j < ((groups b).map t.lookup).length := by simpa using hj
  have hmapped : ((groups b).map t.lookup)[i] = ((groups b).map t.lookup)[j] := by
    simpa using hsame
  exact (hinside b hb).getElem_inj_iff.mp hmapped

namespace Greedy.History

variable {bound : Salt} {keys : List Key} {history : History}

/-- A bucket that was not visited has no entry, and the entry of any other suits its keys. -/
theorem Chosen.exists_entry (h : history.Chosen H bound keys) (b : Nat) (hb : b < keys.length) :
    ∃ entry, (entries keys.length history)[b]? = some entry ∧
      ((b ∉ history.map Prod.fst ∧ entry = .unset) ∨
        (b ∈ history.map Prod.fst ∧ Suits keys.length bound (group H keys b) entry)) := by
  by_cases hmem : b ∈ history.map Prod.fst
  · obtain ⟨⟨_, entry⟩, hvisit, rfl⟩ := List.mem_map.mp ((mem_map_latest history b).mpr hmem)
    have hsuits := h.suits _ entry ((latest_sublist history).subset hvisit)
    exact ⟨entry, h.getElem?_entries_of_mem_latest _ entry hb hvisit, .inr ⟨hmem, hsuits⟩⟩
  · exact ⟨.unset, getElem?_entries_of_not_mem _ history b hb hmem, .inl ⟨hmem, rfl⟩⟩

/-- The three kinds of entries stand for the three sizes of a visited bucket. -/
theorem Chosen.entry_kinds (h : history.Chosen H bound keys) (b : Nat) (hb : b < keys.length) :
    ((entries keys.length history)[b]? = some .unset ↔
      b ∉ history.map Prod.fst ∨ group H keys b = []) ∧
    ((∃ slot < keys.length, (entries keys.length history)[b]? = some (.direct slot)) ↔
      b ∈ history.map Prod.fst ∧ (group H keys b).length = 1) ∧
    ((∃ salt, 1 ≤ salt ∧ salt ≤ bound ∧
        (entries keys.length history)[b]? = some (.displacement salt)) ↔
      b ∈ history.map Prod.fst ∧ 2 ≤ (group H keys b).length) := by
  obtain ⟨entry, hentry, hkind⟩ := h.exists_entry b hb
  rw [hentry]
  rcases hkind with ⟨hmem, rfl⟩ | ⟨hmem, hsuits⟩
  · simp [hmem]
  · cases entry with
    | unset =>
        have hnil : group H keys b = [] := hsuits
        simp [hmem, hnil]
    | direct slot =>
        obtain ⟨hone, hslot⟩ := hsuits
        have hne : group H keys b ≠ [] := List.length_pos_iff.mp (by omega)
        simp [hmem, hone, hslot, hne]
    | displacement salt =>
        obtain ⟨htwo, hsalt⟩ := hsuits
        have hne : group H keys b ≠ [] := List.length_pos_iff.mp (by omega)
        have hone : (group H keys b).length ≠ 1 := by omega
        simp [hmem, htwo, hsalt, hne, hone]

theorem mem_flatMap_latest (b : Nat) (hb : b ∈ history.map Prod.fst) (key : Key)
    (hkey : key ∈ group H keys b) :
    key ∈ ((latest history).map Prod.fst).flatMap (group H keys) :=
  List.mem_flatMap.mpr ⟨b, (mem_map_latest history b).mpr hb, hkey⟩

theorem Chosen.exists_lookup (h : history.Chosen H bound keys) (b : Nat)
    (hb : b ∈ history.map Prod.fst) (key : Key) (hkey : key ∈ group H keys b) :
    ∃ slot < keys.length, (table H keys history).lookup key = .ok (some slot) := by
  obtain ⟨i, hi⟩ := List.getElem?_of_mem (mem_flatMap_latest b hb key hkey)
  obtain ⟨slot, hslot, hlookup⟩ := h.sendsApart.exists_slot i key hi
  have hlt := h.sendsApart.lt_size slot (List.mem_of_getElem? hslot)
  rw [size_table] at hlt
  exact ⟨slot, hlt, hlookup⟩

/-- A bucket with keys is not visited twice by a run that visits all keys, as there are not
enough slots for that. -/
theorem Chosen.count_le_one (h : history.Chosen H bound keys)
    (hall : ∀ key ∈ keys, H.home keys.length key ∈ history.map Prod.fst) (b : Nat)
    (hb : group H keys b ≠ []) : (history.map Prod.fst).count b ≤ 1 := by
  by_contra hcount
  -- Beside the last visits of all buckets, there is an earlier visit of this one.
  have hsubperm : (b :: (latest history).map Prod.fst).Subperm (history.map Prod.fst) := by
    rw [List.subperm_ext_iff]
    intro c hc
    have honce := List.nodup_iff_count_le_one.mp (nodup_latest history) c
    by_cases heq : b = c
    · subst heq
      rw [List.count_cons_self]
      omega
    · have hmem := (mem_map_latest history c).mp ((List.mem_cons.mp hc).resolve_left (Ne.symm heq))
      rw [List.count_cons_of_ne heq]
      exact honce.trans (List.count_pos_iff.mpr hmem)
  obtain ⟨visits, hperm, hsublist⟩ := hsubperm
  have hlength : keys.length + (group H keys b).length ≤ keys.length := by
    calc keys.length + (group H keys b).length
      _ = (((latest history).map Prod.fst).flatMap (group H keys)).length +
          (group H keys b).length := by rw [(flatMap_latest_perm history hall).length_eq]
      _ = ((b :: (latest history).map Prod.fst).flatMap (group H keys)).length := by
          rw [List.flatMap_cons, List.length_append, Nat.add_comm]
      _ = (visits.flatMap (group H keys)).length := (hperm.symm.flatMap_right _).length_eq
      _ ≤ ((history.map Prod.fst).flatMap (group H keys)).length :=
          (hsublist.flatMap _).length_le
      _ = (claimed H keys history).length := h.length_claimed.symm
      _ ≤ keys.length := h.length_claimed_le
  have hpos := List.length_pos_iff.mpr hb
  omega

end Greedy.History

namespace Placement

open Greedy (History)

/-- A placement over any order of buckets that succeeds gives every visited bucket an entry of the
kind that it calls for and leaves the others unset, and its lookups send the keys of the visited
buckets to slots of their own. If all keys are visited, none is visited twice, and the lookups are
a bijection. -/
theorem ofBuckets_any_order (H : HashFamily) (keys : List Key) (order : List Nat)
    (horder : ∀ b ∈ order, b < keys.length) (bound : Salt) (width : UInt64) :
    ∃ B, BucketLayout.ofKeys H keys = .ok B ∧
      (∀ b < keys.length, B.bucket b = .ok (Greedy.group H keys b)) ∧
      ∀ placement, ofBuckets H B order bound width = .ok placement →
        placement.entries.size = keys.length ∧
        (∀ b < keys.length,
          (placement.entries[b]? = some .unset ↔ b ∉ order ∨ Greedy.group H keys b = []) ∧
          ((∃ slot < keys.length, placement.entries[b]? = some (.direct slot)) ↔
            b ∈ order ∧ (Greedy.group H keys b).length = 1) ∧
          ((∃ salt, 1 ≤ salt ∧ salt ≤ bound ∧
              placement.entries[b]? = some (.displacement salt)) ↔
            b ∈ order ∧ 2 ≤ (Greedy.group H keys b).length)) ∧
        (∀ b ∈ order, ∀ key ∈ Greedy.group H keys b, ∃ slot < keys.length,
          (⟨placement.entries⟩ : Table H).lookup key = .ok (some slot)) ∧
        (∀ b ∈ order, ∀ c ∈ order, ∀ i j (hi : i < (Greedy.group H keys b).length)
          (hj : j < (Greedy.group H keys c).length),
          ((⟨placement.entries⟩ : Table H).lookup (Greedy.group H keys b)[i] =
              (⟨placement.entries⟩ : Table H).lookup (Greedy.group H keys c)[j] →
            b = c ∧ i = j) ∧
          ((Greedy.group H keys b)[i] = (Greedy.group H keys c)[j] → b = c ∧ i = j)) ∧
        ((∀ b < keys.length, Greedy.group H keys b ≠ [] → b ∈ order) →
          (∀ b, Greedy.group H keys b ≠ [] → order.count b ≤ 1) ∧
            (⟨placement.entries⟩ : Table H).IsBijectionOn keys) := by
  obtain ⟨B, hB, hgroups⟩ := BucketLayout.ofKeys_groups H keys
  refine ⟨B, hB, hgroups.bucket_eq, fun placement hplacement => ?_⟩
  obtain ⟨history, hmap, hchosen, rfl⟩ := (ofBuckets_eq_ok_iff hgroups order horder).mp hplacement
  have hvisited : ∀ b, b ∈ history.map Prod.fst ↔ b ∈ order := by
    intro b
    rw [hmap, List.mem_reverse]
  refine ⟨History.size_table (H := H), fun b hb => ?_, fun b hb => ?_, ?_, ?_⟩
  · have hkinds := hchosen.entry_kinds b hb
    rw [hvisited] at hkinds
    simpa only [History.placement, List.getElem?_toArray] using hkinds
  · exact hchosen.exists_lookup b ((hvisited b).mpr hb)
  · intro b hb c hc i j hi hj
    have hlatest : ∀ b ∈ order, b ∈ (History.latest history).map Prod.fst :=
      fun b hb => (History.mem_map_latest history b).mpr ((hvisited b).mpr hb)
    have hinj := hchosen.sendsApart.group_position_inj b c (hlatest b hb) (hlatest c hc) i j hi hj
    exact ⟨hinj, fun heq => hinj (by rw [heq])⟩
  · intro hnonempty
    have hall : ∀ key ∈ keys, H.home keys.length key ∈ history.map Prod.fst := by
      intro key hkey
      rw [hvisited]
      exact hnonempty _ (H.home_lt keys.length key (List.length_pos_of_mem hkey))
        (List.ne_nil_of_mem ((Greedy.mem_group H keys _ key).mpr ⟨hkey, rfl⟩))
    refine ⟨fun b hb => ?_, hchosen.isBijectionOn hall⟩
    have hcount := hchosen.count_le_one hall b hb
    rwa [hmap, List.count_reverse] at hcount

/-- Five keys in four buckets. Bucket `0` has its second slot when it was visited twice, and an
order that is not the scheduled one gives another bijection. -/
theorem ofBuckets_any_order_halving :
    (∀ b ∈ [3, 0, 0, 1], b < ([10, 3, 7, 21, 8] : List Key).length) ∧
    (∃ B placement, BucketLayout.ofKeys HashFamily.Arithmetic.halving [10, 3, 7, 21, 8] = .ok B ∧
      ofBuckets HashFamily.Arithmetic.halving B [3, 0, 0, 1] 4 64 = .ok placement ∧
      placement.entries = #[.direct 1, .direct 3, .unset, .displacement 1, .unset] ∧
      ∀ key ∈ ([10, 3, 21, 8] : List Key), ∃ slot < 5,
        (⟨placement.entries⟩ : Table HashFamily.Arithmetic.halving).lookup key = .ok (some slot)) ∧
    ∃ B placement, BucketLayout.ofKeys HashFamily.Arithmetic.halving [10, 3, 7, 21, 8] = .ok B ∧
      ofBuckets HashFamily.Arithmetic.halving B [4, 1, 3, 2, 0] 4 64 = .ok placement ∧
      placement.entries = #[.direct 3, .direct 0, .direct 1, .displacement 1, .unset] ∧
      (⟨placement.entries⟩ : Table HashFamily.Arithmetic.halving).IsBijectionOn
        [10, 3, 7, 21, 8] := by
  obtain ⟨B, hB, hgroups⟩ :=
    BucketLayout.ofKeys_groups HashFamily.Arithmetic.halving [10, 3, 7, 21, 8]
  refine ⟨by decide, ?_, ?_⟩
  · obtain ⟨B', hB', -, hsound⟩ := ofBuckets_any_order HashFamily.Arithmetic.halving
      [10, 3, 7, 21, 8] [3, 0, 0, 1] (by decide) 4 64
    cases hB.symm.trans hB'
    have hplacement : ofBuckets HashFamily.Arithmetic.halving B [3, 0, 0, 1] 4 64 =
        .ok (History.placement HashFamily.Arithmetic.halving [10, 3, 7, 21, 8] 4
          [(1, .direct 3), (0, .direct 1), (0, .direct 0), (3, .displacement 1)]) := by
      rw [ofBuckets_eq hgroups _ (by decide)]
      rfl
    obtain ⟨-, -, hlookup, -, -⟩ := hsound _ hplacement
    have hmem : ∀ key ∈ ([10, 3, 21, 8] : List Key),
        HashFamily.Arithmetic.halving.home 5 key ∈ [3, 0, 0, 1] ∧
          key ∈ ([10, 3, 7, 21, 8] : List Key) := by
      simp only [List.forall_mem_cons, List.not_mem_nil, IsEmpty.forall_iff, implies_true]
      decide
    refine ⟨B, _, hB, hplacement, rfl, fun key hkey => ?_⟩
    exact hlookup (HashFamily.Arithmetic.halving.home 5 key) (hmem key hkey).1 key
      ((Greedy.mem_group _ _ _ _).mpr ⟨(hmem key hkey).2, rfl⟩)
  · obtain ⟨B', hB', -, hsound⟩ := ofBuckets_any_order HashFamily.Arithmetic.halving
      [10, 3, 7, 21, 8] [4, 1, 3, 2, 0] (by decide) 4 64
    cases hB.symm.trans hB'
    have hplacement : ofBuckets HashFamily.Arithmetic.halving B [4, 1, 3, 2, 0] 4 64 =
        .ok (History.placement HashFamily.Arithmetic.halving [10, 3, 7, 21, 8] 5
          [(0, .direct 3), (2, .direct 1), (3, .displacement 1), (1, .direct 0),
            (4, .unset)]) := by
      rw [ofBuckets_eq hgroups _ (by decide)]
      rfl
    obtain ⟨-, -, -, -, hbijection⟩ := hsound _ hplacement
    exact ⟨B, _, hB, hplacement, rfl, (hbijection (by decide)).2⟩

end Placement

end PerfectHash
