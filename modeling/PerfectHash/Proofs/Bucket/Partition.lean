import Mathlib.Data.List.Count
import PerfectHash.Hash.Families
import PerfectHash.Placement.Greedy
import PerfectHash.Proofs.Bucket.Deal

set_option autoImplicit false

/-! # The buckets are the groups

`BucketLayout.ofKeys` never fails, and the layout that it gives holds in bucket `b` exactly the
keys whose home is `b`, in their order (`ofKeys_groups`). The offset of bucket `b` is the number
of keys whose home is below `b`, so the segments of the buckets lie one behind the other.

Every key has one home, so the groups of all buckets make up the keys (`flatMap_group_perm`): the
layout neither loses a key nor repeats one (`ofKeys_partitions`).
-/

namespace PerfectHash

def below (homes : List Nat) (b : Nat) : Nat := homes.countP fun home => home < b

@[simp] theorem below_zero (homes : List Nat) : below homes 0 = 0 := by
  simp [below]

theorem below_succ (homes : List Nat) (b : Nat) :
    below homes (b + 1) = below homes b + homes.count b := by
  induction homes with
  | nil => rfl
  | cons home homes ih =>
      simp only [below, List.countP_cons, List.count_cons, decide_eq_true_eq, beq_iff_eq] at ih ⊢
      split <;> split <;> split <;> omega

theorem below_le_below (homes : List Nat) (b c : Nat) (h : b ≤ c) :
    below homes b ≤ below homes c := by
  apply List.countP_mono_left
  intro home _ hlt
  simp only [decide_eq_true_eq] at hlt ⊢
  omega

theorem below_le_length (homes : List Nat) (b : Nat) : below homes b ≤ homes.length :=
  List.countP_le_length

theorem mapM_eq_ok {α β : Type} (f : α → Outcome β) (g : α → β) (l : List α)
    (h : ∀ a ∈ l, f a = .ok (g a)) : l.mapM f = .ok (l.map g) := by
  induction l with
  | nil => rfl
  | cons a l ih =>
      rw [List.mapM_cons, h a (by simp), ih fun b hb => h b (by simp [hb])]
      rfl

namespace BucketLayout

/-! ## The three passes -/

theorem tally_eq (n : Nat) (homes : List Nat) (h : ∀ home ∈ homes, home < n) :
    tally n homes = .ok (tabulate (n + 1) fun i => (homes.map (· + 1)).count i) := by
  have hcells : ∀ i ∈ homes.map (· + 1), i < n + 1 := by
    intro i hi
    rcases List.mem_map.mp hi with ⟨home, hhome, rfl⟩
    have := h home hhome
    omega
  have hcount := foldlM_increment_tabulate (n + 1) (homes.map (· + 1)) (fun _ => 0) hcells
  rw [List.foldlM_map] at hcount
  unfold tally
  rw [replicate_eq_tabulate, hcount]
  simp only [Nat.zero_add]

theorem count_map_succ (homes : List Nat) (b : Nat) :
    (homes.map (· + 1)).count (b + 1) = homes.count b :=
  List.count_map_of_injective homes (· + 1) (fun _ _ h => Nat.succ.inj h) b

/-- The running sums behind cell `k` are finished, the counts behind it are untouched. -/
def accumulated (homes : List Nat) (k i : Nat) : Nat :=
  if i ≤ k then below homes i else (homes.map (· + 1)).count i

theorem accumulated_succ (homes : List Nat) (k : Nat) :
    Function.update (accumulated homes k) (k + 1) (below homes (k + 1)) =
      accumulated homes (k + 1) := by
  funext i
  by_cases hi : i = k + 1
  · subst hi
    simp [accumulated]
  · have hle : i ≤ k + 1 ↔ i ≤ k := by omega
    simp [accumulated, Function.update_of_ne hi, hle]

theorem accumulate_eq (n : Nat) (homes : List Nat) :
    accumulate n (tabulate (n + 1) fun i => (homes.map (· + 1)).count i) =
      .ok (tabulate (n + 1) (below homes)) := by
  have hstart : (fun i => (homes.map (· + 1)).count i) = accumulated homes 0 := by
    funext i
    cases i with
    | zero => simp [accumulated, List.count_eq_zero]
    | succ i => simp [accumulated]
  -- The induction is on the number of cells that have been passed.
  have hrun : ∀ k, k ≤ n → (List.range k).foldlM (fun sums i => do
      let before ← fetch sums i
      let here ← fetch sums (i + 1)
      store sums (i + 1) (here + before)) (tabulate (n + 1) (accumulated homes 0)) =
        Except.ok (ε := Failure) (tabulate (n + 1) (accumulated homes k)) := by
    intro k
    induction k with
    | zero => intro _; rfl
    | succ k ih =>
        intro hk
        have hsum : accumulated homes k (k + 1) + accumulated homes k k = below homes (k + 1) := by
          rw [below_succ, accumulated, if_neg (by omega), accumulated, if_pos (Nat.le_refl k),
            count_map_succ, Nat.add_comm]
        rw [List.range_succ, List.foldlM_append, ih (by omega)]
        simp only [bind, Except.bind, List.foldlM_cons, List.foldlM_nil]
        rw [fetch_tabulate _ _ k (by omega), fetch_tabulate _ _ (k + 1) (by omega)]
        simp only
        rw [store_tabulate _ _ (k + 1) _ (by omega), hsum, accumulated_succ]
        rfl
  unfold accumulate
  rw [hstart, hrun n (Nat.le_refl n)]
  congr 1
  apply tabulate_congr
  intro i hi
  unfold accumulated
  rw [if_pos (by omega)]

theorem segments_below (n : Nat) (homes : List Nat) (len : Nat → Nat)
    (hlen : ∀ b, len b = homes.count b) : Segments n homes.length (below homes) len := by
  have hend : ∀ b, below homes b + len b = below homes (b + 1) := by
    intro b
    rw [below_succ, hlen]
  constructor
  · intro b _
    rw [hend]
    exact below_le_length homes (b + 1)
  · intro b _ c _ i hb hb' hc hc'
    rw [hend] at hb' hc'
    rcases Nat.lt_trichotomy b c with h | h | h
    · have := below_le_below homes (b + 1) c h
      omega
    · exact h
    · have := below_le_below homes (c + 1) b h
      omega

end BucketLayout

/-! ## The layout as a whole -/

variable (H : HashFamily)

def homesOf (keys : List Key) : List Nat := keys.map (H.home keys.length)

theorem homesOf_lt (keys : List Key) (home : Nat) (h : home ∈ homesOf H keys) :
    home < keys.length := by
  rcases List.mem_map.mp h with ⟨key, hkey, rfl⟩
  exact H.home_lt keys.length key (List.length_pos_of_mem hkey)

theorem mapM_homeOf (keys : List Key) :
    keys.mapM (H.homeOf keys.length) = .ok (homesOf H keys) :=
  mapM_eq_ok _ _ _ fun key hkey =>
    H.homeOf_of_pos keys.length key (List.length_pos_of_mem hkey)

namespace Greedy

theorem mem_group (keys : List Key) (b : Nat) (key : Key) :
    key ∈ group H keys b ↔ key ∈ keys ∧ H.home keys.length key = b := by
  simp [group]

theorem length_group (keys : List Key) (b : Nat) :
    (group H keys b).length = (homesOf H keys).count b := by
  unfold group homesOf
  rw [← List.countP_eq_length_filter, List.count, List.countP_map]
  apply List.countP_congr
  intro key _
  simp

def largest (keys : List Key) : Nat :=
  (List.range keys.length).foldl (fun most b => max most (group H keys b).length) 0

theorem valuesOf_zip_homes (keys : List Key) (b : Nat) :
    valuesOf ((homesOf H keys).zip keys) b = group H keys b := by
  have hzip : (homesOf H keys).zip keys = keys.map fun key => (H.home keys.length key, key) :=
    List.map_prod_right_eq_zip.symm
  rw [hzip, valuesOf, group, List.filter_map, List.map_map]
  exact List.map_id _

end Greedy

namespace BucketLayout

/-- The buckets of the layout are the groups of the keys. -/
structure Groups (B : BucketLayout) (keys : List Key) : Prop where
  /-- A bucket starts behind the keys with a smaller home. -/
  offsets_eq : B.offsets = tabulate (keys.length + 1) (below (homesOf H keys))
  bucket_eq : ∀ b < keys.length, B.bucket b = .ok (Greedy.group H keys b)

/-- Grouping keys never fails, whatever the keys are. -/
theorem ofKeys_groups (keys : List Key) : ∃ B, ofKeys H keys = .ok B ∧ B.Groups H keys := by
  set homes := homesOf H keys
  have hlength : homes.length = keys.length := List.length_map _
  have hvalues := Greedy.valuesOf_zip_homes H keys
  -- The cursors have one cell more than there are buckets, for the end of the last one.
  have hclass : ∀ item ∈ homes.zip keys, item.1 < keys.length + 1 := by
    intro item hitem
    have := homesOf_lt H keys item.1 (List.of_mem_zip hitem).1
    omega
  have hsegments : Segments (keys.length + 1) keys.length (below homes)
      fun b => (valuesOf (homes.zip keys) b).length := by
    rw [← hlength]
    apply segments_below
    intro b
    rw [hvalues, Greedy.length_group]
  obtain ⟨next, g, hdeal, hsegment, -⟩ := foldlM_deal (keys.length + 1) keys.length
    (homes.zip keys) (below homes) (fun _ => 0) hclass hsegments
  have hscatter : scatter (tabulate (keys.length + 1) (below homes)) (homes.zip keys) =
      .ok (tabulate keys.length g) := by
    have hzip : (homes.zip keys).length = keys.length := by simp [hlength]
    unfold scatter
    rw [hzip, replicate_eq_tabulate, scatterKey_eq_deal, hdeal]
    rfl
  refine ⟨⟨tabulate (keys.length + 1) (below homes), tabulate keys.length g⟩, ?_, rfl, ?_⟩
  · unfold ofKeys
    simp only [bind, Except.bind]
    rw [mapM_homeOf]
    simp only
    rw [tally_eq keys.length homes (homesOf_lt H keys)]
    simp only
    rw [accumulate_eq]
    simp only
    rw [hscatter]
    rfl
  -- Bucket `b` is the segment of its class, which ends where the next one starts.
  · intro b hb
    have hend : below homes (b + 1) = below homes b + (Greedy.group H keys b).length := by
      rw [below_succ, Greedy.length_group]
    have hsegment := hsegment b (by omega)
    rw [hvalues] at hsegment
    simp only [bucket, bind, Except.bind]
    rw [fetch_tabulate _ _ b (by omega), fetch_tabulate _ _ (b + 1) (by omega)]
    simp only
    rw [slice_tabulate _ _ _ _ (by omega) (hlength ▸ below_le_length homes (b + 1)), hend,
      Nat.add_sub_cancel_left, hsegment]

variable {H}

theorem Groups.count_eq {B : BucketLayout} {keys : List Key} (h : B.Groups H keys) :
    B.count = keys.length := by
  simp [count, h.offsets_eq]

theorem Groups.size_eq {B : BucketLayout} {keys : List Key} (h : B.Groups H keys) (b : Nat)
    (hb : b < keys.length) : B.size b = .ok (Greedy.group H keys b).length := by
  simp only [size, bind, Except.bind]
  rw [h.offsets_eq, fetch_tabulate _ _ b (by omega), fetch_tabulate _ _ (b + 1) (by omega)]
  simp only
  rw [below_succ, Nat.add_sub_cancel_left, Greedy.length_group]
  rfl

theorem Groups.sizes_eq {B : BucketLayout} {keys : List Key} (h : B.Groups H keys) :
    B.sizes = (List.range keys.length).map fun b => (Greedy.group H keys b).length := by
  unfold sizes
  rw [h.offsets_eq, toList_tabulate]
  apply List.ext_getElem
  · simp
  · intro b _ _
    simp [below_succ, Greedy.length_group]

theorem Groups.largest_eq {B : BucketLayout} {keys : List Key} (h : B.Groups H keys) :
    B.largest = .ok (Greedy.largest H keys) := by
  have hrun : ∀ (l : List Nat) (most : Nat), (∀ b ∈ l, b < keys.length) →
      l.foldlM (fun most b => return max most (← B.size b)) most =
        Except.ok (ε := Failure)
          (l.foldl (fun most b => max most (Greedy.group H keys b).length) most) := by
    intro l
    induction l with
    | nil => intro most _; rfl
    | cons b l ih =>
        intro most hl
        rw [List.foldlM_cons, h.size_eq b (hl b (by simp))]
        exact ih _ fun c hc => hl c (by simp [hc])
  unfold largest
  rw [h.count_eq]
  exact hrun _ 0 fun b hb => List.mem_range.mp hb

end BucketLayout

/-! ## Nothing is lost -/

variable {H}

namespace Greedy

/-- The groups of distinct buckets make up the keys whose home is among the buckets. -/
theorem flatMap_group_perm (keys : List Key) (buckets : List Nat) (h : buckets.Nodup) :
    (buckets.flatMap (group H keys)).Perm
      (keys.filter fun key => H.home keys.length key ∈ buckets) := by
  induction buckets with
  | nil => simp
  | cons b buckets ih =>
      rcases List.nodup_cons.mp h with ⟨hb, hbuckets⟩
      have hmine : (keys.filter fun key => H.home keys.length key ∈ b :: buckets).filter
          (fun key => H.home keys.length key = b) = group H keys b := by
        rw [List.filter_filter, group]
        apply List.filter_congr
        intro key _
        by_cases hkey : H.home keys.length key = b <;> simp [hkey]
      have hothers : (keys.filter fun key => H.home keys.length key ∈ b :: buckets).filter
          (fun key => !decide (H.home keys.length key = b)) =
            keys.filter fun key => H.home keys.length key ∈ buckets := by
        rw [List.filter_filter]
        apply List.filter_congr
        intro key _
        by_cases hkey : H.home keys.length key = b
        · simp [hkey, hb]
        · simp [hkey]
      have hsplit := List.filter_append_perm (fun key => decide (H.home keys.length key = b))
        (keys.filter fun key => H.home keys.length key ∈ b :: buckets)
      rw [hmine, hothers] at hsplit
      rw [List.flatMap_cons]
      exact ((ih hbuckets).append_left _).trans hsplit

theorem flatMap_group_perm_of_home_mem (keys : List Key) (buckets : List Nat) (h : buckets.Nodup)
    (hall : ∀ key ∈ keys, H.home keys.length key ∈ buckets) :
    (buckets.flatMap (group H keys)).Perm keys := by
  have hfilter : (keys.filter fun key => H.home keys.length key ∈ buckets) = keys :=
    List.filter_eq_self.mpr fun key hkey => decide_eq_true (hall key hkey)
  have hperm := flatMap_group_perm (H := H) keys buckets h
  rwa [hfilter] at hperm

theorem length_flatMap_group_le (keys : List Key) (buckets : List Nat) (h : buckets.Nodup) :
    (buckets.flatMap (group H keys)).length ≤ keys.length := by
  rw [(flatMap_group_perm keys buckets h).length_eq]
  exact List.length_filter_le _ _

/-- The groups of all buckets make up the keys. -/
theorem flatMap_range_group_perm (keys : List Key) :
    ((List.range keys.length).flatMap (group H keys)).Perm keys :=
  flatMap_group_perm_of_home_mem keys _ List.nodup_range fun key hkey =>
    List.mem_range.mpr (H.home_lt keys.length key (List.length_pos_of_mem hkey))

/-- The size of the largest group is the greatest of the sizes, and `0` when there are none. -/
theorem largest_eq_max? (keys : List Key) : largest H keys =
    ((List.range keys.length).map fun b => (group H keys b).length).max?.getD 0 := by
  rw [largest, ← List.foldl_map, List.foldl_max, Nat.zero_max]

end Greedy

namespace BucketLayout

/-- Grouping keys never fails, whatever the keys are, and neither loses nor repeats nor reorders
any. There are as many buckets as keys, a bucket holds the keys whose home it is, in their order,
all sizes are those of the buckets, and the buckets one behind the other are the keys up to their
order. -/
theorem ofKeys_partitions (H : HashFamily) (keys : List Key) :
    ∃ B, ofKeys H keys = .ok B ∧ B.count = keys.length ∧ B.sizes.length = keys.length ∧
      (∀ b < keys.length, ∃ group,
        group = (keys.filter fun key => H.home keys.length key = b) ∧ B.bucket b = .ok group ∧
        B.size b = .ok group.length ∧ B.sizes[b]? = some group.length) ∧
      B.largest = .ok (B.sizes.max?.getD 0) ∧
      ∃ buckets, (List.range B.count).mapM B.bucket = .ok buckets ∧ buckets.flatten.Perm keys := by
  obtain ⟨B, hlayout, hgroups⟩ := ofKeys_groups H keys
  refine ⟨B, hlayout, hgroups.count_eq, ?_, fun b hb => ?_, ?_, ?_⟩
  · rw [hgroups.sizes_eq, List.length_map, List.length_range]
  · refine ⟨Greedy.group H keys b, rfl, hgroups.bucket_eq b hb, hgroups.size_eq b hb, ?_⟩
    rw [hgroups.sizes_eq, List.getElem?_map, List.getElem?_range hb, Option.map_some]
  · rw [hgroups.largest_eq, Greedy.largest_eq_max?, hgroups.sizes_eq]
  · have hbuckets : (List.range B.count).mapM B.bucket =
        .ok ((List.range B.count).map (Greedy.group H keys)) :=
      mapM_eq_ok _ _ _ fun b hb => hgroups.bucket_eq b (hgroups.count_eq ▸ List.mem_range.mp hb)
    refine ⟨_, hbuckets, ?_⟩
    rw [hgroups.count_eq, ← List.flatMap_def]
    exact Greedy.flatMap_range_group_perm keys

open HashFamily.Arithmetic in
/-- The keys `3` and `8` have the home `3`. -/
theorem ofKeys_partitions_unsalted :
    ∃ B, ofKeys unsalted [10, 3, 7, 21, 8] = .ok B ∧ B.bucket 3 = .ok [3, 8] ∧ B.size 3 = .ok 2 ∧
      ∃ buckets, (List.range B.count).mapM B.bucket = .ok buckets ∧
        buckets.flatten.Perm [10, 3, 7, 21, 8] := by
  obtain ⟨B, hlayout, -, -, hbuckets, -, hall⟩ := ofKeys_partitions unsalted [10, 3, 7, 21, 8]
  obtain ⟨group, hgroup, hbucket, hsize, -⟩ := hbuckets 3 (by decide)
  obtain rfl : group = [3, 8] := hgroup.trans (by decide)
  exact ⟨B, hlayout, hbucket, hsize, hall⟩

end BucketLayout

end PerfectHash
