import Mathlib.Algebra.GroupWithZero.Nat
import Mathlib.Algebra.Order.BigOperators.Group.List
import PerfectHash.Proofs.Build.Bound
import PerfectHash.Proofs.Build.Correct
import PerfectHash.Proofs.Placement.AnyOrder

set_option autoImplicit false

/-! # Three tallies of one build

A build is counted three times. The run counts the buckets while it places them, and takes those
that are left out of its order for empty ones; the census counts the entries of the finished table;
and the partition has the sizes of the buckets before anything is placed. All three agree
(`Table.report_eq_census`).

The run and the census agree because the entries of the table are those of the visits, in another
order, and an unset one for every bucket without a visit (`Greedy.History.entries_perm`). The
census and the partition agree because an entry tells whether its bucket has no key, one, or
several (`Greedy.History.Chosen.map_arity`).

There are as many buckets as keys. So an empty bucket is made up for by a key too many in some
other one, and the sizes decide how many of them there are (`sum_add_count_zero`).
-/

namespace PerfectHash

variable {H : HashFamily}

/-! ## Sizes -/

theorem count_add_count_add_countP (sizes : List Nat) :
    sizes.countP (2 ≤ ·) + sizes.count 1 + sizes.count 0 = sizes.length := by
  induction sizes with
  | nil => rfl
  | cons size sizes ih =>
      simp only [List.countP_cons, List.count_cons, List.length_cons, decide_eq_true_eq,
        beq_iff_eq]
      split <;> split <;> split <;> omega

/-- What the larger sizes have beyond `1` makes up for the sizes `0`. -/
theorem sum_add_count_zero (sizes : List Nat) :
    sizes.sum + sizes.count 0 =
      sizes.length + ((sizes.filter (2 ≤ ·)).map (· - 1)).sum := by
  induction sizes with
  | nil => rfl
  | cons size sizes ih =>
      rw [List.filter_cons]
      simp only [List.sum_cons, List.count_cons, List.length_cons, decide_eq_true_eq, beq_iff_eq]
      by_cases hlarge : 2 ≤ size
      · rw [if_pos hlarge, if_neg (by omega), List.map_cons, List.sum_cons]
        omega
      · rw [if_neg hlarge]
        split <;> omega

theorem countP_le_sum_map_sub_one (sizes : List Nat) :
    sizes.countP (2 ≤ ·) ≤ ((sizes.filter (2 ≤ ·)).map (· - 1)).sum := by
  have hone : ∀ size ∈ (sizes.filter (2 ≤ ·)).map (· - 1), 1 ≤ size := by
    intro size hsize
    obtain ⟨large, hlarge, rfl⟩ := List.mem_map.mp hsize
    have := of_decide_eq_true (List.mem_filter.mp hlarge).2
    omega
  calc sizes.countP (2 ≤ ·)
    _ = ((sizes.filter (2 ≤ ·)).map (· - 1)).length := by
        rw [List.length_map, List.countP_eq_length_filter]
    _ ≤ ((sizes.filter (2 ≤ ·)).map (· - 1)).sum := List.length_le_sum_of_one_le _ hone

/-- A size above `2` has the same arity as `2`. -/
theorem count_map_min_two (sizes : List Nat) :
    (sizes.map (min · 2)).count 0 = sizes.count 0 ∧
      (sizes.map (min · 2)).count 1 = sizes.count 1 ∧
      (sizes.map (min · 2)).count 2 = sizes.countP (2 ≤ ·) := by
  simp only [List.count, List.countP_map]
  refine ⟨?_, ?_, ?_⟩ <;>
    · apply List.countP_congr
      intro size _
      simp only [Function.comp_apply, beq_iff_eq, decide_eq_true_eq]
      omega

namespace Greedy

def sizes (H : HashFamily) (keys : List Key) : List Nat :=
  (List.range keys.length).map fun b => keys.countP fun key => H.home keys.length key = b

theorem sizes_eq (keys : List Key) :
    sizes H keys = (List.range keys.length).map fun b => (group H keys b).length := by
  simp only [sizes, length_group_eq_countP]

theorem length_sizes (keys : List Key) : (sizes H keys).length = keys.length := by
  rw [sizes, List.length_map, List.length_range]

/-- Every key is in one bucket. -/
theorem sum_sizes (keys : List Key) : (sizes H keys).sum = keys.length := by
  calc (sizes H keys).sum
    _ = ((List.range keys.length).flatMap (group H keys)).length := by
        rw [sizes_eq, List.length_flatMap]
    _ = keys.length := (flatMap_range_group_perm keys).length_eq

theorem max?_sizes (keys : List Key) (hne : keys ≠ []) :
    (sizes H keys).max? = some (largest H keys) := by
  have hlargest : largest H keys = (sizes H keys).max?.getD 0 := by
    rw [largest_eq_max?, sizes_eq]
  cases hmax : (sizes H keys).max? with
  | none =>
      have hnil := List.max?_eq_none_iff.mp hmax
      exact absurd ((length_sizes keys).symm.trans (congrArg List.length hnil))
        (List.length_pos_iff.mpr hne).ne'
  | some most =>
      rw [hlargest, hmax, Option.getD_some]

/-- The buckets without a visit are the empty ones. -/
theorem length_visits_add_count (keys : List Key) :
    (visits H keys).length + (sizes H keys).count 0 = keys.length := by
  have hvisits : (visits H keys).length =
      (List.range keys.length).countP fun b => group H keys b ≠ [] := by
    rw [visits, List.length_mergeSort, List.countP_eq_length_filter]
  have hzero : (sizes H keys).count 0 =
      (List.range keys.length).countP fun b => ¬ decide (group H keys b ≠ []) = true := by
    rw [sizes_eq, List.count, List.countP_map]
    apply List.countP_congr
    intro b _
    simp
  calc (visits H keys).length + (sizes H keys).count 0
    _ = ((List.range keys.length).countP fun b => group H keys b ≠ []) +
        (List.range keys.length).countP fun b => ¬ decide (group H keys b ≠ []) = true := by
        rw [hvisits, hzero]
    _ = (List.range keys.length).length := (List.length_eq_countP_add_countP _).symm
    _ = keys.length := List.length_range

/-! ## The entries of a history -/

/-- Setting an unset entry puts the new one in its place. -/
theorem perm_set (entries : List Entry) (b : Nat) (entry : Entry)
    (h : entries[b]? = some .unset) : (.unset :: entries.set b entry).Perm (entry :: entries) := by
  obtain ⟨hlt, hunset⟩ := List.getElem?_eq_some_iff.mp h
  have hentries := List.getElem_cons_eraseIdx_perm hlt
  rw [hunset] at hentries
  have hset := (List.set_perm_cons_eraseIdx hlt entry).cons .unset
  exact (hset.trans (.swap _ _ _)).trans (hentries.cons entry)

namespace History

/-- The entries are those of the visits, and an unset one for every bucket without a visit. -/
theorem entries_perm (n : Nat) (history : History) (hnodup : (history.map Prod.fst).Nodup)
    (hlt : ∀ b ∈ history.map Prod.fst, b < n) :
    (entries n history).Perm
      (history.map Prod.snd ++ List.replicate (n - history.length) .unset) := by
  induction history with
  | nil => exact .refl _
  | cons visit history ih =>
      rcases visit with ⟨b, entry⟩
      rw [List.map_cons, List.nodup_cons] at hnodup
      rw [List.map_cons, List.forall_mem_cons] at hlt
      have hbefore := ih hnodup.2 hlt.2
      have hunset := getElem?_entries_of_not_mem n history b hlt.1 hnodup.1
      -- The visit uses up one of the buckets without a visit.
      have hmore : n - history.length = n - (history.length + 1) + 1 := by
        have hlength := length_le_of_nodup_of_lt n _ (List.nodup_cons.mpr hnodup)
          (List.forall_mem_cons.mpr hlt)
        rw [List.length_cons, List.length_map] at hlength
        omega
      rw [hmore, List.replicate_succ] at hbefore
      have hset : (entries n ((b, entry) :: history)).Perm ((entries n history).set b entry) := by
        cases entry with
        | unset =>
            obtain ⟨hb, hvalue⟩ := List.getElem?_eq_some_iff.mp hunset
            have hsame := List.set_getElem_self hb
            rw [hvalue] at hsame
            rw [hsame, entries]
        | direct slot => exact .refl _
        | displacement salt => exact .refl _
      rw [List.map_cons, List.length_cons]
      -- Beside one more unset entry, both sides are the entry and what was there before.
      refine hset.trans (List.Perm.cons_inv (a := .unset) ?_)
      refine ((perm_set _ b entry hunset).trans (hbefore.cons entry)).trans ?_
      show ((entry :: history.map Prod.snd) ++ Entry.unset :: _).Perm _
      exact List.perm_middle

variable {bound : Salt} {keys : List Key} {history : History}

/-- If every bucket with keys was visited, an entry tells whether its bucket has no key, one, or
several. -/
theorem Chosen.map_arity (h : history.Chosen H bound keys)
    (hall : ∀ b < keys.length, group H keys b ≠ [] → b ∈ history.map Prod.fst) :
    (entries keys.length history).map Entry.arity = (sizes H keys).map (min · 2) := by
  apply List.ext_getElem
  · rw [List.length_map, List.length_map, length_entries, length_sizes]
  · intro b hb _
    rw [List.length_map, length_entries] at hb
    obtain ⟨entry, hentry, hkind⟩ := h.exists_entry b hb
    have hvalue := (List.getElem?_eq_some_iff.mp hentry).2
    simp only [List.getElem_map, hvalue, sizes_eq, List.getElem_range]
    rcases hkind with ⟨hmem, rfl⟩ | ⟨-, hsuits⟩
    · have hempty : group H keys b = [] := by
        by_contra hne
        exact hmem (hall b hb hne)
      rw [hempty]
      rfl
    · cases entry with
      | unset =>
          have hempty : group H keys b = [] := hsuits
          rw [hempty]
          rfl
      | direct slot =>
          rw [hsuits.1]
          rfl
      | displacement salt =>
          show 2 = min _ 2
          rw [Nat.min_eq_right hsuits.1]

/-! ## The tally of a run -/

theorem cost_counts (n count : Nat) (history : History) :
    (cost n count history).singleKey = ((history.map Prod.snd).map Entry.arity).count 1 ∧
      (cost n count history).multiKey = ((history.map Prod.snd).map Entry.arity).count 2 := by
  induction history with
  | nil => exact ⟨rfl, rfl⟩
  | cons visit history ih =>
      obtain ⟨hsingle, hmulti⟩ := ih
      rcases visit with ⟨b, entry⟩
      rw [List.map_cons, List.map_cons, List.count_cons, List.count_cons, ← hsingle, ← hmulti]
      cases entry <;> exact ⟨rfl, rfl⟩

/-- The attempts of a run are the sum of the salts of its visits, as a word. -/
theorem toNat_attempts_cost (n count : Nat) (history : History) :
    (cost n count history).attempts.toNat =
      (((history.map Prod.snd).filterMap Entry.salt?).map UInt64.toNat).sum % 2 ^ 64 := by
  induction history with
  | nil => rfl
  | cons visit history ih =>
      rcases visit with ⟨b, entry⟩
      cases entry with
      | unset => exact ih
      | direct slot => exact ih
      | displacement salt =>
          set sum := (((history.map Prod.snd).filterMap Entry.salt?).map UInt64.toNat).sum
          calc ((cost n count history).attempts + salt).toNat
            _ = (sum % 2 ^ 64 + salt.toNat) % 2 ^ 64 := by rw [UInt64.toNat_add, ih]
            _ = (salt.toNat + sum) % 2 ^ 64 := by omega

/-- What a run tallies over its visits can be tallied over the entries of its table, as buckets
without a visit add nothing to it. -/
theorem cost_entries (n count : Nat) (history : History) (hnodup : (history.map Prod.fst).Nodup)
    (hlt : ∀ b ∈ history.map Prod.fst, b < n) :
    (cost n count history).singleKey = ((entries n history).map Entry.arity).count 1 ∧
      (cost n count history).multiKey = ((entries n history).map Entry.arity).count 2 ∧
      (cost n count history).attempts.toNat =
        (((entries n history).filterMap Entry.salt?).map UInt64.toNat).sum % 2 ^ 64 ∧
      ∀ bound, (cost n count history).maxSalt ≤ bound ↔
        ∀ entry ∈ entries n history, entry.Within bound := by
  have hperm := entries_perm n history hnodup hlt
  obtain ⟨hsingle, hmulti⟩ := cost_counts n count history
  -- The unset entries count for no arity but `0`, and have no salt.
  have harity : ∀ arity ≠ 0, ((entries n history).map Entry.arity).count arity =
      ((history.map Prod.snd).map Entry.arity).count arity := by
    intro arity hne
    have hunset : (List.replicate (n - history.length) 0).count arity = 0 :=
      List.count_eq_zero.mpr fun hmem => hne (List.eq_of_mem_replicate hmem)
    calc ((entries n history).map Entry.arity).count arity
      _ = ((history.map Prod.snd ++ List.replicate (n - history.length) Entry.unset).map
            Entry.arity).count arity := (hperm.map Entry.arity).count_eq arity
      _ = ((history.map Prod.snd).map Entry.arity).count arity +
          (List.replicate (n - history.length) 0).count arity := by
          rw [List.map_append, List.count_append, List.map_replicate]
          rfl
      _ = ((history.map Prod.snd).map Entry.arity).count arity := by rw [hunset, Nat.add_zero]
  have hsalts : ((entries n history).filterMap Entry.salt?).Perm
      ((history.map Prod.snd).filterMap Entry.salt?) := by
    have hunset : (List.replicate (n - history.length) Entry.unset).filterMap Entry.salt? = [] :=
      List.filterMap_eq_nil_iff.mpr fun entry hentry => by rw [List.eq_of_mem_replicate hentry]; rfl
    have := hperm.filterMap Entry.salt?
    rwa [List.filterMap_append, hunset, List.append_nil] at this
  refine ⟨?_, ?_, ?_, fun bound => ?_⟩
  · rw [hsingle, harity 1 (by decide)]
  · rw [hmulti, harity 2 (by decide)]
  · rw [toNat_attempts_cost, (hsalts.map UInt64.toNat).sum_nat]
  · rw [maxSalt_cost_le_iff]
    constructor
    · intro hwithin entry hentry
      rcases List.mem_append.mp (hperm.mem_iff.mp hentry) with hvisit | hunset
      · obtain ⟨visit, hmem, rfl⟩ := List.mem_map.mp hvisit
        exact hwithin visit hmem
      · rw [List.eq_of_mem_replicate hunset]
        trivial
    · intro hwithin visit hvisit
      exact hwithin visit.2
        (hperm.mem_iff.mpr (List.mem_append_left _ (List.mem_map_of_mem hvisit)))

end History

end Greedy

/-! ## A run over the visits -/

/-- There are at most `2 ^ 64` distinct keys. -/
theorem length_le_of_nodup_keys (keys : List Key) (h : keys.Nodup) : keys.length ≤ 2 ^ 64 := by
  have hnodup : (keys.map UInt64.toNat).Nodup := h.map fun _ _ heq => UInt64.toNat_inj.mp heq
  have hlength := length_le_of_nodup_of_lt (2 ^ 64) _ hnodup fun i hi => by
    obtain ⟨key, -, rfl⟩ := List.mem_map.mp hi
    exact key.toNat_lt
  rwa [List.length_map] at hlength

/-- The buckets that are left out of the order are counted without an overflow. -/
theorem Greedy.History.empty_cost_visits (keys : List Key) (history : History) (hne : keys ≠ [])
    (hnodup : keys.Nodup) :
    (History.cost keys.length (visits H keys).length history).empty = (sizes H keys).count 0 := by
  have hcount := length_visits_add_count (H := H) keys
  have hkeys := length_le_of_nodup_keys keys hnodup
  -- Of `2 ^ 64` buckets at least one is visited, so that the others can be counted by a word.
  have hvisited : 0 < (visits H keys).length :=
    List.length_pos_of_mem (home_mem_visits keys _ (List.head_mem hne))
  have hempty : keys.length - (visits H keys).length = (sizes H keys).count 0 := by omega
  rw [History.empty_cost _ _ history (length_visits_le keys), hempty]
  exact UInt64.toNat_ofNat_of_lt' (show (sizes H keys).count 0 < 2 ^ 64 by omega)

namespace Greedy.History

variable {bound : Salt} {keys : List Key} {history : History}
  (h : ofOrder H bound keys (visits H keys) = .ok history)
include h

theorem map_arity_of_visits :
    (entries keys.length history).map Entry.arity = (sizes H keys).map (min · 2) := by
  rcases (ofOrder_eq_ok_iff bound keys _ history).mp h with ⟨hmap, hchosen⟩
  refine hchosen.map_arity fun b hb hgroup => ?_
  rw [hmap, List.mem_reverse, mem_visits]
  exact ⟨hb, hgroup⟩

theorem cost_entries_of_visits (count : Nat) :
    (cost keys.length count history).singleKey = (sizes H keys).count 1 ∧
      (cost keys.length count history).multiKey = (sizes H keys).countP (2 ≤ ·) ∧
      (cost keys.length count history).attempts.toNat =
        (((entries keys.length history).filterMap Entry.salt?).map UInt64.toNat).sum % 2 ^ 64 ∧
      ∀ limit, (cost keys.length count history).maxSalt ≤ limit ↔
        ∀ entry ∈ entries keys.length history, entry.Within limit := by
  rcases (ofOrder_eq_ok_iff bound keys _ history).mp h with ⟨hmap, -⟩
  have hnodup : (history.map Prod.fst).Nodup := by
    rw [hmap]
    exact List.nodup_reverse.mpr (nodup_visits keys)
  have hlt : ∀ b ∈ history.map Prod.fst, b < keys.length := by
    intro b hb
    rw [hmap, List.mem_reverse] at hb
    exact visits_lt keys b hb
  obtain ⟨-, hone, htwo⟩ := count_map_min_two (sizes H keys)
  have htally := cost_entries keys.length count history hnodup hlt
  rwa [map_arity_of_visits h, hone, htwo] at htally

/-- The greatest salt of the run is that of the table, as both are within the same bounds. -/
theorem maxSalt_cost_eq_census (count : Nat) :
    (cost keys.length count history).maxSalt = (table H keys history).census.maxSalt := by
  obtain ⟨-, -, -, hmax⟩ := cost_entries_of_visits h count
  have hsame : ∀ limit, (cost keys.length count history).maxSalt ≤ limit ↔
      (table H keys history).census.maxSalt ≤ limit := by
    intro limit
    rw [hmax, Table.maxSalt_census_le_iff, table]
    simp only [List.mem_toArray]
  exact UInt64.le_antisymm ((hsame _).mpr (UInt64.le_refl _)) ((hsame _).mp (UInt64.le_refl _))

theorem maxSalt_cost_eq_zero (count : Nat) (hnone : (sizes H keys).countP (2 ≤ ·) = 0) :
    (cost keys.length count history).maxSalt = 0 := by
  obtain ⟨-, -, htwo⟩ := count_map_min_two (sizes H keys)
  obtain ⟨-, -, -, hmax⟩ := cost_entries_of_visits h count
  rw [← htwo, ← map_arity_of_visits h, List.count_eq_zero] at hnone
  have hwithin := (hmax 0).mpr fun entry hentry =>
    entry.within_of_arity_ne_two 0 fun heq => hnone (List.mem_map.mpr ⟨entry, hentry, heq⟩)
  exact UInt64.le_antisymm hwithin UInt64.zero_le

end Greedy.History

/-! ## The report -/

namespace Table

open Greedy (History)

/-- The report of a build, the census of its table and the partition of its keys agree: on the
number of keys, on how many buckets have no key, one key or several, on the size of the largest
bucket, and on the salts. Every key too many in a bucket leaves another bucket empty. -/
theorem report_eq_census (H : HashFamily) (options : BuildOptions) (keys : List Key) (t : Table H)
    (report : BuildReport) (h : buildWithReport H options keys = .ok (t, report)) :
    (∃ B, BucketLayout.ofKeys H keys = .ok B ∧ B.sizes = Greedy.sizes H keys ∧
      B.largest = .ok report.largestBucket ∧
      (Greedy.sizes H keys).max? = some report.largestBucket) ∧
    (report.keys = keys.length ∧ t.size = keys.length ∧ t.census.slots = keys.length) ∧
    (report.cost.multiKey = (Greedy.sizes H keys).countP (2 ≤ ·) ∧
      t.census.displaced = (Greedy.sizes H keys).countP (2 ≤ ·)) ∧
    (report.cost.singleKey = (Greedy.sizes H keys).count 1 ∧
      t.census.direct = (Greedy.sizes H keys).count 1) ∧
    (report.cost.empty = (Greedy.sizes H keys).count 0 ∧
      t.census.unset = (Greedy.sizes H keys).count 0) ∧
    (report.cost.maxSalt = t.census.maxSalt ∧
      (report.cost.multiKey = 0 → report.cost.maxSalt = 0) ∧
      report.cost.attempts.toNat =
        ((t.entries.toList.filterMap Entry.salt?).map UInt64.toNat).sum % 2 ^ 64) ∧
    report.cost.multiKey + report.cost.singleKey + report.cost.empty = keys.length ∧
    report.cost.empty = (((Greedy.sizes H keys).filter (2 ≤ ·)).map (· - 1)).sum ∧
    report.cost.multiKey ≤ report.cost.empty := by
  obtain ⟨⟨hne, hkeys⟩, history, hrun, rfl, rfl⟩ := (buildWithReport_eq_ok_iff options keys t
    report).mp h
  obtain ⟨B, hB, hgroups⟩ := BucketLayout.ofKeys_groups H keys
  obtain ⟨hsingle, hmulti, hattempts, -⟩ :=
    History.cost_entries_of_visits hrun (Greedy.visits H keys).length
  have hempty := History.empty_cost_visits (H := H) keys history hne hkeys
  -- The census counts arities, which are the sizes up to `2`.
  obtain ⟨hslots, hunset, hdirect, hdisplaced⟩ := (History.table H keys history).census_eq
  obtain ⟨hzero, hone, htwo⟩ := count_map_min_two (Greedy.sizes H keys)
  have harity : (History.table H keys history).entries.toList.map Entry.arity =
      (Greedy.sizes H keys).map (min · 2) := History.map_arity_of_visits hrun
  rw [harity, hzero] at hunset
  rw [harity, hone] at hdirect
  rw [harity, htwo] at hdisplaced
  -- There are as many buckets as keys.
  have hcounts := count_add_count_add_countP (Greedy.sizes H keys)
  have hsum := sum_add_count_zero (Greedy.sizes H keys)
  have hlarger := countP_le_sum_map_sub_one (Greedy.sizes H keys)
  rw [Greedy.sum_sizes, Greedy.length_sizes] at hsum
  rw [Greedy.length_sizes] at hcounts
  simp only [History.report, hsingle, hmulti, hempty]
  refine ⟨⟨B, hB, by rw [hgroups.sizes_eq, Greedy.sizes_eq], hgroups.largest_eq,
      Greedy.max?_sizes keys hne⟩,
    ⟨trivial, History.size_table, hslots.trans History.size_table⟩, ⟨trivial, hdisplaced⟩,
    ⟨trivial, hdirect⟩, ⟨trivial, hunset⟩,
    ⟨History.maxSalt_cost_eq_census hrun _, History.maxSalt_cost_eq_zero hrun _, hattempts⟩,
    hcounts, ?_, ?_⟩
  · omega
  · omega

open HashFamily.Arithmetic in
/-- Two of five keys share a home, so one bucket has a key too many and one is empty. -/
theorem report_eq_census_halving :
    ∃ t report, buildWithReport halving { maxSalt := 4 } [10, 3, 7, 21, 8] = .ok (t, report) ∧
      report.largestBucket = 2 ∧
      (report.cost.multiKey = 1 ∧ report.cost.singleKey = 3 ∧ report.cost.empty = 1) ∧
      t.census.displaced = 1 ∧ t.census.direct = 3 ∧ t.census.unset = 1 := by
  have hsizes : Greedy.sizes halving [10, 3, 7, 21, 8] = [1, 1, 1, 2, 0] := by decide
  obtain ⟨⟨B, -, -, -, hlargest⟩, -, ⟨hmulti, hdisplaced⟩, ⟨hsingle, hdirect⟩,
    ⟨hempty, hunset⟩, -⟩ := report_eq_census halving _ _ _ _ buildWithReport_halving
  rw [hsizes] at hlargest hmulti hdisplaced hsingle hdirect hempty hunset
  exact ⟨_, _, buildWithReport_halving, (Option.some.inj hlargest).symm,
    ⟨hmulti, hsingle, hempty⟩, hdisplaced, hdirect, hunset⟩

end Table

end PerfectHash
