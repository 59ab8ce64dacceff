import Mathlib.Algebra.GroupWithZero.Nat
import PerfectHash.Hash.Families
import PerfectHash.Proofs.Placement.Lookup

set_option autoImplicit false

/-! # How a placement ends early

A run that ends names the bucket that it could not place, and the report is exact
(`ofBuckets_eq_error_exact`): the visits before went through, every salt within the bound fails
for this bucket at the slots claimed by then, and the log has one event for each of the earlier
visits of a bucket with several keys.

To speak of what happened at a visit, `Run.Passes` runs the program visit by visit and notes the
entry that every visit has written. The visits of a history can be noted in this way
(`exists_passes`), so the entries of the history are those of the program at the time of the
visit, also where a later visit of the same bucket writes another one.
-/

namespace PerfectHash.Placement

open Greedy (History)

variable {H : HashFamily} {keys : List Key} {bound : Salt}

/-- From `start`, the program visits the buckets of the history, the one at its end first, and
comes to the run. Every bucket has the noted entry right after its visit. -/
inductive Run.Passes (H : HashFamily) (B : BucketLayout) (start : Run) : History → Run → Prop where
  | start : Passes H B start [] start
  | visit {history : History} {before after : Run} {b : Nat} {entry : Entry}
      (earlier : Passes H B start history before) (step : placeBucket H B before b = .ok after)
      (written : after.entries[b]? = some entry) : Passes H B start ((b, entry) :: history) after

/-- The visits of a history of choices are steps of the program. -/
theorem exists_passes {B : BucketLayout} (hB : B.Groups H keys) (count : Nat) (width : UInt64)
    (history : History) (hchosen : history.Chosen H bound keys)
    (hlt : ∀ b ∈ history.map Prod.fst, b < keys.length) :
    ∃ run, (Run.start B.count count bound width).Passes H B history run ∧
      run.Reflects H keys bound count history := by
  induction history with
  | nil =>
      refine ⟨_, .start, ?_⟩
      rw [hB.count_eq]
      exact reflects_start H keys bound count width
  | cons visit history ih =>
      rcases visit with ⟨b, entry⟩
      have hb : b < keys.length := hlt b (by simp)
      obtain ⟨before, hpasses, hreflects⟩ := ih hchosen.2 fun c hc => hlt c (by simp [hc])
      have hextend : History.extend H bound keys history b = .ok ((b, entry) :: history) :=
        (History.extend_eq_ok_iff bound keys history _ b).mpr ⟨entry, rfl, hchosen.1⟩
      have hfollows := hreflects.placeBucket b hb hB
      rw [hextend] at hfollows
      obtain ⟨after, hstep, hafter⟩ := hfollows.exists_ok
      refine ⟨after, .visit hpasses hstep ?_, hafter⟩
      rw [hafter.entries_eq, List.getElem?_toArray]
      exact hchosen.getElem?_entries_of_mem_latest b entry hb (by simp [History.latest])

/-- Only multi-key placements are noted in the log of a history. -/
theorem exhausted_not_mem_log (history : History) (b size used slots : Nat) (salt : Salt) :
    Event.exhausted b size salt used slots ∉ History.log H keys history := by
  induction history with
  | nil => simp [History.log]
  | cons visit history ih =>
      rcases visit with ⟨c, entry⟩
      cases entry <;> simp [History.log, ih]

/-- A run claims as many slots as the visited buckets have keys. -/
theorem length_claimed_eq_sum {history : History} (h : history.Chosen H bound keys)
    (order : List Nat) (hmap : history.map Prod.fst = order.reverse) :
    (History.claimed H keys history).length =
      (order.map fun b => (Greedy.group H keys b).length).sum := by
  calc (History.claimed H keys history).length
    _ = (order.reverse.flatMap (Greedy.group H keys)).length := by rw [h.length_claimed, hmap]
    _ = (order.flatMap (Greedy.group H keys)).length :=
        ((List.reverse_perm order).flatMap_right _).length_eq
    _ = (order.map fun b => (Greedy.group H keys b).length).sum := List.length_flatMap

/-- A run ends for want of a salt or for want of a slot. -/
theorem halt_cases {history : History} (h : history.Chosen H bound keys) (b : Nat)
    (hnone : Greedy.choose H keys.length (History.claimed H keys history) bound
      (Greedy.group H keys b) = none) :
    (2 ≤ (Greedy.group H keys b).length ∧
      History.halt H bound keys (b, history) =
        ⟨.noFittingSalt b (Greedy.group H keys b).length bound, History.log H keys history ++
          [.exhausted b (Greedy.group H keys b).length bound
            (History.claimed H keys history).length keys.length]⟩ ∧
      ∀ salt, 1 ≤ salt → salt ≤ bound →
        ¬ H.Fits keys.length (· ∈ History.claimed H keys history) (Greedy.group H keys b) salt) ∨
    ((Greedy.group H keys b).length = 1 ∧
      History.halt H bound keys (b, history) =
        ⟨.noFittingSalt b 1 0, History.log H keys history⟩ ∧
      (History.claimed H keys history).length = keys.length) := by
  rw [History.halt]
  by_cases hone : (Greedy.group H keys b).length = 1
  · right
    obtain ⟨key, hkey⟩ := List.length_eq_one_iff.mp hone
    rw [hkey] at hnone
    have hfull := Greedy.le_length_of_choose_single_eq_none _ _ _ _ hnone
    exact ⟨hone, by simp only [hone, if_true], Nat.le_antisymm h.length_claimed_le hfull⟩
  · left
    have hne : Greedy.group H keys b ≠ [] := by
      intro hnil
      rw [hnil, Greedy.choose_nil] at hnone
      cases hnone
    have htwo : 2 ≤ (Greedy.group H keys b).length := by
      have := List.length_pos_iff.mpr hne
      omega
    exact ⟨htwo, by simp only [hone, if_false],
      Greedy.not_fits_of_choose_eq_none _ _ _ _ htwo hnone⟩

/-- A placement over any order ends early only at a bucket with keys, after the visits before it
went through. With several keys, no salt within the bound fits at the slots claimed by then: each
sends two positions to one slot or a key to a claimed slot. With one key, all slots are claimed,
and some bucket has been visited twice. The log tells the earlier visits of buckets with several
keys in their order and, in the first case, the end. -/
theorem ofBuckets_eq_error_exact (H : HashFamily) (keys : List Key) (order : List Nat)
    (horder : ∀ b ∈ order, b < keys.length) (bound : Salt) (width : UInt64) :
    ∃ B, BucketLayout.ofKeys H keys = .ok B ∧
      (∀ b < keys.length, B.bucket b = .ok (Greedy.group H keys b)) ∧
      ∀ halt, ofBuckets H B order bound width = .error halt →
        ∃ front b back size attempts before history run,
          order = front ++ [b] ++ back ∧
          halt.cause = .noFittingSalt b size attempts ∧
          size = (Greedy.group H keys b).length ∧
          ofBuckets H B front bound width = .ok before ∧
          (history.map Prod.fst).reverse = front ∧
          (Run.start B.count order.length bound width).Passes H B history run ∧
          (∀ visit ∈ history,
            Greedy.Suits keys.length bound (Greedy.group H keys visit.1) visit.2) ∧
          (∀ slot, slot ∈ run.allocator.used ↔ slot ∈ History.claimed H keys history) ∧
          ((2 ≤ size ∧ attempts = bound ∧
              (∀ salt, 1 ≤ salt → salt ≤ bound →
                (∃ i j, ∃ (hi : i < (Greedy.group H keys b).length)
                    (hj : j < (Greedy.group H keys b).length), i < j ∧
                  H.slot keys.length salt (Greedy.group H keys b)[i] =
                    H.slot keys.length salt (Greedy.group H keys b)[j]) ∨
                ∃ key ∈ Greedy.group H keys b,
                  H.slot keys.length salt key ∈ History.claimed H keys history) ∧
              halt.log = History.log H keys history ++ [.exhausted b size bound
                (front.map fun c => (Greedy.group H keys c).length).sum keys.length]) ∨
            (size = 1 ∧ attempts = 0 ∧
              (front.map fun c => (Greedy.group H keys c).length).sum = keys.length ∧
              halt.log = History.log H keys history ∧
              ∀ c size salt used slots, .exhausted c size salt used slots ∉ halt.log)) ∧
          (order.Nodup → size ≠ 1) := by
  obtain ⟨B, hB, hgroups⟩ := BucketLayout.ofKeys_groups H keys
  refine ⟨B, hB, hgroups.bucket_eq, fun halt hhalt => ?_⟩
  obtain ⟨front, b, back, history, hsplit, hmap, hchosen, hnone, rfl, htwo⟩ :=
    ofBuckets_eq_error hgroups order horder hhalt
  have hlt : ∀ c ∈ front, c < keys.length :=
    fun c hc => horder c (by rw [hsplit]; simp [hc])
  have hreverse : (history.map Prod.fst).reverse = front := by
    rw [hmap, List.reverse_reverse]
  have hbefore : ofBuckets H B front bound width = .ok _ :=
    (ofBuckets_eq_ok_iff hgroups front hlt).mpr ⟨history, hmap, hchosen, rfl⟩
  obtain ⟨run, hpasses, hreflects⟩ := exists_passes hgroups order.length width history hchosen
    fun c hc => hlt c (by rwa [hmap, List.mem_reverse] at hc)
  have hsum := length_claimed_eq_sum hchosen front hmap
  have hsize : order.Nodup → (Greedy.group H keys b).length ≠ 1 := by
    intro hnodup
    have := htwo hnodup
    omega
  rcases halt_cases hchosen b hnone with ⟨hmany, hhalt, hfits⟩ | ⟨hone, hhalt, hfull⟩
  · refine ⟨front, b, back, _, bound, _, history, run, hsplit, by rw [hhalt], rfl, hbefore,
      hreverse, hpasses, fun visit => hchosen.suits visit.1 visit.2, hreflects.used.mem_iff,
      .inl ⟨hmany, rfl, ?_, by rw [hhalt, hsum]⟩, hsize⟩
    intro salt hpos hle
    exact (HashFamily.not_fits_iff _ _ salt).mp (hfits salt hpos hle)
  · refine ⟨front, b, back, _, 0, _, history, run, hsplit, by rw [hhalt, hone], rfl, hbefore,
      hreverse, hpasses, fun visit => hchosen.suits visit.1 visit.2, hreflects.used.mem_iff,
      .inr ⟨hone, rfl, hsum.symm.trans hfull, by rw [hhalt], ?_⟩, hsize⟩
    intro c size salt used slots
    rw [hhalt]
    exact exhausted_not_mem_log history c size used slots salt

/-- Five keys in four buckets. Bucket `3` finds a salt on its first visit, and on its second one
only if bucket `1` was not visited in between. After two visits of bucket `3`, the first one of
bucket `0` takes the last slot. -/
theorem ofBuckets_eq_error_exact_halving :
    (∀ b ∈ [4, 3, 1, 3], b < ([10, 3, 7, 21, 8] : List Key).length) ∧
    (∀ b ∈ [3, 3, 0, 0], b < ([10, 3, 7, 21, 8] : List Key).length) ∧
    ∃ B, BucketLayout.ofKeys HashFamily.Arithmetic.halving [10, 3, 7, 21, 8] = .ok B ∧
      ofBuckets HashFamily.Arithmetic.halving B [4, 3, 1, 3] 4 64 =
        .error ⟨.noFittingSalt 3 2 4, [.placed 3 2 1, .exhausted 3 2 4 3 5]⟩ ∧
      (∃ front back history, [4, 3, 1, 3] = front ++ [3] ++ back ∧
        (history.map Prod.fst).reverse = front ∧
        ∀ salt, 1 ≤ salt → salt ≤ 4 → ¬ HashFamily.Arithmetic.halving.Fits 5
          (· ∈ History.claimed HashFamily.Arithmetic.halving [10, 3, 7, 21, 8] history)
          [3, 8] salt) ∧
      ofBuckets HashFamily.Arithmetic.halving B [3, 3, 0, 0] 4 64 =
        .error ⟨.noFittingSalt 0 1 0, [.placed 3 2 1, .placed 3 2 2]⟩ ∧
      ∃ front back, [3, 3, 0, 0] = front ++ [0] ++ back ∧ (front.map fun c =>
        (Greedy.group HashFamily.Arithmetic.halving [10, 3, 7, 21, 8] c).length).sum = 5 := by
  obtain ⟨B, hB, hgroups⟩ :=
    BucketLayout.ofKeys_groups HashFamily.Arithmetic.halving [10, 3, 7, 21, 8]
  have hsalt : ofBuckets HashFamily.Arithmetic.halving B [4, 3, 1, 3] 4 64 =
      .error ⟨.noFittingSalt 3 2 4, [.placed 3 2 1, .exhausted 3 2 4 3 5]⟩ := by
    rw [ofBuckets_eq hgroups _ (by decide)]
    rfl
  have hslot : ofBuckets HashFamily.Arithmetic.halving B [3, 3, 0, 0] 4 64 =
      .error ⟨.noFittingSalt 0 1 0, [.placed 3 2 1, .placed 3 2 2]⟩ := by
    rw [ofBuckets_eq hgroups _ (by decide)]
    rfl
  refine ⟨by decide, by decide, B, hB, hsalt, ?_, hslot, ?_⟩
  · obtain ⟨B', hB', -, hexact⟩ := ofBuckets_eq_error_exact HashFamily.Arithmetic.halving
      [10, 3, 7, 21, 8] [4, 3, 1, 3] (by decide) 4 64
    cases hB.symm.trans hB'
    obtain ⟨front, b, back, size, attempts, before, history, run, hsplit, hcause, -, -, hfront, -,
      -, -, hcases, -⟩ := hexact _ hsalt
    cases hcause
    rcases hcases with ⟨-, -, hreasons, -⟩ | ⟨hone, -⟩
    · refine ⟨front, back, history, hsplit, hfront, fun salt hpos hle => ?_⟩
      exact (HashFamily.not_fits_iff _ _ salt).mpr (hreasons salt hpos hle)
    · cases hone
  · obtain ⟨B', hB', -, hexact⟩ := ofBuckets_eq_error_exact HashFamily.Arithmetic.halving
      [10, 3, 7, 21, 8] [3, 3, 0, 0] (by decide) 4 64
    cases hB.symm.trans hB'
    obtain ⟨front, b, back, size, attempts, before, history, run, hsplit, hcause, -, -, -, -,
      -, -, hcases, -⟩ := hexact _ hslot
    cases hcause
    rcases hcases with ⟨htwo, -⟩ | ⟨-, -, hsum, -⟩
    · omega
    · exact ⟨front, back, hsplit, hsum⟩

end PerfectHash.Placement
