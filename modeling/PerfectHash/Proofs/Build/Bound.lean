import PerfectHash.Hash.Families
import PerfectHash.Proofs.Build.Construct
import PerfectHash.Proofs.Table.Census

set_option autoImplicit false

/-! # The bound on the salts

A smaller bound cuts the list of the salts that are tried short, and nothing else. So a choice
under the smaller bound is the choice under the larger one, as long as that is within the
smaller bound (`Greedy.choose_eq_some_iff_of_le`), and the history of a run carries over under
the same condition on all its entries. That condition is read off the report, which keeps the
greatest salt. Where the runs part, the one with the smaller bound ends.
-/

namespace PerfectHash

variable {H : HashFamily}

/-! ## Choices -/

namespace Greedy

variable {bound bound' : Salt} (hle : bound ≤ bound')
include hle

theorem leastFit_eq_some_iff_of_le (n : Nat) (claimed : List Nat) (keys : List Key) (salt : Salt) :
    leastFit H n claimed bound keys = some salt ↔
      leastFit H n claimed bound' keys = some salt ∧ salt ≤ bound := by
  rw [leastFit_eq_some_iff, leastFit_eq_some_iff]
  constructor
  · rintro ⟨⟨hone, hsalt, hfits⟩, hleast⟩
    exact ⟨⟨⟨hone, UInt64.le_trans hsalt hle, hfits⟩, hleast⟩, hsalt⟩
  · rintro ⟨⟨⟨hone, -, hfits⟩, hleast⟩, hsalt⟩
    exact ⟨⟨hone, hsalt, hfits⟩, hleast⟩

theorem choose_eq_some_iff_of_le (n : Nat) (claimed : List Nat) (keys : List Key) (entry : Entry) :
    choose H n claimed bound keys = some entry ↔
      choose H n claimed bound' keys = some entry ∧ entry.Within bound := by
  match keys with
  | [] =>
      rw [choose_nil, choose_nil]
      constructor
      · intro heq
        cases heq
        exact ⟨rfl, trivial⟩
      · rintro ⟨heq, -⟩
        exact heq
  | [_] =>
      rw [choose_single, choose_single]
      constructor
      · intro heq
        rcases Option.map_eq_some_iff.mp heq with ⟨slot, -, rfl⟩
        exact ⟨heq, trivial⟩
      · rintro ⟨heq, -⟩
        exact heq
  | first :: second :: rest =>
      rw [choose_multi, choose_multi, Option.map_eq_some_iff, Option.map_eq_some_iff]
      constructor
      · rintro ⟨salt, hsalt, rfl⟩
        rcases (leastFit_eq_some_iff_of_le hle n claimed _ salt).mp hsalt with ⟨hsalt', hwithin⟩
        exact ⟨⟨salt, hsalt', rfl⟩, hwithin⟩
      · rintro ⟨⟨salt, hsalt, rfl⟩, hwithin⟩
        exact ⟨salt, (leastFit_eq_some_iff_of_le hle n claimed _ salt).mpr ⟨hsalt, hwithin⟩, rfl⟩

/-! ## Histories -/

namespace History

theorem chosen_iff_of_le (keys : List Key) (history : History) :
    history.Chosen H bound keys ↔
      history.Chosen H bound' keys ∧ ∀ visit ∈ history, visit.2.Within bound := by
  induction history with
  | nil => simp [Chosen]
  | cons visit history ih =>
      rcases visit with ⟨b, entry⟩
      rw [Chosen, Chosen, ih, choose_eq_some_iff_of_le hle, List.forall_mem_cons]
      tauto

omit hle in
theorem maxSalt_cost_le_iff (n count : Nat) (history : History) :
    (cost n count history).maxSalt ≤ bound ↔ ∀ visit ∈ history, visit.2.Within bound := by
  induction history with
  | nil => simp [cost]
  | cons visit history ih =>
      rcases visit with ⟨b, entry⟩
      rw [List.forall_mem_cons, ← ih]
      cases entry with
      | unset => simp [cost, Entry.Within]
      | direct slot => simp [cost, Entry.Within]
      | displacement salt =>
          rw [cost, Salt.max_le_iff, and_comm]
          rfl

/-- A run under the smaller bound is a run under the larger one that needs no larger salt. -/
theorem ofOrder_eq_ok_iff_of_le (keys : List Key) (order : List Nat) (count : Nat)
    (history : History) :
    ofOrder H bound keys order = .ok history ↔
      ofOrder H bound' keys order = .ok history ∧
        (cost keys.length count history).maxSalt ≤ bound := by
  rw [ofOrder_eq_ok_iff, ofOrder_eq_ok_iff, chosen_iff_of_le hle, maxSalt_cost_le_iff, and_assoc]

/-- Where a run under the larger bound ends, or before, the run under the smaller bound ends. -/
theorem ofOrder_eq_error_of_le (keys : List Key) (order : List Nat) (b' : Nat) (history' : History)
    (h : ofOrder H bound' keys order = .error (b', history')) :
    ∃ before after b history, order = before ++ b' :: after ∧
      ofOrder H bound keys order = .error (b, history) ∧ (b = b' ∨ b ∈ before) := by
  obtain ⟨before, after, rfl, hbefore, hnone⟩ := ofOrder_eq_error bound' keys order b' history' h
  cases hrun : ofOrder H bound keys (before ++ [b']) with
  | ok history =>
      -- This run would also go through under the larger bound, where it ends at the last bucket.
      rcases (ofOrder_eq_ok_iff_of_le hle keys _ 0 history).mp hrun with ⟨hrun', -⟩
      obtain ⟨middle, hmiddle, hextend⟩ :=
        (ofOrder_concat_eq_ok_iff bound' keys before b' history).mp hrun'
      cases hbefore.symm.trans hmiddle
      rcases (extend_eq_ok_iff bound' keys history' history b').mp hextend with ⟨entry, -, hchoose⟩
      cases hnone.symm.trans hchoose
  | error failed =>
      rcases failed with ⟨b, history⟩
      obtain ⟨front, back, hsplit, -, -⟩ := ofOrder_eq_error bound keys _ b history hrun
      have hmem : b ∈ before ++ [b'] := by
        rw [hsplit]
        simp
      refine ⟨before, after, b, history, rfl, ?_, ?_⟩
      · rw [List.append_cons]
        exact ofOrder_append_eq_error bound keys _ after _ hrun
      · simpa [or_comm] using hmem

end History

end Greedy

/-! ## Builds -/

namespace Table

open Greedy (History)

theorem buildWithReport_eq_ok_iff_maxSalt_le (options options' : BuildOptions)
    (hle : options.maxSalt ≤ options'.maxSalt) (keys : List Key) (t : Table H)
    (report : BuildReport) :
    buildWithReport H options keys = .ok (t, report) ↔
      buildWithReport H options' keys = .ok (t, report) ∧
        report.cost.maxSalt ≤ options.maxSalt := by
  rw [buildWithReport_eq_ok_iff, buildWithReport_eq_ok_iff]
  constructor
  · rintro ⟨hkeys, history, hrun, rfl, rfl⟩
    obtain ⟨hrun', hmax⟩ :=
      (History.ofOrder_eq_ok_iff_of_le hle keys _ (Greedy.visits H keys).length history).mp hrun
    exact ⟨⟨hkeys, history, hrun', rfl, rfl⟩, hmax⟩
  · rintro ⟨⟨hkeys, history, hrun', rfl, rfl⟩, hmax⟩
    exact ⟨hkeys, history,
      (History.ofOrder_eq_ok_iff_of_le hle keys _ _ history).mpr ⟨hrun', hmax⟩, rfl, rfl⟩

/-- A build under the smaller bound succeeds exactly when the build under the larger one needs no
larger salt, and then it is the same. Where the larger bound is not enough, the smaller one is
not enough for that bucket or for one before it. -/
theorem buildWithReport_eq_ok_iff_of_le (H : HashFamily) (options options' : BuildOptions)
    (hle : options.maxSalt ≤ options'.maxSalt) (keys : List Key) (hne : keys ≠ [])
    (hnodup : keys.Nodup) :
    (∀ t report, buildWithReport H options keys = .ok (t, report) ↔
      buildWithReport H options' keys = .ok (t, report) ∧
        report.cost.maxSalt ≤ options.maxSalt) ∧
    ∀ failure, buildWithReport H options' keys = .error failure →
      ∃ B before b' after size' b size,
        failure = .noFittingSalt b' size' options'.maxSalt ∧
        buildWithReport H options keys = .error (.noFittingSalt b size options.maxSalt) ∧
        BucketLayout.ofKeys H keys = .ok B ∧
        Schedule.largestFirst B.sizes = .ok (before ++ b' :: after) ∧
        (b = b' ∨ b ∈ before) := by
  refine ⟨buildWithReport_eq_ok_iff_maxSalt_le options options' hle keys,
    fun failure hfailure => ?_⟩
  rw [buildWithReport_eq options' keys hne hnodup] at hfailure
  rw [buildWithReport_eq options keys hne hnodup]
  cases hrun' : History.ofOrder H options'.maxSalt keys (Greedy.visits H keys) with
  | ok history =>
      rw [hrun'] at hfailure
      cases hfailure
  | error failed =>
      rcases failed with ⟨b', history'⟩
      rw [hrun'] at hfailure
      cases hfailure
      obtain ⟨before, after, b, history, horder, hrun, hb⟩ :=
        History.ofOrder_eq_error_of_le hle keys _ b' history' hrun'
      obtain ⟨B, hB, hgroups⟩ := BucketLayout.ofKeys_groups H keys
      refine ⟨B, before, b', after, _, b, (Greedy.group H keys b).length, rfl, ?_, hB, ?_, hb⟩
      · rw [hrun, ofRun]
      · rw [hgroups.largestFirst_eq, horder]

/-- The two keys that share a home need salt `1`, so one salt is as good as four. Under the
constant family no number of salts is enough. -/
theorem buildWithReport_eq_ok_iff_of_le_halving :
    (1 : Salt) ≤ 4 ∧ ([10, 3, 7, 21, 8] : List Key) ≠ [] ∧ ([10, 3, 7, 21, 8] : List Key).Nodup ∧
      (∃ t report,
        buildWithReport HashFamily.Arithmetic.halving { maxSalt := 1 } [10, 3, 7, 21, 8] =
          .ok (t, report) ∧
        buildWithReport HashFamily.Arithmetic.halving { maxSalt := 4 } [10, 3, 7, 21, 8] =
          .ok (t, report) ∧ report.cost.maxSalt = 1) ∧
      ∃ b size, buildWithReport HashFamily.Arithmetic.constant { maxSalt := 1 } [10, 3, 7] =
        .error (.noFittingSalt b size 1) := by
  refine ⟨by decide, by decide, by decide, ?_, ?_⟩
  · have hsmall := ((buildWithReport_eq_ok_iff_of_le HashFamily.Arithmetic.halving
      { maxSalt := 1 } { maxSalt := 4 } (by decide) [10, 3, 7, 21, 8] (by decide)
      (by decide)).1 _ _).mpr ⟨buildWithReport_halving, by decide⟩
    exact ⟨_, _, hsmall, buildWithReport_halving, rfl⟩
  · have hvisits : Greedy.visits HashFamily.Arithmetic.constant [10, 3, 7] = [0] :=
      Greedy.visits_eq_of_largestFirst _ ⟨#[0, 3, 3, 3], #[10, 3, 7]⟩ _ rfl rfl
    have hrun : History.ofOrder HashFamily.Arithmetic.constant 4 [10, 3, 7] [0] =
        .error (0, []) := rfl
    have hlarge := buildWithReport_eq (H := HashFamily.Arithmetic.constant) { maxSalt := 4 }
      [10, 3, 7] (by decide) (by decide)
    rw [hvisits, hrun, ofRun] at hlarge
    obtain ⟨B, before, b', after, size', b, size, -, hsmall, -⟩ :=
      (buildWithReport_eq_ok_iff_of_le HashFamily.Arithmetic.constant { maxSalt := 1 }
        { maxSalt := 4 } (by decide) [10, 3, 7] (by decide) (by decide)).2 _ hlarge
    exact ⟨b, size, hsmall⟩

end Table

end PerfectHash
