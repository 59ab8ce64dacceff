import PerfectHash.Build
import PerfectHash.Hash.Families
import PerfectHash.Proofs.KeySet
import PerfectHash.Proofs.Placement.Lookup

set_option autoImplicit false

/-! # What a build gives

The stages of a build come together: the layout holds the groups, the schedule is the order of
the visits, and the placement is what the history over this order says. So a build is decided by
one history (`construct_eq`), and what is reported is read off it.

For a key set neither check can stop a build. The keys are distinct, and a history over the
visits gives a bijection, so the check of the table is passed (`buildWithReport_eq`).

At the end five keys are built, two of which share a home (`buildWithReport_halving`). The general
statements on builds are tried on this table.
-/

namespace PerfectHash

variable {H : HashFamily}

namespace Greedy

theorem visits_lt (keys : List Key) (b : Nat) (h : b ∈ visits H keys) : b < keys.length :=
  ((mem_visits keys b).mp h).1

/-- The order of the visits is computed by the stages of the build. -/
theorem visits_eq_of_largestFirst (keys : List Key) (B : BucketLayout) (order : List Nat)
    (hB : BucketLayout.ofKeys H keys = .ok B) (horder : Schedule.largestFirst B.sizes = .ok order) :
    visits H keys = order := by
  obtain ⟨B', hB', hgroups⟩ := BucketLayout.ofKeys_groups H keys
  cases hB.symm.trans hB'
  exact Except.ok.inj (hgroups.largestFirst_eq.symm.trans horder)

def History.report (H : HashFamily) (keys : List Key) (history : History) : BuildReport where
  keys := keys.length
  largestBucket := largest H keys
  cost := History.cost keys.length (visits H keys).length history

/-- A run over the visits ends at a bucket of several keys. -/
theorem History.cause_halt_of_visits (bound : Salt) (keys : List Key) (b : Nat) (history : History)
    (h : History.ofOrder H bound keys (visits H keys) = .error (b, history)) :
    (History.halt H bound keys (b, history)).cause =
      .noFittingSalt b (group H keys b).length bound := by
  have htwo := History.two_le_of_ofOrder_eq_error bound keys _ b history (nodup_visits keys) h
  rw [History.cause_halt, if_neg (by omega)]

end Greedy

namespace Table

open Greedy (History)

/-- The result of a build with the outcome of its run. -/
def ofRun (H : HashFamily) (bound : Salt) (keys : List Key) :
    Except (Nat × History) History → Outcome (Table H × BuildReport)
  | .ok history => .ok (History.table H keys history, History.report H keys history)
  | .error (b, _) => .error (.noFittingSalt b (Greedy.group H keys b).length bound)

theorem ofRun_eq_ok_iff (bound : Salt) (keys : List Key) (run : Except (Nat × History) History)
    (t : Table H) (report : BuildReport) :
    ofRun H bound keys run = .ok (t, report) ↔
      ∃ history, run = .ok history ∧ t = History.table H keys history ∧
        report = History.report H keys history := by
  cases run with
  | error failed => simp [ofRun]
  | ok history => simp [ofRun, eq_comm]

theorem construct_eq (options : BuildOptions) (keys : List Key) :
    construct H options keys = ofRun H options.maxSalt keys
      (History.ofOrder H options.maxSalt keys (Greedy.visits H keys)) := by
  obtain ⟨B, hB, hgroups⟩ := BucketLayout.ofKeys_groups H keys
  simp only [construct, bind, Except.bind]
  rw [hB]
  simp only
  rw [hgroups.largestFirst_eq]
  simp only
  rw [hgroups.largest_eq]
  simp only
  rw [Placement.ofBuckets_eq hgroups _ (Greedy.visits_lt keys)]
  cases hrun : History.ofOrder H options.maxSalt keys (Greedy.visits H keys) with
  | ok history => rfl
  | error failed =>
      rcases failed with ⟨b, history⟩
      simp only [Placement.ofRun, Except.mapError, ofRun]
      rw [History.cause_halt_of_visits options.maxSalt keys b history hrun]

/-- A build of a key set is decided by its run alone. -/
theorem buildWithReport_eq (options : BuildOptions) (keys : List Key) (hne : keys ≠ [])
    (hnodup : keys.Nodup) :
    buildWithReport H options keys = ofRun H options.maxSalt keys
      (History.ofOrder H options.maxSalt keys (Greedy.visits H keys)) := by
  simp only [buildWithReport, bind, Except.bind]
  rw [checkDistinct_eq_ok keys hne hnodup]
  simp only
  rw [construct_eq]
  cases hrun : History.ofOrder H options.maxSalt keys (Greedy.visits H keys) with
  | ok history =>
      have hbijection := (Greedy.History.isBijectionOn_of_visits _ keys history hrun).2
      simp only [ofRun]
      rw [hbijection.checkBijective_eq_ok]
      rfl
  | error failed => rfl

theorem buildWithReport_cases (options : BuildOptions) (keys : List Key) (hne : keys ≠ [])
    (hnodup : keys.Nodup) :
    (∃ t report, buildWithReport H options keys = .ok (t, report) ∧ t.IsBijectionOn keys) ∨
      ∃ b size,
        buildWithReport H options keys = .error (.noFittingSalt b size options.maxSalt) := by
  rw [buildWithReport_eq options keys hne hnodup]
  cases hrun : History.ofOrder H options.maxSalt keys (Greedy.visits H keys) with
  | ok history =>
      exact .inl ⟨_, _, rfl, (Greedy.History.isBijectionOn_of_visits _ keys history hrun).2⟩
  | error failed => exact .inr ⟨failed.1, _, rfl⟩

/-- A build succeeds for the key sets over whose visits there is a history, with what it says. -/
theorem buildWithReport_eq_ok_iff (options : BuildOptions) (keys : List Key) (t : Table H)
    (report : BuildReport) :
    buildWithReport H options keys = .ok (t, report) ↔
      (keys ≠ [] ∧ keys.Nodup) ∧
        ∃ history, History.ofOrder H options.maxSalt keys (Greedy.visits H keys) = .ok history ∧
          t = History.table H keys history ∧ report = History.report H keys history := by
  constructor
  · intro h
    obtain ⟨⟨⟩, hcheck, -⟩ := bind_eq_ok_iff.mp h
    have hkeys := (checkDistinct_eq_ok_iff keys).mp hcheck
    rw [buildWithReport_eq options keys hkeys.1 hkeys.2, ofRun_eq_ok_iff] at h
    exact ⟨hkeys, h⟩
  · rintro ⟨hkeys, h⟩
    rwa [buildWithReport_eq options keys hkeys.1 hkeys.2, ofRun_eq_ok_iff]

theorem build_eq_map (options : BuildOptions) (keys : List Key) :
    build H options keys = (buildWithReport H options keys).map Prod.fst := by
  simp only [build, bind, Except.bind]
  cases buildWithReport H options keys <;> rfl

theorem build_eq_ok_iff (options : BuildOptions) (keys : List Key) (t : Table H) :
    build H options keys = .ok t ↔
      (keys ≠ [] ∧ keys.Nodup) ∧
        ∃ history, History.ofOrder H options.maxSalt keys (Greedy.visits H keys) = .ok history ∧
          t = History.table H keys history := by
  have hreport : build H options keys = .ok t ↔
      ∃ report, buildWithReport H options keys = .ok (t, report) := by
    rw [build_eq_map]
    cases buildWithReport H options keys with
    | error failure => simp [Except.map]
    | ok result =>
        rcases result with ⟨u, report⟩
        simp [Except.map]
  rw [hreport]
  simp only [buildWithReport_eq_ok_iff]
  constructor
  · rintro ⟨report, hkeys, history, hrun, ht, -⟩
    exact ⟨hkeys, history, hrun, ht⟩
  · rintro ⟨hkeys, history, hrun, ht⟩
    exact ⟨_, hkeys, history, hrun, ht, rfl⟩

end Table

/-! ## Five keys -/

section Halving

open Greedy (History)
open HashFamily.Arithmetic (halving)

theorem Greedy.visits_halving : visits halving [10, 3, 7, 21, 8] = [3, 0, 1, 2] :=
  visits_eq_of_largestFirst _ ⟨#[0, 1, 2, 3, 5, 5], #[10, 21, 7, 3, 8]⟩ _ rfl rfl

/-- The keys `3` and `8` are placed first, on the slots `4` and `2`. -/
theorem Table.buildWithReport_halving :
    buildWithReport halving { maxSalt := 4 } [10, 3, 7, 21, 8] =
      .ok (⟨#[.direct 0, .direct 1, .direct 3, .displacement 1, .unset]⟩,
        { keys := 5, largestBucket := 2,
          cost :=
            { multiKey := 1, singleKey := 3, empty := 1, attempts := 1, maxSalt := 1 } }) := by
  have hrun : History.ofOrder halving 4 [10, 3, 7, 21, 8] [3, 0, 1, 2] =
      .ok [(2, .direct 3), (1, .direct 1), (0, .direct 0), (3, .displacement 1)] := rfl
  rw [buildWithReport_eq _ _ (by decide) (by decide), Greedy.visits_halving, hrun, ofRun,
    History.report, Greedy.visits_halving]
  rfl

theorem Table.build_halving : build halving { maxSalt := 4 } [10, 3, 7, 21, 8] =
    .ok ⟨#[.direct 0, .direct 1, .direct 3, .displacement 1, .unset]⟩ := by
  rw [build_eq_map, buildWithReport_halving]
  rfl

end Halving

end PerfectHash
