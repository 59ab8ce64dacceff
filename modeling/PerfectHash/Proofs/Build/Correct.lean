import PerfectHash.Hash.Families
import PerfectHash.Proofs.Build.Construct

set_option autoImplicit false

/-! # Builds are correct

A build gives a bijection or refuses its keys for a reason that it names, and the only reason
that is not a fault of the keys is a bucket of several keys for which no salt fits
(`Table.build_bijective_or_refused`). No fault and no defect of the table is ever reported.

The result is not just some bijection: it is the one that the greedy rule on plain lists gives
(`Table.build_eq_greedy`). The rule keeps a board, which is a part of the history of the run.
-/

namespace PerfectHash

open Greedy (History)

variable {H : HashFamily}

/-! ## The pipeline -/

theorem Greedy.length_group_eq_countP (keys : List Key) (b : Nat) :
    (group H keys b).length = keys.countP fun key => H.home keys.length key = b :=
  List.countP_eq_length_filter.symm

theorem Greedy.History.empty_cost (n count : Nat) (history : History) (h : count ≤ n) :
    (History.cost n count history).empty = (UInt64.ofNat (n - count)).toNat := by
  induction history with
  | nil => rw [UInt64.ofNat_sub h, History.cost]
  | cons visit history ih =>
      rcases visit with ⟨b, entry⟩
      cases entry <;> exact ih

namespace Table

/-- A build gives a bijection, or it refuses the keys for one of three reasons. -/
theorem build_cases (options : BuildOptions) (keys : List Key) :
    (∃ t, build H options keys = .ok t ∧ t.IsBijectionOn keys) ∨
      (keys = [] ∧ build H options keys = .error .emptyKeySet) ∨
      (¬ keys.Nodup ∧ ∃ key, build H options keys = .error (.duplicateKey key)) ∨
      ∃ b size, build H options keys = .error (.noFittingSalt b size options.maxSalt) ∧
        size = (keys.countP fun key => H.home keys.length key = b) ∧ 2 ≤ size := by
  by_cases hkeys : keys ≠ [] ∧ keys.Nodup
  · rw [build_eq_map, buildWithReport_eq options keys hkeys.1 hkeys.2]
    cases hrun : History.ofOrder H options.maxSalt keys (Greedy.visits H keys) with
    | ok history =>
        exact .inl ⟨_, rfl, (Greedy.History.isBijectionOn_of_visits _ keys history hrun).2⟩
    | error failed =>
        rcases failed with ⟨b, history⟩
        refine .inr (.inr (.inr ⟨b, _, rfl, Greedy.length_group_eq_countP keys b, ?_⟩))
        exact History.two_le_of_ofOrder_eq_error _ keys _ b history (Greedy.nodup_visits keys) hrun
  · rcases checkDistinct_eq_error keys hkeys with ⟨hempty, hcheck⟩ | ⟨hrepeat, key, hcheck⟩
    · refine .inr (.inl ⟨hempty, ?_⟩)
      rw [build_eq_map, buildWithReport, hcheck]
      rfl
    · refine .inr (.inr (.inl ⟨hrepeat, key, ?_⟩))
      rw [build_eq_map, buildWithReport, hcheck]
      rfl

/-- The stages of a build never leave their domain. For any keys they give a bijection or name a
bucket of several keys that no salt fits, and a build ends in one of four ways. -/
theorem build_bijective_or_refused (H : HashFamily) (options : BuildOptions) (keys : List Key) :
    (∃ B order most, BucketLayout.ofKeys H keys = .ok B ∧
      Schedule.largestFirst B.sizes = .ok order ∧ B.largest = .ok most ∧
      order.length ≤ B.count ∧
      ((∃ run placement,
          order.foldlM (Placement.placeBucket H B)
            (.start B.count order.length options.maxSalt options.window) = .ok run ∧
          run.allocator.used.used = keys.length ∧
          Placement.ofBuckets H B order options.maxSalt options.window = .ok placement ∧
          placement.entries.size = keys.length ∧
          placement.cost.empty = (UInt64.ofNat (keys.length - order.length)).toNat ∧
          (⟨placement.entries⟩ : Table H).IsBijectionOn keys) ∨
        ∃ b size log,
          Placement.ofBuckets H B order options.maxSalt options.window =
            .error ⟨.noFittingSalt b size options.maxSalt, log⟩ ∧
          size = (keys.countP fun key => H.home keys.length key = b) ∧ 2 ≤ size)) ∧
    ((∃ t, build H options keys = .ok t ∧ t.IsBijectionOn keys) ∨
      (keys = [] ∧ build H options keys = .error .emptyKeySet) ∨
      (¬ keys.Nodup ∧ ∃ key, build H options keys = .error (.duplicateKey key)) ∨
      ∃ b size, build H options keys = .error (.noFittingSalt b size options.maxSalt) ∧
        size = (keys.countP fun key => H.home keys.length key = b) ∧ 2 ≤ size) := by
  obtain ⟨B, hB, hgroups⟩ := BucketLayout.ofKeys_groups H keys
  have hagree := Placement.foldlM_placeBucket hgroups (Greedy.visits H keys)
    (Greedy.visits_lt keys) options.maxSalt options.window
  have hplacement := Placement.ofBuckets_eq hgroups (Greedy.visits H keys)
    (Greedy.visits_lt keys) options.maxSalt options.window
  have hcount : (Greedy.visits H keys).length ≤ B.count := by
    rw [hgroups.count_eq]
    exact Greedy.length_visits_le keys
  refine ⟨⟨B, _, _, hB, hgroups.largestFirst_eq, hgroups.largest_eq, hcount, ?_⟩,
    build_cases options keys⟩
  cases hrun : History.ofOrder H options.maxSalt keys (Greedy.visits H keys) with
  | ok history =>
      left
      rw [hrun] at hagree hplacement
      obtain ⟨run, hfold, hreflects⟩ := hagree.exists_ok
      obtain ⟨hclaimed, hbijection⟩ :=
        Greedy.History.isBijectionOn_of_visits _ keys history hrun
      refine ⟨run, _, hfold, ?_, hplacement, hbijection.length_eq.symm, ?_, hbijection⟩
      · rw [hreflects.used.used_eq, hclaimed]
      · exact History.empty_cost _ _ history (Greedy.length_visits_le keys)
  | error failed =>
      right
      rcases failed with ⟨b, history⟩
      rw [hrun] at hplacement
      refine ⟨b, _, (History.halt H options.maxSalt keys (b, history)).log, ?_,
        Greedy.length_group_eq_countP keys b, ?_⟩
      · rw [hplacement, ← History.cause_halt_of_visits options.maxSalt keys b history hrun]
        rfl
      · exact History.two_le_of_ofOrder_eq_error _ keys _ b history (Greedy.nodup_visits keys) hrun

end Table

/-! ## The greedy rule -/

namespace Greedy

/-- What the greedy rule keeps of a history. -/
def History.board (H : HashFamily) (keys : List Key) (history : History) : Board :=
  ⟨History.claimed H keys history, History.entries keys.length history⟩

/-- Both go on with the same claims and entries, or both end at the same bucket. -/
abbrev FollowsHistory (H : HashFamily) (keys : List Key) :
    Except Nat Board → Except (Nat × History) History → Prop :=
  Agrees (fun b failed => b = failed.1) fun board history => board = History.board H keys history

theorem visit_followsHistory (bound : Salt) (keys : List Key) (history : History) (b : Nat) :
    FollowsHistory H keys
      (visit H bound keys (History.board H keys history) b)
      (History.extend H bound keys history b) := by
  unfold visit History.extend
  cases hgroup : group H keys b with
  | nil =>
      refine .ok ?_
      simp only [History.board, History.claimed, slotsOf, List.nil_append, History.entries]
  | cons first rest =>
      cases rest with
      | nil =>
          rw [choose_single, History.board]
          cases leastFree keys.length (History.claimed H keys history) with
          | none => exact .error rfl
          | some slot => exact .ok rfl
      | cons second rest =>
          rw [choose_multi, History.board]
          simp only
          cases leastFit H keys.length (History.claimed H keys history) bound
              (first :: second :: rest) with
          | none => exact .error rfl
          | some salt =>
              refine .ok ?_
              simp only [History.board, History.claimed, slotsOf, hgroup, History.entries]

theorem run_followsHistory (bound : Salt) (keys : List Key) (order : List Nat) :
    FollowsHistory H keys (run H bound keys order) (History.ofOrder H bound keys order) := by
  refine foldlM_agrees _ (fun board history => board = History.board H keys history) _ _ order ?_
    _ _ rfl
  rintro b - board history rfl
  exact visit_followsHistory bound keys history b

end Greedy

namespace Table

/-- A build of a key set gives the entries of the greedy rule, and fails where the rule fails. -/
theorem build_eq_greedy (H : HashFamily) (options : BuildOptions) (keys : List Key)
    (hne : keys ≠ []) (hnodup : keys.Nodup) :
    build H options keys =
      match Greedy.entries H options.maxSalt keys with
      | .ok entries => .ok ⟨entries.toArray⟩
      | .error b =>
          .error (.noFittingSalt b (keys.countP fun key => H.home keys.length key = b)
            options.maxSalt) := by
  have hagree := Greedy.run_followsHistory (H := H) options.maxSalt keys (Greedy.visits H keys)
  rw [build_eq_map, buildWithReport_eq options keys hne hnodup, Greedy.entries]
  generalize Greedy.run H options.maxSalt keys (Greedy.visits H keys) = board,
    History.ofOrder H options.maxSalt keys (Greedy.visits H keys) = history at hagree
  cases hagree with
  | ok h =>
      subst h
      rfl
  | @error c failed h =>
      rcases failed with ⟨b, before⟩
      subst h
      simp only [ofRun, Except.map, Greedy.length_group_eq_countP]

/-- Five keys of which two share a home; the two are placed first. -/
theorem build_eq_greedy_halving :
    ([10, 3, 7, 21, 8] : List Key) ≠ [] ∧ ([10, 3, 7, 21, 8] : List Key).Nodup ∧
      build HashFamily.Arithmetic.halving { maxSalt := 4 } [10, 3, 7, 21, 8] =
        .ok ⟨#[.direct 0, .direct 1, .direct 3, .displacement 1, .unset]⟩ := by
  refine ⟨by decide, by decide, ?_⟩
  rw [build_eq_greedy _ _ _ (by decide) (by decide), Greedy.entries, Greedy.visits_halving]
  rfl

end Table

end PerfectHash
