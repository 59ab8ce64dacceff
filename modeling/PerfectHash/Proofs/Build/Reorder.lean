import PerfectHash.Hash.Families
import PerfectHash.Proofs.Build.Construct
import PerfectHash.Table.Raw

set_option autoImplicit false

/-! # The order of the keys does not matter

Reordering the keys changes the layout and the order in which a bucket lists its keys, so two
runs look at the keys in different orders and give up on a salt at different keys. What is
chosen for a bucket depends only on which keys it has and on which slots are claimed
(`Greedy.choose_congr`). So the runs have the same history, and everything is read off it.
-/

namespace PerfectHash

variable {H : HashFamily}

/-! ## Choices -/

namespace Greedy

theorem fits_congr (n : Nat) (claimed claimed' : List Nat)
    (hclaimed : ∀ slot, slot ∈ claimed ↔ slot ∈ claimed') (keys keys' : List Key)
    (hkeys : keys.Perm keys') (salt : Salt) :
    H.Fits n (· ∈ claimed) keys salt ↔ H.Fits n (· ∈ claimed') keys' salt := by
  have hslots : (H.slots n salt keys).Perm (H.slots n salt keys') := hkeys.map _
  unfold HashFamily.Fits
  rw [hslots.nodup_iff]
  simp only [hslots.mem_iff, hclaimed]

theorem leastFit_congr (n : Nat) (claimed claimed' : List Nat)
    (hclaimed : ∀ slot, slot ∈ claimed ↔ slot ∈ claimed') (bound : Salt) (keys keys' : List Key)
    (hkeys : keys.Perm keys') :
    leastFit H n claimed bound keys = leastFit H n claimed' bound keys' := by
  unfold leastFit
  congr 1
  funext salt
  exact decide_eq_decide.mpr (fits_congr n claimed claimed' hclaimed keys keys' hkeys salt)

/-- A choice depends on the keys of the bucket and on the claimed slots, in any order. -/
theorem choose_congr (n : Nat) (claimed claimed' : List Nat)
    (hclaimed : ∀ slot, slot ∈ claimed ↔ slot ∈ claimed') (bound : Salt) (keys keys' : List Key)
    (hkeys : keys.Perm keys') :
    choose H n claimed bound keys = choose H n claimed' bound keys' := by
  match keys, keys' with
  | [], keys' =>
      obtain rfl := hkeys.nil_eq
      rfl
  | [key], keys' =>
      obtain rfl := hkeys.singleton_eq
      rw [choose_single, choose_single, leastFree_congr n claimed claimed' hclaimed]
  | first :: second :: rest, first' :: second' :: rest' =>
      rw [choose_multi, choose_multi, leastFit_congr n claimed claimed' hclaimed bound _ _ hkeys]
  | _ :: _ :: _, [] => simp at hkeys
  | _ :: _ :: _, [_] => simpa using hkeys.length_eq

/-! ## Histories -/

section Reorder

variable {keys keys' : List Key} (h : keys.Perm keys')
include h

theorem group_perm (b : Nat) : (group H keys b).Perm (group H keys' b) := by
  unfold group
  rw [h.length_eq]
  exact h.filter _

theorem visits_eq_of_perm : visits H keys = visits H keys' := by
  have hlength : ∀ b, (group H keys b).length = (group H keys' b).length :=
    fun b => (group_perm h b).length_eq
  have hnil : ∀ b, group H keys b ≠ [] ↔ group H keys' b ≠ [] := by
    intro b
    rw [← List.length_pos_iff, ← List.length_pos_iff, hlength b]
  simp only [visits, h.length_eq, hlength, hnil]

theorem largest_eq_of_perm : largest H keys = largest H keys' := by
  have hlength : ∀ b, (group H keys b).length = (group H keys' b).length :=
    fun b => (group_perm h b).length_eq
  simp only [largest, h.length_eq, hlength]

namespace History

theorem claimed_perm (history : History) :
    (claimed H keys history).Perm (claimed H keys' history) := by
  induction history with
  | nil => exact .refl _
  | cons visit history ih =>
      rcases visit with ⟨b, entry⟩
      rw [claimed, claimed, h.length_eq]
      refine .append ?_ ih
      cases entry with
      | unset => exact .refl _
      | direct slot => exact .refl _
      | displacement salt => exact (group_perm h b).map _

theorem extend_eq_of_perm (bound : Salt) (history : History) (b : Nat) :
    extend H bound keys history b = extend H bound keys' history b := by
  have hclaimed : ∀ slot, slot ∈ claimed H keys history ↔ slot ∈ claimed H keys' history :=
    fun slot => (claimed_perm h history).mem_iff
  unfold extend
  rw [h.length_eq, choose_congr _ _ _ hclaimed bound _ _ (group_perm h b)]

theorem ofOrder_eq_of_perm (bound : Salt) (order : List Nat) :
    ofOrder H bound keys order = ofOrder H bound keys' order := by
  have hextend : extend H bound keys = extend H bound keys' :=
    funext₂ (extend_eq_of_perm h bound)
  unfold ofOrder
  rw [hextend]

theorem log_eq_of_perm (history : History) : log H keys history = log H keys' history := by
  induction history with
  | nil => rfl
  | cons visit history ih =>
      rcases visit with ⟨b, entry⟩
      cases entry with
      | unset => exact ih
      | direct slot => exact ih
      | displacement salt => rw [log, log, ih, (group_perm h b).length_eq]

theorem placement_eq_of_perm (count : Nat) (history : History) :
    placement H keys count history = placement H keys' count history := by
  unfold placement
  rw [h.length_eq, log_eq_of_perm h]

theorem halt_eq_of_perm (bound : Salt) (failed : Nat × History) :
    halt H bound keys failed = halt H bound keys' failed := by
  rcases failed with ⟨b, history⟩
  rw [halt, halt, (group_perm h b).length_eq, log_eq_of_perm h, h.length_eq,
    (claimed_perm h history).length_eq]

end History

end Reorder

end Greedy

/-! ## Runs and builds -/

open Greedy (History)

namespace Placement

theorem ofRun_eq_of_perm {keys keys' : List Key} (h : keys.Perm keys') (bound : Salt)
    (count : Nat) (run : Except (Nat × History) History) :
    ofRun H bound keys count run = ofRun H bound keys' count run := by
  cases run with
  | ok history => simp only [ofRun, Greedy.History.placement_eq_of_perm h]
  | error failed => simp only [ofRun, Greedy.History.halt_eq_of_perm h]

theorem ofBuckets_eq_of_perm {keys keys' : List Key} (h : keys.Perm keys') {B B' : BucketLayout}
    (hB : B.Groups H keys) (hB' : B'.Groups H keys') (order : List Nat)
    (horder : ∀ b ∈ order, b < keys.length) (bound : Salt) (width : UInt64) :
    ofBuckets H B order bound width = ofBuckets H B' order bound width := by
  calc ofBuckets H B order bound width
    _ = ofRun H bound keys order.length (History.ofOrder H bound keys order) :=
      ofBuckets_eq hB order horder bound width
    _ = ofRun H bound keys' order.length (History.ofOrder H bound keys' order) := by
      rw [Greedy.History.ofOrder_eq_of_perm h, ofRun_eq_of_perm h]
    _ = ofBuckets H B' order bound width :=
      (ofBuckets_eq hB' order (h.length_eq ▸ horder) bound width).symm

end Placement

namespace Table

theorem ofRun_eq_of_perm {keys keys' : List Key} (h : keys.Perm keys') (bound : Salt)
    (run : Except (Nat × History) History) :
    ofRun H bound keys run = ofRun H bound keys' run := by
  cases run with
  | ok history =>
      simp only [ofRun, History.table, History.report, h.length_eq, Greedy.largest_eq_of_perm h,
        Greedy.visits_eq_of_perm h]
  | error failed =>
      rcases failed with ⟨b, history⟩
      rw [ofRun, ofRun, (Greedy.group_perm h b).length_eq]

theorem buildWithReport_eq_of_perm {keys keys' : List Key} (h : keys.Perm keys')
    (options : BuildOptions) (hne : keys ≠ []) (hnodup : keys.Nodup) :
    buildWithReport H options keys = buildWithReport H options keys' := by
  have hne' : keys' ≠ [] := by
    rintro rfl
    exact hne h.eq_nil
  calc buildWithReport H options keys
    _ = ofRun H options.maxSalt keys
        (History.ofOrder H options.maxSalt keys (Greedy.visits H keys)) :=
      buildWithReport_eq options keys hne hnodup
    _ = ofRun H options.maxSalt keys'
        (History.ofOrder H options.maxSalt keys' (Greedy.visits H keys')) := by
      rw [Greedy.visits_eq_of_perm h, Greedy.History.ofOrder_eq_of_perm h, ofRun_eq_of_perm h]
    _ = buildWithReport H options keys' :=
      (buildWithReport_eq options keys' hne' (h.nodup_iff.mp hnodup)).symm

/-- Placements over any order of buckets, and builds of key sets, are functions of the keys
without their order. -/
theorem placement_and_build_eq_of_perm (H : HashFamily) (keys keys' : List Key)
    (hperm : keys.Perm keys') :
    (∀ (order : List Nat), (∀ b ∈ order, b < keys.length) → ∀ (bound : Salt) (width : UInt64),
      ∃ B B', BucketLayout.ofKeys H keys = .ok B ∧ BucketLayout.ofKeys H keys' = .ok B' ∧
        Placement.ofBuckets H B order bound width = Placement.ofBuckets H B' order bound width ∧
        ((∃ placement, Placement.ofBuckets H B order bound width = .ok placement) ∨
          ∃ b size attempts log, Placement.ofBuckets H B order bound width =
            .error ⟨.noFittingSalt b size attempts, log⟩)) ∧
    (keys ≠ [] → keys.Nodup → ∀ options : BuildOptions,
      buildWithReport H options keys = buildWithReport H options keys' ∧
        ∀ t, build H options keys = .ok t → ∃ t', build H options keys' = .ok t' ∧
          t'.toRaw = t.toRaw ∧ ∀ key, t'.lookup key = t.lookup key) := by
  constructor
  · intro order horder bound width
    obtain ⟨B, hB, hgroups⟩ := BucketLayout.ofKeys_groups H keys
    obtain ⟨B', hB', hgroups'⟩ := BucketLayout.ofKeys_groups H keys'
    exact ⟨B, B', hB, hB',
      Placement.ofBuckets_eq_of_perm hperm hgroups hgroups' order horder bound width,
      Placement.ofBuckets_cases hgroups order horder bound width⟩
  · intro hne hnodup options
    have hreport := buildWithReport_eq_of_perm (H := H) hperm options hne hnodup
    refine ⟨hreport, fun t ht => ⟨t, ?_, rfl, fun _ => rfl⟩⟩
    rw [build_eq_map, ← hreport, ← build_eq_map, ht]

/-- Five keys forwards and backwards: the layouts differ, the tables do not. -/
theorem placement_and_build_eq_of_perm_halving :
    ([10, 3, 7, 21, 8] : List Key).Perm [8, 21, 7, 3, 10] ∧
      ([10, 3, 7, 21, 8] : List Key).Nodup ∧
      Placement.ofBuckets HashFamily.Arithmetic.halving
          ⟨#[0, 1, 2, 3, 5, 5], #[10, 21, 7, 3, 8]⟩ [4, 3, 1, 3] 4 64 =
        Placement.ofBuckets HashFamily.Arithmetic.halving
          ⟨#[0, 1, 2, 3, 5, 5], #[10, 21, 7, 8, 3]⟩ [4, 3, 1, 3] 4 64 ∧
      ∃ t, build HashFamily.Arithmetic.halving { maxSalt := 4 } [8, 21, 7, 3, 10] = .ok t ∧
        t.toRaw = #[-1, -2, -4, 1, 0] := by
  have hperm : ([10, 3, 7, 21, 8] : List Key).Perm [8, 21, 7, 3, 10] := by decide
  obtain ⟨hplacement, hbuild⟩ := placement_and_build_eq_of_perm
    HashFamily.Arithmetic.halving [10, 3, 7, 21, 8] [8, 21, 7, 3, 10] hperm
  refine ⟨hperm, by decide, ?_, ?_⟩
  · obtain ⟨B, B', hB, hB', hsame, -⟩ := hplacement [4, 3, 1, 3] (by decide) 4 64
    have hitems : BucketLayout.ofKeys HashFamily.Arithmetic.halving [10, 3, 7, 21, 8] =
        .ok ⟨#[0, 1, 2, 3, 5, 5], #[10, 21, 7, 3, 8]⟩ := by rfl
    have hitems' : BucketLayout.ofKeys HashFamily.Arithmetic.halving [8, 21, 7, 3, 10] =
        .ok ⟨#[0, 1, 2, 3, 5, 5], #[10, 21, 7, 8, 3]⟩ := by rfl
    cases hB.symm.trans hitems
    cases hB'.symm.trans hitems'
    exact hsame
  · obtain ⟨t, ht, hraw, -⟩ := (hbuild (by decide) (by decide) { maxSalt := 4 }).2 _ build_halving
    exact ⟨t, ht, hraw.trans (by decide +kernel)⟩

end Table

end PerfectHash
