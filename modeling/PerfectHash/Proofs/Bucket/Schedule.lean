import Mathlib.Data.List.Sort
import PerfectHash.Proofs.Bucket.Partition

set_option autoImplicit false

/-! # The counting sort is the stable sort

`Schedule.largestFirst` never fails and gives the indices of the positive sizes, sorted by
descending size with ties in ascending order. This is said twice: `largestFirst_eq` compares it
with a stable comparison sort of the indices, and `largestFirst_spec` gives the order of any two
elements of the result. Both together are `largestFirst_sorts`.

In between stands `descending`, the size classes one behind the other. It is what the segments of
the counting sort spell out, and it is visibly sorted.
-/

namespace PerfectHash.Schedule

def sizeAt (sizes : List Nat) (b : Nat) : Nat := sizes.getD b 0

/-- Bucket `b` goes before bucket `c`. -/
def Before (sizes : List Nat) (b c : Nat) : Prop :=
  sizeAt sizes c < sizeAt sizes b ∨ sizeAt sizes b = sizeAt sizes c ∧ b < c

instance (sizes : List Nat) : Std.Irrefl (Before sizes) where
  irrefl b := by simp [Before]

instance (sizes : List Nat) : Std.Antisymm (Before sizes) where
  antisymm b c hbc hcb := by
    simp only [Before] at hbc hcb
    omega

def ofSize (sizes : List Nat) (size : Nat) : List Nat :=
  (List.range sizes.length).filter fun b => sizeAt sizes b = size

/-- The buckets of the sizes `top, …, 1`, one size class behind the other. -/
def descending (sizes : List Nat) : Nat → List Nat
  | 0 => []
  | top + 1 => ofSize sizes (top + 1) ++ descending sizes top

theorem mem_ofSize (sizes : List Nat) (size b : Nat) :
    b ∈ ofSize sizes size ↔ b < sizes.length ∧ sizeAt sizes b = size := by
  simp [ofSize]

theorem mem_descending (sizes : List Nat) (top b : Nat) :
    b ∈ descending sizes top ↔ b < sizes.length ∧ 0 < sizeAt sizes b ∧ sizeAt sizes b ≤ top := by
  induction top with
  | zero =>
      simp only [descending, List.not_mem_nil, false_iff]
      omega
  | succ top ih =>
      rw [descending, List.mem_append, mem_ofSize, ih]
      omega

theorem pairwise_descending (sizes : List Nat) (top : Nat) :
    (descending sizes top).Pairwise (Before sizes) := by
  induction top with
  | zero => exact .nil
  | succ top ih =>
      rw [descending, List.pairwise_append]
      refine ⟨?_, ih, ?_⟩
      -- Inside a class the indices ascend, and between classes the sizes descend.
      · apply List.Pairwise.imp_of_mem _ (List.pairwise_lt_range.filter _)
        intro b c hb hc hbc
        rw [← ofSize, mem_ofSize] at hb hc
        exact Or.inr ⟨hb.2.trans hc.2.symm, hbc⟩
      · intro b hb c hc
        rw [mem_ofSize] at hb
        rw [mem_descending] at hc
        exact Or.inl (by omega)

/-- A stable sort by descending size keeps ascending buckets of one size ascending. -/
theorem pairwise_mergeSort_before (sizes : List Nat) (buckets : List Nat)
    (h : buckets.Pairwise (· < ·)) :
    (buckets.mergeSort fun b c => sizeAt sizes c ≤ sizeAt sizes b).Pairwise (Before sizes) := by
  have htrans : ∀ a b c : Nat, decide (sizeAt sizes b ≤ sizeAt sizes a) →
      decide (sizeAt sizes c ≤ sizeAt sizes b) → decide (sizeAt sizes c ≤ sizeAt sizes a) := by
    simp only [decide_eq_true_eq]
    omega
  have htotal : ∀ a b : Nat, (decide (sizeAt sizes b ≤ sizeAt sizes a) ||
      decide (sizeAt sizes a ≤ sizeAt sizes b)) := by
    simp only [Bool.or_eq_true, decide_eq_true_eq]
    omega
  induction buckets with
  | nil => simp
  | cons b buckets ih =>
      rcases List.pairwise_cons.mp h with ⟨hb, hbuckets⟩
      -- Sorting inserts the first bucket behind the larger ones only.
      obtain ⟨front, back, hsorted, hrest, hfront⟩ :=
        List.mergeSort_cons htrans htotal b buckets
      have hle := List.pairwise_mergeSort htrans htotal (b :: buckets)
      have hrest' := ih hbuckets
      rw [hsorted] at hle ⊢
      rw [hrest, List.pairwise_append] at hrest'
      rw [List.pairwise_append, List.pairwise_cons] at hle ⊢
      have hlarger : ∀ a ∈ front, Before sizes a b := by
        intro a ha
        have := hfront a ha
        simp only [Bool.not_eq_true', decide_eq_false_iff_not] at this
        exact Or.inl (by omega)
      refine ⟨hrest'.1, ⟨?_, hrest'.2.1⟩, ?_⟩
      · intro c hc
        have hle := hle.2.1.1 c hc
        have hmem : c ∈ buckets :=
          List.mem_mergeSort.mp (hrest ▸ List.mem_append_right front hc)
        have hlt := hb c hmem
        simp only [decide_eq_true_eq] at hle
        simp only [Before]
        omega
      · intro a ha c hc
        rcases List.mem_cons.mp hc with rfl | hc
        · exact hlarger a ha
        · exact hrest'.2.2 a ha c hc

/-! ## The passes of the counting sort -/

def above (sizes : List Nat) (size : Nat) : Nat := sizes.countP fun other => size < other

theorem above_eq_add_count (sizes : List Nat) (size : Nat) :
    above sizes size = above sizes (size + 1) + sizes.count (size + 1) := by
  induction sizes with
  | nil => rfl
  | cons other sizes ih =>
      simp only [above, List.countP_cons, List.count_cons, decide_eq_true_eq, beq_iff_eq] at ih ⊢
      split <;> split <;> split <;> omega

theorem above_le_above (sizes : List Nat) (b c : Nat) (h : b ≤ c) :
    above sizes c ≤ above sizes b := by
  apply List.countP_mono_left
  intro size _ hlt
  simp only [decide_eq_true_eq] at hlt ⊢
  omega

theorem above_eq_zero (sizes : List Nat) (top : Nat) (h : ∀ size ∈ sizes, size ≤ top) :
    above sizes top = 0 := by
  simpa [above, List.countP_eq_zero] using h

theorem le_foldl_max (sizes : List Nat) (start : Nat) :
    start ≤ sizes.foldl max start ∧ ∀ size ∈ sizes, size ≤ sizes.foldl max start := by
  induction sizes generalizing start with
  | nil => simp
  | cons other sizes ih =>
      obtain ⟨hstart, hsizes⟩ := ih (max start other)
      rw [List.foldl_cons]
      refine ⟨by omega, fun size hsize => ?_⟩
      rcases List.mem_cons.mp hsize with rfl | hsize
      · omega
      · exact hsizes size hsize

theorem histogram_eq (top : Nat) (sizes : List Nat) (h : ∀ size ∈ sizes, size ≤ top) :
    histogram top sizes = .ok (tabulate (top + 1) fun size => sizes.count size) := by
  have hcells : ∀ size ∈ sizes, size < top + 1 := fun size hsize => Nat.lt_succ_of_le (h size hsize)
  unfold histogram
  rw [replicate_eq_tabulate, foldlM_increment_tabulate _ _ _ hcells]
  simp only [Nat.zero_add]

/-- The first positions of the sizes `1, …, size` are known, those of the larger ones are kept. -/
def placed (sizes : List Nat) (next : Nat → Nat) (size c : Nat) : Nat :=
  if 1 ≤ c ∧ c ≤ size then above sizes c else next c

theorem placed_update (sizes : List Nat) (next : Nat → Nat) (size : Nat) :
    placed sizes (Function.update next (size + 1) (above sizes (size + 1))) size =
      placed sizes next (size + 1) := by
  funext c
  by_cases hc : c = size + 1
  · subst hc
    simp [placed]
  · have hle : 1 ≤ c ∧ c ≤ size + 1 ↔ 1 ≤ c ∧ c ≤ size := by omega
    simp [placed, Function.update_of_ne hc, hle]

theorem positions_eq (top : Nat) (sizes : List Nat) (size : Nat) (next : Nat → Nat)
    (h : size ≤ top) :
    positions (tabulate (top + 1) fun size => sizes.count size) size (tabulate (top + 1) next)
      (above sizes size) = .ok (tabulate (top + 1) (placed sizes next size), above sizes 0) := by
  induction size generalizing next with
  | zero =>
      have hnone : placed sizes next 0 = next := by
        funext c
        unfold placed
        rw [if_neg (by omega)]
      rw [hnone]
      rfl
  | succ size ih =>
      simp only [positions, bind, Except.bind]
      rw [store_tabulate _ _ _ _ (by omega), fetch_tabulate _ _ _ (by omega)]
      simp only
      rw [← above_eq_add_count, ih _ (by omega), placed_update]

/-- The sizes with their buckets, without the empty buckets. -/
def occupied (sizes : List Nat) : List (Nat × Nat) := sizes.zipIdx.filter fun item => item.1 ≠ 0

theorem foldlM_arrange (sizes : List Nat) (s : Array Nat × Array Nat) :
    sizes.zipIdx.foldlM arrange s = (occupied sizes).foldlM deal s := by
  unfold occupied
  rw [List.foldlM_filter]
  congr 1
  funext s item
  rcases item with ⟨size, bucket⟩
  by_cases h : size = 0
  · simp [arrange, h]
    rfl
  · simp [h, arrange_eq_deal]

theorem zipIdx_eq_map (sizes : List Nat) :
    sizes.zipIdx = (List.range sizes.length).map fun b => (sizeAt sizes b, b) := by
  apply List.ext_getElem
  · simp
  · intro b hb _
    have hb' : b < sizes.length := by simpa using hb
    simp [sizeAt, hb']

theorem valuesOf_occupied (sizes : List Nat) (size : Nat) (h : size ≠ 0) :
    valuesOf (occupied sizes) size = ofSize sizes size := by
  unfold valuesOf occupied
  rw [zipIdx_eq_map, List.filter_filter, List.filter_map, List.map_map, ofSize]
  have hid : (Prod.snd ∘ fun b => (sizeAt sizes b, b)) = id := rfl
  rw [hid, List.map_id]
  apply List.filter_congr
  intro b _
  by_cases hb : sizeAt sizes b = size <;> simp [hb, h]

theorem valuesOf_occupied_zero (sizes : List Nat) : valuesOf (occupied sizes) 0 = [] := by
  simp [valuesOf, occupied]

theorem length_ofSize (sizes : List Nat) (size : Nat) :
    (ofSize sizes size).length = sizes.count size := by
  have hsizes : sizes = (List.range sizes.length).map (sizeAt sizes) := by
    apply List.ext_getElem
    · simp
    · intro b hb _
      simp [sizeAt, hb]
  conv_rhs => rw [hsizes]
  unfold ofSize
  rw [← List.countP_eq_length_filter, List.count, List.countP_map]
  apply List.countP_congr
  intro b _
  simp

/-- The position of the first bucket of each size that is not `0`. -/
def firstPosition (sizes : List Nat) (top : Nat) : Nat → Nat := placed sizes (fun _ => 0) top

theorem firstPosition_eq (sizes : List Nat) (top size : Nat) (h : size ≠ 0) (hle : size ≤ top) :
    firstPosition sizes top size = above sizes size := by
  unfold firstPosition placed
  rw [if_pos (by omega)]

theorem segments_firstPosition (sizes : List Nat) (top : Nat) :
    Segments (top + 1) (above sizes 0) (firstPosition sizes top)
      fun size => (valuesOf (occupied sizes) size).length := by
  have hzero : (valuesOf (occupied sizes) 0).length = 0 := by
    rw [valuesOf_occupied_zero, List.length_nil]
  have hstart : ∀ size, size + 1 < top + 1 →
      firstPosition sizes top (size + 1) = above sizes (size + 1) := fun size hsize =>
    firstPosition_eq sizes top (size + 1) (by omega) (by omega)
  have hend : ∀ size, above sizes (size + 1) + (valuesOf (occupied sizes) (size + 1)).length =
      above sizes size := by
    intro size
    rw [valuesOf_occupied _ _ (by omega), length_ofSize, ← above_eq_add_count]
  constructor
  · intro size hsize
    cases size with
    | zero =>
        have : firstPosition sizes top 0 = 0 := by simp [firstPosition, placed]
        omega
    | succ size =>
        rw [hstart size hsize, hend]
        exact above_le_above sizes 0 size (by omega)
  · intro b hb c hc i hbi hbi' hci hci'
    cases b with
    | zero => omega
    | succ b =>
        cases c with
        | zero => omega
        | succ c =>
            rw [hstart b hb] at hbi hbi'
            rw [hstart c hc] at hci hci'
            rw [hend] at hbi' hci'
            rcases Nat.lt_trichotomy b c with h | h | h
            · have := above_le_above sizes (b + 1) c h
              omega
            · rw [h]
            · have := above_le_above sizes (c + 1) b h
              omega

/-- The segments of the sizes `size, …, 1` lie one behind the other. -/
theorem map_range'_eq_descending (sizes : List Nat) (g : Nat → Nat) (top : Nat)
    (h : ∀ size, size ≠ 0 → size ≤ top →
      (List.range' (above sizes size) (sizes.count size)).map g = ofSize sizes size) :
    ∀ size, size ≤ top →
      (List.range' (above sizes size) (above sizes 0 - above sizes size)).map g =
        descending sizes size := by
  intro size
  induction size with
  | zero =>
      intro _
      simp [descending]
  | succ size ih =>
      intro hsize
      have hsum := above_eq_add_count sizes size
      have hle := above_le_above sizes 0 size (by omega)
      have hsplit : above sizes 0 - above sizes (size + 1) =
          sizes.count (size + 1) + (above sizes 0 - above sizes size) := by omega
      calc (List.range' (above sizes (size + 1)) (above sizes 0 - above sizes (size + 1))).map g
        _ = (List.range' (above sizes (size + 1)) (sizes.count (size + 1))).map g ++
            (List.range' (above sizes size) (above sizes 0 - above sizes size)).map g := by
            rw [hsplit, ← List.range'_append_1, List.map_append, ← hsum]
        _ = ofSize sizes (size + 1) ++ descending sizes size := by
            rw [h (size + 1) (by omega) hsize, ih (by omega)]

theorem largestFirst_eq_descending (sizes : List Nat) :
    largestFirst sizes = .ok (descending sizes (sizes.foldl max 0)) := by
  have hmax := (le_foldl_max sizes 0).2
  simp only [largestFirst]
  generalize sizes.foldl max 0 = top at hmax ⊢
  by_cases htop : top = 0
  · subst htop
    rfl
  · have hpositions := positions_eq top sizes top (fun _ => 0) (Nat.le_refl top)
    rw [above_eq_zero sizes top hmax] at hpositions
    have hclass : ∀ item ∈ occupied sizes, item.1 < top + 1 := by
      intro item hitem
      have hmem := (List.mem_filter.mp hitem).1
      exact Nat.lt_succ_of_le (hmax _ (List.fst_mem_of_mem_zipIdx hmem))
    obtain ⟨next, g, hdeal, hsegment, -⟩ := foldlM_deal (top + 1) (above sizes 0)
      (occupied sizes) (firstPosition sizes top) (fun _ => 0) hclass
      (segments_firstPosition sizes top)
    have horder : (List.range (above sizes 0)).map g = descending sizes top := by
      have hclasses : ∀ size, size ≠ 0 → size ≤ top →
          (List.range' (above sizes size) (sizes.count size)).map g = ofSize sizes size := by
        intro size hsize hle
        have := hsegment size (by omega)
        rwa [valuesOf_occupied _ _ hsize, length_ofSize, firstPosition_eq _ _ _ hsize hle] at this
      have htile := map_range'_eq_descending sizes g top hclasses top (Nat.le_refl top)
      rwa [above_eq_zero sizes top hmax, Nat.sub_zero, ← List.range_eq_range'] at htile
    simp only [htop, if_false, bind, Except.bind]
    rw [histogram_eq top sizes hmax, replicate_eq_tabulate]
    simp only
    rw [hpositions]
    simp only
    rw [foldlM_arrange, replicate_eq_tabulate, ← firstPosition, hdeal]
    simp only [toList_tabulate, horder]
    rfl

/-! ## The order -/

/-- The buckets that are not empty, each once, by descending size and then by ascending index. -/
theorem largestFirst_spec (sizes : List Nat) : ∃ order, largestFirst sizes = .ok order ∧
    (∀ b, b ∈ order ↔ b < sizes.length ∧ 0 < sizeAt sizes b) ∧ order.Pairwise (Before sizes) := by
  refine ⟨_, largestFirst_eq_descending sizes, fun b => ?_, pairwise_descending sizes _⟩
  rw [mem_descending]
  constructor
  · rintro ⟨hb, hpos, -⟩
    exact ⟨hb, hpos⟩
  · rintro ⟨hb, hpos⟩
    refine ⟨hb, hpos, (le_foldl_max sizes 0).2 _ ?_⟩
    have hsize : sizeAt sizes b = sizes[b] := by simp [sizeAt, hb]
    rw [hsize]
    exact List.getElem_mem hb

/-- The counting sort and a stable comparison sort give the same order. -/
theorem largestFirst_eq (sizes : List Nat) :
    largestFirst sizes = .ok
      (((List.range sizes.length).filter fun b => 0 < sizeAt sizes b).mergeSort
        fun b c => sizeAt sizes c ≤ sizeAt sizes b) := by
  obtain ⟨order, horder, hmem, hsorted⟩ := largestFirst_spec sizes
  rw [horder]
  congr 1
  apply hsorted.eq_of_mem_iff
  · exact pairwise_mergeSort_before sizes _ (List.pairwise_lt_range.filter _)
  · intro b
    simp [hmem]

/-- The counting sort always gives an order. It has the indices of the positive sizes, each of them
once, and is strictly sorted by descending size and then by ascending index. So it has no more
elements than there are sizes, and it is what a stable sort of these indices by descending size
gives. -/
theorem largestFirst_sorts (sizes : List Nat) :
    ∃ order, largestFirst sizes = .ok order ∧
      (∀ b, b ∈ order ↔ b < sizes.length ∧ 0 < sizeAt sizes b) ∧ order.Nodup ∧
      order.Pairwise (fun b c => sizeAt sizes c < sizeAt sizes b ∨
        sizeAt sizes b = sizeAt sizes c ∧ b < c) ∧
      order.length ≤ sizes.length ∧
      order = ((List.range sizes.length).filter fun b => 0 < sizeAt sizes b).mergeSort
        fun b c => sizeAt sizes c ≤ sizeAt sizes b := by
  obtain ⟨order, horder, hmem, hsorted⟩ := largestFirst_spec sizes
  have hstable := Except.ok.inj (horder.symm.trans (largestFirst_eq sizes))
  have hnodup : order.Nodup := hsorted.imp fun {b c} hbefore => by
    rintro rfl
    exact irrefl_of (Before sizes) b hbefore
  have hlength : order.length ≤ sizes.length :=
    calc order.length
      _ = ((List.range sizes.length).filter fun b => 0 < sizeAt sizes b).length := by
          rw [hstable, List.length_mergeSort]
      _ ≤ (List.range sizes.length).length := List.length_filter_le ..
      _ = sizes.length := List.length_range
  exact ⟨order, horder, hmem, hnodup, hsorted, hlength, hstable⟩

/-- The empty buckets `1` and `4` are left out. -/
example : largestFirst [1, 0, 3, 2, 0, 3, 1, 2] = .ok [2, 5, 3, 7, 0, 6] := by
  decide

end PerfectHash.Schedule

namespace PerfectHash

variable {H : HashFamily}

theorem BucketLayout.Groups.sizeAt_eq {B : BucketLayout} {keys : List Key} (h : B.Groups H keys)
    (b : Nat) : Schedule.sizeAt B.sizes b = (Greedy.group H keys b).length := by
  rw [h.sizes_eq, Schedule.sizeAt]
  by_cases hb : b < keys.length
  · simp [hb]
  · have hnone : b ∉ homesOf H keys := fun hmem => hb (homesOf_lt H keys b hmem)
    simp [hb, Greedy.length_group, List.count_eq_zero_of_not_mem hnone]

/-- The buckets are placed in the order in which the groups are visited. -/
theorem BucketLayout.Groups.largestFirst_eq {B : BucketLayout} {keys : List Key}
    (h : B.Groups H keys) : Schedule.largestFirst B.sizes = .ok (Greedy.visits H keys) := by
  have hlength : B.sizes.length = keys.length := by simp [h.sizes_eq]
  have hsize : Schedule.sizeAt B.sizes = fun b => (Greedy.group H keys b).length :=
    funext h.sizeAt_eq
  rw [Schedule.largestFirst_eq, hlength, hsize, Greedy.visits]
  simp only [List.length_pos_iff]

namespace Greedy

theorem mem_visits (keys : List Key) (b : Nat) :
    b ∈ visits H keys ↔ b < keys.length ∧ group H keys b ≠ [] := by
  simp [visits]

theorem nodup_visits (keys : List Key) : (visits H keys).Nodup :=
  (List.mergeSort_perm _ _).nodup_iff.mpr (List.nodup_range.filter _)

/-- Larger groups are visited first, and groups of one size by ascending bucket. -/
theorem pairwise_visits (keys : List Key) : (visits H keys).Pairwise fun b c =>
    (group H keys c).length < (group H keys b).length ∨
      (group H keys b).length = (group H keys c).length ∧ b < c := by
  obtain ⟨B, -, hgroups⟩ := BucketLayout.ofKeys_groups H keys
  obtain ⟨order, horder, -, hsorted⟩ := Schedule.largestFirst_spec B.sizes
  cases horder.symm.trans hgroups.largestFirst_eq
  refine hsorted.imp fun {b c} hbefore => ?_
  rwa [Schedule.Before, hgroups.sizeAt_eq, hgroups.sizeAt_eq] at hbefore

end Greedy

end PerfectHash
