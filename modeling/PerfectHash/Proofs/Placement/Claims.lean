import Mathlib.Data.List.Induction
import Mathlib.Data.List.Perm.Subperm
import PerfectHash.Proofs.Bucket.Schedule
import PerfectHash.Proofs.Placement.History

set_option autoImplicit false

/-! # What a history claims

The histories that arise are those in which every entry is the choice for its bucket at its time
(`Chosen`, `ofOrder_eq_ok_iff`). So what holds of all runs is proved by induction on the history:
no slot is claimed twice, every slot is in range, and every visit claims as many slots as its
bucket has keys.

When no bucket is visited twice the claims are counted by keys: the groups of distinct buckets
make up the keys whose home is among them (`flatMap_group_perm`). A bucket of one key then
always finds a free slot, so that only a bucket of several keys can end a run
(`two_le_of_ofOrder_eq_error`).

At the end the two outcomes of the program are told in these terms (`ofBuckets_eq_ok_iff`,
`ofBuckets_eq_error`).
-/

namespace PerfectHash

/-- A loop fails at one of its steps, after the steps before it have succeeded. -/
theorem foldlM_eq_error {ε σ α : Type} (f : σ → α → Except ε σ) (l : List α) (s : σ) (e : ε)
    (h : l.foldlM f s = .error e) :
    ∃ before a after t, l = before ++ a :: after ∧ before.foldlM f s = .ok t ∧
      f t a = .error e := by
  induction l generalizing s with
  | nil => cases h
  | cons a l ih =>
      rw [List.foldlM_cons] at h
      cases hstep : f s a with
      | error e' =>
          rw [hstep] at h
          cases h
          exact ⟨[], a, l, s, rfl, rfl, hstep⟩
      | ok t =>
          rw [hstep] at h
          obtain ⟨before, b, after, u, rfl, hbefore, hb⟩ := ih t h
          refine ⟨a :: before, b, after, u, rfl, ?_, hb⟩
          rw [List.foldlM_cons, hstep]
          exact hbefore

theorem length_le_of_nodup_of_lt (n : Nat) (l : List Nat) (hnodup : l.Nodup)
    (hlt : ∀ i ∈ l, i < n) : l.length ≤ n := by
  have hsubset : l ⊆ List.range n := fun i hi => List.mem_range.mpr (hlt i hi)
  have hlength := (hnodup.subperm hsubset).length_le
  rwa [List.length_range] at hlength

namespace Greedy

variable {H : HashFamily}

/-! ## Choices -/

/-- What is chosen for a bucket are slots of their own for its keys, none of them claimed. -/
theorem choose_spec (n : Nat) (claimed : List Nat) (bound : Salt) (keys : List Key) (entry : Entry)
    (hn : ∀ key ∈ keys, 0 < n) (h : choose H n claimed bound keys = some entry) :
    (slotsOf H n keys entry).length = keys.length ∧ (slotsOf H n keys entry).Nodup ∧
      ∀ slot ∈ slotsOf H n keys entry, slot < n ∧ slot ∉ claimed := by
  match keys with
  | [] =>
      cases h
      simp [slotsOf]
  | [_] =>
      rcases Option.map_eq_some_iff.mp h with ⟨slot, hslot, rfl⟩
      obtain ⟨hlt, hfree, -⟩ := (leastFree_eq_some_iff n claimed slot).mp hslot
      simpa [slotsOf, hlt] using hfree
  | first :: second :: rest =>
      rcases Option.map_eq_some_iff.mp h with ⟨salt, hsalt, rfl⟩
      obtain ⟨⟨-, -, hnodup, hfree⟩, -⟩ := (leastFit_eq_some_iff claimed bound _ salt).mp hsalt
      refine ⟨by simp [slotsOf, HashFamily.slots], hnodup, fun slot hslot => ?_⟩
      exact ⟨slots_lt _ hn salt slot hslot, hfree slot hslot⟩

/-- The kind of entry that is chosen for a bucket with the given keys. -/
def Suits (n : Nat) (bound : Salt) (keys : List Key) : Entry → Prop
  | .unset => keys = []
  | .direct slot => keys.length = 1 ∧ slot < n
  | .displacement salt => 2 ≤ keys.length ∧ 1 ≤ salt ∧ salt ≤ bound

theorem choose_suits (n : Nat) (claimed : List Nat) (bound : Salt) (keys : List Key)
    (entry : Entry) (h : choose H n claimed bound keys = some entry) :
    Suits n bound keys entry := by
  match keys with
  | [] =>
      cases h
      exact rfl
  | [_] =>
      rcases Option.map_eq_some_iff.mp h with ⟨slot, hslot, rfl⟩
      exact ⟨rfl, ((leastFree_eq_some_iff n claimed slot).mp hslot).1⟩
  | first :: second :: rest =>
      rcases Option.map_eq_some_iff.mp h with ⟨salt, hsalt, rfl⟩
      obtain ⟨⟨hone, hle, -⟩, -⟩ := (leastFit_eq_some_iff claimed bound _ salt).mp hsalt
      exact ⟨by simp, hone, hle⟩

section Suits

variable {n : Nat} {bound : Salt} {keys : List Key} {entry : Entry} (h : Suits n bound keys entry)
include h

theorem Suits.eq_unset_iff : entry = .unset ↔ keys = [] := by
  cases entry with
  | unset => exact iff_of_true rfl h
  | direct slot =>
      have hne : keys ≠ [] := List.length_pos_iff.mp (by rw [h.1]; omega)
      exact iff_of_false nofun hne
  | displacement salt =>
      have hne : keys ≠ [] := List.length_pos_iff.mp (Nat.lt_of_lt_of_le Nat.two_pos h.1)
      exact iff_of_false nofun hne

theorem Suits.exists_direct (hone : keys.length = 1) : ∃ slot < n, entry = .direct slot := by
  cases entry with
  | unset =>
      have hnil : keys = [] := h
      simp [hnil] at hone
  | direct slot => exact ⟨slot, h.2, rfl⟩
  | displacement salt =>
      have htwo := h.1
      omega

theorem Suits.exists_displacement (htwo : 2 ≤ keys.length) :
    ∃ salt, 1 ≤ salt ∧ salt ≤ bound ∧ entry = .displacement salt := by
  cases entry with
  | unset =>
      have hnil : keys = [] := h
      simp [hnil] at htwo
  | direct slot =>
      have hone := h.1
      omega
  | displacement salt => exact ⟨salt, h.2.1, h.2.2, rfl⟩

end Suits

/-- A bucket of several keys finds no salt only when none within the bound fits. -/
theorem not_fits_of_choose_eq_none (n : Nat) (claimed : List Nat) (bound : Salt) (keys : List Key)
    (hsize : 2 ≤ keys.length) (h : choose H n claimed bound keys = none) (salt : Salt)
    (hone : 1 ≤ salt) (hle : salt ≤ bound) : ¬ H.Fits n (· ∈ claimed) keys salt := by
  match keys with
  | [] => simp at hsize
  | [_] => simp at hsize
  | first :: second :: rest =>
      rw [choose_multi, Option.map_eq_none_iff, leastFit_eq_none_iff] at h
      exact h salt hone hle

/-- A bucket of one key finds no slot only when all slots are claimed. -/
theorem le_length_of_choose_single_eq_none (n : Nat) (claimed : List Nat) (bound : Salt) (key : Key)
    (h : choose H n claimed bound [key] = none) : n ≤ claimed.length := by
  rw [choose_single, Option.map_eq_none_iff, leastFree_eq_none_iff] at h
  have hsubset : List.range n ⊆ claimed := fun slot hslot => h slot (List.mem_range.mp hslot)
  simpa using (List.nodup_range.subperm hsubset).length_le

/-! ## The histories that arise -/

namespace History

/-- Every entry is the choice for its bucket at the time of the visit. -/
def Chosen (H : HashFamily) (bound : Salt) (keys : List Key) : History → Prop
  | [] => True
  | (b, entry) :: history =>
      choose H keys.length (claimed H keys history) bound (group H keys b) = some entry ∧
        Chosen H bound keys history

theorem extend_eq_ok_iff (bound : Salt) (keys : List Key) (history next : History) (b : Nat) :
    extend H bound keys history b = .ok next ↔ ∃ entry, next = (b, entry) :: history ∧
      choose H keys.length (claimed H keys history) bound (group H keys b) = some entry := by
  unfold extend
  cases choose H keys.length (claimed H keys history) bound (group H keys b) with
  | none => simp
  | some entry => simp [eq_comm]

theorem ofOrder_concat_eq_ok_iff (bound : Salt) (keys : List Key) (order : List Nat) (b : Nat)
    (history : History) :
    ofOrder H bound keys (order ++ [b]) = .ok history ↔
      ∃ before, ofOrder H bound keys order = .ok before ∧
        extend H bound keys before b = .ok history := by
  unfold ofOrder
  rw [List.foldlM_append]
  cases order.foldlM (extend H bound keys) [] with
  | error failed => simp [bind, Except.bind]
  | ok before =>
      simp only [bind, Except.bind, List.foldlM_cons, List.foldlM_nil, Except.ok.injEq,
        exists_eq_left']
      cases extend H bound keys before b <;> rfl

theorem ofOrder_append_eq_error (bound : Salt) (keys : List Key) (order more : List Nat)
    (failed : Nat × History) (h : ofOrder H bound keys order = .error failed) :
    ofOrder H bound keys (order ++ more) = .error failed := by
  unfold ofOrder at h
  unfold ofOrder
  rw [List.foldlM_append, h]
  rfl

/-- A run succeeds with exactly the history of choices over its order. -/
theorem ofOrder_eq_ok_iff (bound : Salt) (keys : List Key) (order : List Nat) (history : History) :
    ofOrder H bound keys order = .ok history ↔
      history.map Prod.fst = order.reverse ∧ Chosen H bound keys history := by
  induction order using List.reverseRecOn generalizing history with
  | nil =>
      simp only [List.reverse_nil, List.map_eq_nil_iff]
      constructor
      · intro h
        cases h
        exact ⟨rfl, trivial⟩
      · rintro ⟨rfl, -⟩
        rfl
  | append_singleton order b ih =>
      rw [ofOrder_concat_eq_ok_iff, List.reverse_concat]
      constructor
      · rintro ⟨before, hbefore, hb⟩
        rcases (extend_eq_ok_iff bound keys before history b).mp hb with ⟨entry, rfl, hentry⟩
        rcases (ih before).mp hbefore with ⟨hmap, hchosen⟩
        exact ⟨by rw [List.map_cons, hmap], hentry, hchosen⟩
      · rintro ⟨hmap, hchosen⟩
        match history with
        | [] => cases hmap
        | (c, entry) :: before =>
            rcases List.cons_eq_cons.mp hmap with ⟨rfl, hrest⟩
            exact ⟨before, (ih before).mpr ⟨hrest, hchosen.2⟩,
              (extend_eq_ok_iff bound keys before _ c).mpr ⟨entry, rfl, hchosen.1⟩⟩

/-- A run fails at the first bucket for which there is no choice. -/
theorem ofOrder_eq_error (bound : Salt) (keys : List Key) (order : List Nat) (b : Nat)
    (history : History) (h : ofOrder H bound keys order = .error (b, history)) :
    ∃ before after, order = before ++ b :: after ∧ ofOrder H bound keys before = .ok history ∧
      choose H keys.length (claimed H keys history) bound (group H keys b) = none := by
  obtain ⟨before, c, after, t, rfl, hbefore, hc⟩ := foldlM_eq_error _ _ _ _ h
  unfold extend at hc
  cases hchoose : choose H keys.length (claimed H keys t) bound (group H keys c) with
  | some entry =>
      rw [hchoose] at hc
      cases hc
  | none =>
      rw [hchoose] at hc
      cases hc
      exact ⟨before, after, rfl, hbefore, hchoose⟩

/-! ## Claims -/

theorem length_pos_of_mem_group (keys : List Key) (b : Nat) (key : Key)
    (h : key ∈ group H keys b) : 0 < keys.length :=
  List.length_pos_of_mem ((mem_group H keys b key).mp h).1

theorem Chosen.nodup_claimed {bound : Salt} {keys : List Key} {history : History}
    (h : history.Chosen H bound keys) : (claimed H keys history).Nodup := by
  induction history with
  | nil => exact .nil
  | cons visit history ih =>
      rcases visit with ⟨b, entry⟩
      obtain ⟨-, hnodup, hfree⟩ :=
        choose_spec _ _ _ _ _ (length_pos_of_mem_group keys b) h.1
      rw [claimed, List.nodup_append]
      refine ⟨hnodup, ih h.2, ?_⟩
      rintro slot hslot _ hclaimed rfl
      exact (hfree slot hslot).2 hclaimed

theorem Chosen.claimed_lt {bound : Salt} {keys : List Key} {history : History}
    (h : history.Chosen H bound keys) : ∀ slot ∈ claimed H keys history, slot < keys.length := by
  induction history with
  | nil => simp [claimed]
  | cons visit history ih =>
      rcases visit with ⟨b, entry⟩
      obtain ⟨-, -, hfree⟩ := choose_spec _ _ _ _ _ (length_pos_of_mem_group keys b) h.1
      intro slot hslot
      rw [claimed, List.mem_append] at hslot
      rcases hslot with hslot | hslot
      · exact (hfree slot hslot).1
      · exact ih h.2 slot hslot

theorem Chosen.length_claimed_le {bound : Salt} {keys : List Key} {history : History}
    (h : history.Chosen H bound keys) : (claimed H keys history).length ≤ keys.length :=
  length_le_of_nodup_of_lt _ _ h.nodup_claimed h.claimed_lt

/-- A run claims one slot for every key of every bucket that it visits. -/
theorem Chosen.length_claimed {bound : Salt} {keys : List Key} {history : History}
    (h : history.Chosen H bound keys) : (claimed H keys history).length =
      ((history.map Prod.fst).flatMap (group H keys)).length := by
  induction history with
  | nil => rfl
  | cons visit history ih =>
      rcases visit with ⟨b, entry⟩
      obtain ⟨hlength, -, -⟩ := choose_spec _ _ _ _ _ (length_pos_of_mem_group keys b) h.1
      calc (claimed H keys ((b, entry) :: history)).length
        _ = (slotsOf H keys.length (group H keys b) entry).length +
            (claimed H keys history).length := List.length_append
        _ = (group H keys b).length + ((history.map Prod.fst).flatMap (group H keys)).length := by
            rw [hlength, ih h.2]
        _ = ((((b, entry) :: history).map Prod.fst).flatMap (group H keys)).length := by
            rw [List.map_cons, List.flatMap_cons, List.length_append]

end History

/-! ## Counting by keys -/

/-- When no bucket is visited twice, only a bucket of several keys ends a run. -/
theorem History.two_le_of_ofOrder_eq_error (bound : Salt) (keys : List Key) (order : List Nat)
    (b : Nat) (history : History) (horder : order.Nodup)
    (h : ofOrder H bound keys order = .error (b, history)) : 2 ≤ (group H keys b).length := by
  obtain ⟨before, after, rfl, hbefore, hnone⟩ := ofOrder_eq_error bound keys order b history h
  rcases (ofOrder_eq_ok_iff bound keys before history).mp hbefore with ⟨hmap, hchosen⟩
  match hgroup : group H keys b with
  | [] =>
      rw [hgroup] at hnone
      cases hnone
  | [key] =>
      -- All slots are claimed by the keys of other buckets, so this key is one too many.
      rw [hgroup] at hnone
      have hfull := le_length_of_choose_single_eq_none _ _ _ _ hnone
      have hvisited : (b :: before.reverse).Nodup := by
        have hperm : (b :: before.reverse).Perm (before ++ [b]) :=
          ((List.reverse_perm before).cons b).trans (List.perm_append_singleton b before).symm
        rw [hperm.nodup_iff]
        exact horder.sublist (by simp)
      have hcount : 1 + (claimed H keys history).length ≤ keys.length := by
        calc 1 + (claimed H keys history).length
          _ = (group H keys b).length + (before.reverse.flatMap (group H keys)).length := by
              rw [hgroup, List.length_singleton, hchosen.length_claimed, hmap]
          _ = ((b :: before.reverse).flatMap (group H keys)).length := by
              rw [List.flatMap_cons, List.length_append]
          _ ≤ keys.length := length_flatMap_group_le keys _ hvisited
      omega
  | _ :: _ :: _ => simp

end Greedy

/-- A placement succeeds with what a history of choices over its order says. -/
theorem Placement.ofBuckets_eq_ok_iff {H : HashFamily} {keys : List Key} {B : BucketLayout}
    (hB : B.Groups H keys) (order : List Nat) (horder : ∀ b ∈ order, b < keys.length)
    {bound : Salt} {width : UInt64} {placement : Placement} :
    ofBuckets H B order bound width = .ok placement ↔
      ∃ history : Greedy.History, history.map Prod.fst = order.reverse ∧
        history.Chosen H bound keys ∧
        placement = Greedy.History.placement H keys order.length history := by
  rw [ofBuckets_eq hB order horder]
  constructor
  · intro hplacement
    cases hrun : Greedy.History.ofOrder H bound keys order with
    | error failed =>
        rw [hrun] at hplacement
        cases hplacement
    | ok history =>
        rw [hrun] at hplacement
        cases hplacement
        rcases (Greedy.History.ofOrder_eq_ok_iff bound keys order history).mp hrun with
          ⟨hmap, hchosen⟩
        exact ⟨history, hmap, hchosen, rfl⟩
  · rintro ⟨history, hmap, hchosen, rfl⟩
    rw [(Greedy.History.ofOrder_eq_ok_iff bound keys order history).mpr ⟨hmap, hchosen⟩]
    rfl

/-- A placement ends early at a bucket for which there is no choice, after the choices for the
buckets before it. -/
theorem Placement.ofBuckets_eq_error {H : HashFamily} {keys : List Key} {B : BucketLayout}
    (hB : B.Groups H keys) (order : List Nat) (horder : ∀ b ∈ order, b < keys.length)
    {bound : Salt} {width : UInt64} {halt : Halt}
    (h : ofBuckets H B order bound width = .error halt) :
    ∃ front b back, ∃ history : Greedy.History, order = front ++ [b] ++ back ∧
      history.map Prod.fst = front.reverse ∧ history.Chosen H bound keys ∧
      Greedy.choose H keys.length (Greedy.History.claimed H keys history) bound
        (Greedy.group H keys b) = none ∧
      halt = Greedy.History.halt H bound keys (b, history) ∧
      (order.Nodup → 2 ≤ (Greedy.group H keys b).length) := by
  rw [ofBuckets_eq hB order horder] at h
  cases hrun : Greedy.History.ofOrder H bound keys order with
  | ok history =>
      rw [hrun] at h
      cases h
  | error failed =>
      rcases failed with ⟨b, history⟩
      rw [hrun] at h
      cases h
      obtain ⟨front, back, hsplit, hfront, hnone⟩ :=
        Greedy.History.ofOrder_eq_error bound keys order b history hrun
      rcases (Greedy.History.ofOrder_eq_ok_iff bound keys front history).mp hfront with
        ⟨hmap, hchosen⟩
      refine ⟨front, b, back, history, ?_, hmap, hchosen, hnone, rfl, fun hnodup => ?_⟩
      · rw [hsplit, List.append_assoc, List.singleton_append]
      · exact Greedy.History.two_le_of_ofOrder_eq_error bound keys order b history hnodup hrun

end PerfectHash
