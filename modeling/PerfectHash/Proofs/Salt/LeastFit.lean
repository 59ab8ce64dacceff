import Mathlib.Algebra.Group.Nat.Defs
import PerfectHash.Hash.Families
import PerfectHash.Proofs.SlotSet.Represents
import PerfectHash.Proofs.Bucket.Partition
import PerfectHash.Proofs.Salt.Windows
import PerfectHash.Salt.Finder

set_option autoImplicit false

/-! # Both searches find the least fitting salt

A finder stops at the first salt that fits, whether it tries the salts one after the other with
stamps or window by window with sets (`SaltFinder.Ready.find`). Three facts carry this:

* an attempt starts with stamps that are all older than its own number, so a slot bears that
  number exactly when the attempt has reached it (`Stamps.Tracks`);
* stopping early, at a repeated slot or at a used one, gives the same answer as looking at all
  slots of all keys, and so does sorting these slots first;
* consecutive windows add up to the whole range of salts.
-/

namespace PerfectHash

variable {H : HashFamily} {n : Nat}

/-- A salt does not fit for one of two reasons: it sends two positions to one slot, or a key to a
slot that is taken. -/
theorem HashFamily.not_fits_iff (taken : Nat → Prop) (keys : List Key) (salt : Salt) :
    ¬ H.Fits n taken keys salt ↔
      (∃ i j, ∃ (hi : i < keys.length) (hj : j < keys.length), i < j ∧
        H.slot n salt keys[i] = H.slot n salt keys[j]) ∨
      ∃ key ∈ keys, taken (H.slot n salt key) := by
  have hnodup : (H.slots n salt keys).Nodup ↔
      ∀ i j (hi : i < keys.length) (hj : j < keys.length), i < j →
        H.slot n salt keys[i] ≠ H.slot n salt keys[j] := by
    unfold HashFamily.slots
    rw [List.Nodup, List.pairwise_iff_getElem]
    simp only [List.length_map, List.getElem_map]
  have hfree : (∀ slot ∈ H.slots n salt keys, ¬ taken slot) ↔
      ∀ key ∈ keys, ¬ taken (H.slot n salt key) := by
    simp only [HashFamily.slots, List.mem_map, forall_exists_index, and_imp,
      forall_apply_eq_imp_iff₂]
  rw [HashFamily.Fits, hnodup, hfree]
  simp only [not_and_or, not_forall, not_not, ne_eq, exists_prop]

theorem Greedy.leastFit_eq (claimed : List Nat) (bound : Salt) (keys : List Key) :
    leastFit H n claimed bound keys =
      (salts 1 bound.toNat).find? fun salt => H.Fits n (· ∈ claimed) keys salt := by
  unfold leastFit salts
  rw [List.range'_eq_map_range, List.map_map]
  congr 2
  funext i
  rw [Function.comp_apply, Nat.add_comm]

theorem Greedy.leastFit_eq_some_iff (claimed : List Nat) (bound : Salt) (keys : List Key)
    (salt : Salt) :
    leastFit H n claimed bound keys = some salt ↔
      H.IsLeastFit n (· ∈ claimed) keys bound salt := by
  have hbound := bound.toNat_lt
  have hrange : 1 ≤ salt.toNat ∧ salt.toNat < 1 + bound.toNat ↔ 1 ≤ salt ∧ salt ≤ bound := by
    rw [UInt64.le_iff_toNat_le, UInt64.le_iff_toNat_le, UInt64.toNat_one]
    omega
  rw [leastFit_eq, find?_salts_eq_some_iff 1 _ (by omega), HashFamily.IsLeastFit]
  simp only [decide_eq_true_eq, decide_eq_false_iff_not, ← and_assoc, hrange,
    UInt64.le_iff_toNat_le, UInt64.toNat_one]

theorem Greedy.leastFit_eq_none_iff (claimed : List Nat) (bound : Salt) (keys : List Key) :
    leastFit H n claimed bound keys = none ↔
      ∀ salt, 1 ≤ salt → salt ≤ bound → ¬ H.Fits n (· ∈ claimed) keys salt := by
  rw [leastFit_eq, List.find?_eq_none]
  simp only [mem_salts_one_iff, and_imp, decide_eq_true_eq]

/-- The least salt that fits the keys beside the claimed slots, with the slots of the keys. -/
def Greedy.bestFit (H : HashFamily) (n : Nat) (claimed : List Nat) (bound : Salt)
    (keys : List Key) : Option Fit :=
  (leastFit H n claimed bound keys).map fun salt => ⟨salt, H.slots n salt keys⟩

theorem Greedy.bestFit_eq_some_iff (claimed : List Nat) (bound : Salt) (keys : List Key)
    (fit : Fit) :
    bestFit H n claimed bound keys = some fit ↔
      H.IsLeastFit n (· ∈ claimed) keys bound fit.salt ∧
        fit.slots = H.slots n fit.salt keys := by
  rw [bestFit, Option.map_eq_some_iff]
  simp only [leastFit_eq_some_iff]
  constructor
  · rintro ⟨salt, hleast, rfl⟩
    exact ⟨hleast, rfl⟩
  · rintro ⟨hleast, hslots⟩
    exact ⟨fit.salt, hleast, by rw [← hslots]⟩

theorem Greedy.bestFit_eq_none_iff (claimed : List Nat) (bound : Salt) (keys : List Key) :
    bestFit H n claimed bound keys = none ↔
      ∀ salt, 1 ≤ salt → salt ≤ bound → ¬ H.Fits n (· ∈ claimed) keys salt := by
  rw [bestFit, Option.map_eq_none_iff, leastFit_eq_none_iff]

/-! ## One attempt -/

namespace Stamps

/-- No stamp is newer than the current attempt. -/
structure Settled (s : Stamps) (n : Nat) : Prop where
  size_eq : s.marks.size = n
  le_epoch : ∀ mark ∈ s.marks, mark ≤ s.epoch

/-- The slots that bear the number of the current attempt are those of the list `reached`. -/
structure Tracks (s : Stamps) (n : Nat) (reached : List Nat) : Prop extends s.Settled n where
  mem_iff : ∀ slot < n, s.marks[slot]? = some s.epoch ↔ slot ∈ reached

theorem settled_blank (n : Nat) : (blank n).Settled n where
  size_eq := by simp [blank]
  le_epoch mark h := by
    simp only [blank, Array.mem_replicate] at h
    rw [h.2, blank]
    exact UInt32.le_refl 0

/-- The number of a new attempt is on no slot yet, also when the numbers start again. -/
theorem Settled.next {s : Stamps} (h : s.Settled n) : s.next.Tracks n [] := by
  obtain ⟨marks, epoch⟩ := s
  have hsize := h.size_eq
  have hle := h.le_epoch
  simp only at hsize hle
  by_cases hwrap : epoch + 1 = 0
  -- The numbers start again at `1`, and all stamps are cleared to `0`.
  · simp only [Stamps.next, hwrap, if_true]
    refine ⟨⟨by simpa using hsize, ?_⟩, ?_⟩
    · intro mark hmark
      rw [(Array.mem_replicate.mp hmark).2]
      show (0 : UInt32) ≤ 1
      decide
    · intro slot _
      simp only [Array.getElem?_replicate, List.not_mem_nil, iff_false]
      split <;> simp
  -- The new number is greater than every stamp.
  · have hlt : ∀ mark ∈ marks, mark < epoch + 1 := by
      intro mark hmark
      have hmark := UInt32.le_iff_toNat_le.mp (hle mark hmark)
      have hne : (epoch + 1).toNat ≠ 0 := fun hzero => hwrap (UInt32.toNat_inj.mp hzero)
      have hbound := epoch.toNat_lt
      rw [UInt32.toNat_add] at hne
      rw [UInt32.lt_iff_toNat_lt, UInt32.toNat_add]
      simp only [UInt32.toNat_one] at hne ⊢
      omega
    simp only [Stamps.next, hwrap, if_false]
    refine ⟨⟨hsize, fun mark hmark => UInt32.le_of_lt (hlt mark hmark)⟩, ?_⟩
    intro slot _
    simp only [List.not_mem_nil, iff_false]
    intro hslot
    exact UInt32.lt_irrefl _ (hlt _ (Array.mem_of_getElem? hslot))

theorem Tracks.stamp {s : Stamps} {reached : List Nat} (h : s.Tracks n reached) (slot : Nat)
    (hslot : slot < s.marks.size) :
    (⟨s.marks.set slot s.epoch hslot, s.epoch⟩ : Stamps).Tracks n (reached ++ [slot]) := by
  refine ⟨⟨by simpa using h.size_eq, ?_⟩, ?_⟩
  · intro mark hmark
    rcases Array.mem_or_eq_of_mem_set (w := hslot) hmark with hmark | rfl
    · exact h.le_epoch mark hmark
    · exact UInt32.le_refl _
  · intro other hother
    simp only [Array.getElem?_set, List.mem_append, List.mem_singleton]
    by_cases heq : slot = other
    · simp [heq]
    · simp only [heq, if_false, Ne.symm heq, or_false]
      exact h.mem_iff other hother

/-- Spreading the keys collects their slots, unless a slot comes twice. -/
theorem Tracks.spread {s : Stamps} (salt : Salt) (keys : List Key) (slots : Array Nat)
    (h : s.Tracks n slots.toList) (hnodup : slots.toList.Nodup) (hn : ∀ key ∈ keys, 0 < n) :
    ∃ s', Stamps.spread H n salt keys s slots = .ok
        (if (slots.toList ++ H.slots n salt keys).Nodup
          then some (slots.toList ++ H.slots n salt keys) else none, s') ∧ s'.Settled n := by
  induction keys generalizing s slots with
  | nil =>
      refine ⟨s, ?_, h.toSettled⟩
      simp [Stamps.spread, HashFamily.slots, hnodup]
  | cons key keys ih =>
      obtain ⟨marks, epoch⟩ := s
      have hpos : 0 < n := hn key (by simp)
      have hsize : marks.size = n := h.size_eq
      have hslot : H.slot n salt key < marks.size := hsize ▸ H.slot_lt n salt key hpos
      have hseen := h.mem_iff (H.slot n salt key) (hsize ▸ hslot)
      have hread : marks[H.slot n salt key]? = some marks[H.slot n salt key] :=
        Array.getElem?_eq_getElem hslot
      simp only [hread, Option.some.injEq] at hseen
      have hcons : H.slots n salt (key :: keys) = H.slot n salt key :: H.slots n salt keys := rfl
      simp only [Stamps.spread, bind, Except.bind]
      rw [H.slotOf_of_pos n salt key hpos]
      simp only
      rw [fetch_of_lt marks _ hslot]
      by_cases heq : marks[H.slot n salt key] = epoch
      -- The slot is stamped, so an earlier key has it.
      · have hmem := hseen.mp heq
        have hrepeated : ¬ (slots.toList ++ H.slots n salt (key :: keys)).Nodup := by
          rw [hcons, List.nodup_append]
          rintro ⟨-, -, hdisjoint⟩
          exact hdisjoint _ hmem _ (by simp) rfl
        simp only [heq, if_true, hrepeated, if_false]
        exact ⟨_, rfl, h.toSettled⟩
      -- The slot is new, so it is stamped and the other keys follow.
      · have hnew : H.slot n salt key ∉ slots.toList := fun hmem => heq (hseen.mpr hmem)
        have hpush : (slots.push (H.slot n salt key)).toList =
            slots.toList ++ [H.slot n salt key] := Array.toList_push
        have hnodup' : (slots.push (H.slot n salt key)).toList.Nodup := by
          rw [hpush, List.nodup_append]
          refine ⟨hnodup, by simp, ?_⟩
          intro a ha b hb hab
          rw [List.mem_singleton.mp hb] at hab
          exact hnew (hab ▸ ha)
        obtain ⟨s', hrun, hsettled⟩ := ih (slots.push (H.slot n salt key))
          (hpush ▸ h.stamp _ hslot) hnodup' fun other hother => hn other (by simp [hother])
        refine ⟨s', ?_, hsettled⟩
        simp only [heq, if_false]
        rw [store_of_lt marks _ epoch hslot]
        simp only
        rw [hrun, hpush, hcons, List.append_assoc, List.singleton_append]

end Stamps

/-! ## The sequential search -/

section Search

variable {used : SlotSet} {claimed : List Nat} (hused : used.Shows claimed)
  (hlen : used.len = n) (keys : List Key) (hn : ∀ key ∈ keys, 0 < n)
include hused hlen hn

omit hused hlen in
theorem slots_lt (salt : Salt) (slot : Nat) (h : slot ∈ H.slots n salt keys) : slot < n := by
  rcases List.mem_map.mp h with ⟨key, hkey, rfl⟩
  exact H.slot_lt n salt key (hn key hkey)

theorem accessible_slots (salt : Salt) (slot : Nat) (h : slot ∈ H.slots n salt keys) :
    used.Accessible slot :=
  hused.accessible slot (hlen ▸ slots_lt keys hn salt slot h)

theorem Stamps.Settled.attempt {s : Stamps} (h : s.Settled n) (salt : Salt) :
    ∃ s', Stamps.attempt H n used keys salt s = .ok
        (if H.Fits n (· ∈ claimed) keys salt then some (H.slots n salt keys) else none, s') ∧
      s'.Settled n := by
  obtain ⟨s', hspread, hsettled⟩ := h.next.spread (H := H) salt keys #[] .nil hn
  refine ⟨s', ?_, hsettled⟩
  unfold Stamps.attempt
  rw [hspread]
  simp only [bind, Except.bind, List.nil_append, HashFamily.Fits]
  by_cases hnodup : (H.slots n salt keys).Nodup
  · simp only [hnodup, if_true, true_and]
    rw [hused.allFree _ (accessible_slots hused hlen keys hn salt)]
    by_cases hfree : ∀ slot ∈ H.slots n salt keys, slot ∉ claimed
    · rw [if_pos hfree, decide_eq_true hfree]
      rfl
    · rw [if_neg hfree, decide_eq_false hfree]
      rfl
  · simp only [hnodup, if_false, false_and]
    rfl

theorem Stamps.Settled.scan {s : Stamps} (h : s.Settled n) (count start : Nat) :
    ∃ s', Stamps.scan H n used keys count start s = .ok
        (((salts start count).find? fun salt => H.Fits n (· ∈ claimed) keys salt).map
          fun salt => ⟨salt, H.slots n salt keys⟩, s') ∧ s'.Settled n := by
  induction count generalizing s start with
  | zero => exact ⟨s, rfl, h⟩
  | succ count ih =>
      obtain ⟨s₁, hattempt, h₁⟩ := h.attempt (H := H) hused hlen keys hn (.ofNat start)
      obtain ⟨s₂, hrest, h₂⟩ := ih h₁ (start + 1)
      simp only [Stamps.scan, bind, Except.bind]
      rw [hattempt, salts_succ, List.find?_cons]
      by_cases hfits : H.Fits n (· ∈ claimed) keys (.ofNat start)
      · exact ⟨s₁, by simp [hfits]; rfl, h₁⟩
      · exact ⟨s₂, by simp [hfits, hrest], h₂⟩

/-! ## The search in windows -/

/-- A test in a window looks for the first key with a slot that is reached or used. -/
theorem Window.fitsBeside_eq (salt : Salt) (reached : Std.HashSet Nat) :
    Window.fitsBeside H n used salt reached keys = .ok (decide ((H.slots n salt keys).Nodup ∧
      ∀ slot ∈ H.slots n salt keys, slot ∉ reached ∧ slot ∉ claimed)) := by
  induction keys generalizing reached with
  | nil => simp [Window.fitsBeside, HashFamily.slots]
  | cons key keys ih =>
      have hpos : 0 < n := hn key (by simp)
      have hcons : H.slots n salt (key :: keys) = H.slot n salt key :: H.slots n salt keys := rfl
      have hacc : used.Accessible (H.slot n salt key) :=
        hused.accessible _ (hlen ▸ H.slot_lt n salt key hpos)
      have hrest := ih (fun other hother => hn other (by simp [hother]))
        (reached.insert (H.slot n salt key))
      simp only [Window.fitsBeside, bind, Except.bind]
      rw [H.slotOf_of_pos n salt key hpos]
      simp only
      -- The answer is known at the first key that is in the way of another one.
      by_cases hreached : H.slot n salt key ∈ reached
      · simp [hreached, hcons]
        rfl
      · rw [hused.isUsed _ hacc]
        by_cases hclaimed : H.slot n salt key ∈ claimed
        · simp [hreached, hclaimed, hcons]
          rfl
        · simp only [hreached, hclaimed, if_false, decide_false, Bool.false_eq_true]
          rw [hrest, hcons]
          congr 1
          rw [decide_eq_decide]
          simp only [List.nodup_cons, List.forall_mem_cons, Std.HashSet.mem_insert, beq_iff_eq,
            not_or]
          constructor
          · rintro ⟨hnodup, hslots⟩
            exact ⟨⟨fun hmem => (hslots _ hmem).1.1 rfl, hnodup⟩, ⟨hreached, hclaimed⟩,
              fun slot hslot => ⟨(hslots slot hslot).1.2, (hslots slot hslot).2⟩⟩
          · rintro ⟨⟨hnew, hnodup⟩, -, hslots⟩
            refine ⟨hnodup, fun slot hslot => ⟨⟨?_, (hslots slot hslot).1⟩, (hslots slot hslot).2⟩⟩
            intro heq
            exact hnew (heq ▸ hslot)

theorem Window.fits_eq (salt : Salt) :
    Window.fits H n used keys salt = .ok (decide (H.Fits n (· ∈ claimed) keys salt)) := by
  unfold Window.fits
  rw [Window.fitsBeside_eq hused hlen keys hn]
  congr 1
  rw [decide_eq_decide]
  simp [HashFamily.Fits]

end Search

/-! ## The finder -/

/-- A finder of the salts up to `bound` among `n` slots, between two searches. -/
structure SaltFinder.Ready (finder : SaltFinder) (n : Nat) (bound : Salt) : Prop where
  n_eq : finder.n = n
  bound_eq : finder.bound = bound
  settled : finder.stamps.Settled n

theorem SaltFinder.ready_start (n : Nat) (bound : Salt) (width : UInt64) :
    (SaltFinder.start n bound width).Ready n bound :=
  ⟨rfl, rfl, Stamps.settled_blank n⟩

/-- Whatever was searched before, the least fitting salt is found, with the slots of the keys. -/
theorem SaltFinder.Ready.find {finder : SaltFinder} {bound : Salt} (h : finder.Ready n bound)
    {used : SlotSet} {claimed : List Nat} (hused : used.Shows claimed) (hlen : used.len = n)
    (keys : List Key) (hn : ∀ key ∈ keys, 0 < n) :
    ∃ finder', finder.find H used keys = .ok (Greedy.bestFit H n claimed bound keys, finder') ∧
      finder'.Ready n bound := by
  obtain ⟨n', bound', width, stamps⟩ := finder
  obtain ⟨rfl, rfl, hsettled⟩ := h
  simp only at hsettled hn hlen ⊢
  rw [Greedy.bestFit, Greedy.leastFit_eq]
  by_cases hwidth : 1 < width
  -- The windows leave the stamps alone.
  · refine ⟨⟨n', bound', width, stamps⟩, ?_, rfl, rfl, hsettled⟩
    have hsearch := Window.search_eq (Window.fits_eq (H := H) hused hlen keys hn)
      width bound' 1
    simp only [SaltFinder.find, hwidth, if_true, bind, Except.bind]
    rw [hsearch, UInt64.toNat_one, Nat.add_sub_cancel]
    cases (salts 1 bound'.toNat).find? fun salt => decide (H.Fits n' (· ∈ claimed) keys salt) with
    | none => rfl
    | some salt =>
        have hslots : keys.mapM (H.slotOf n' salt) = .ok (H.slots n' salt keys) :=
          mapM_eq_ok _ _ _ fun key hkey => H.slotOf_of_pos n' salt key (hn key hkey)
        simp only [hslots, Option.map_some]
        rfl
  · obtain ⟨s', hscan, hsettled'⟩ := hsettled.scan (H := H) hused hlen keys hn bound'.toNat 1
    refine ⟨⟨n', bound', width, s'⟩, ?_, rfl, rfl, hsettled'⟩
    simp only [SaltFinder.find, hwidth, if_false, bind, Except.bind]
    rw [hscan]
    rfl

/-! ## The two searches agree -/

end PerfectHash
