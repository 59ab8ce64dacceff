import Mathlib.Data.List.Perm.Basic
import PerfectHash.Placement.Greedy
import PerfectHash.SlotSet.Basic

set_option autoImplicit false

/-! # Sets of slots as lists of claimed slots

`set.Represents claimed` says that the marked slots are those of the list `claimed`, that the
counter counts them, and that the cursor has left only full words behind. Every operation is
described on this list: the free set stands for no slots, marking a free slot adds it, and
`take` claims the least slot that is not claimed.

To ask for slots, only the words are read. `set.Shows claimed` is the part of the relation that
speaks of the words, and it can be had for any words (`exists_shows`).
-/

namespace PerfectHash

namespace Greedy

theorem leastFree_eq_some_iff (n : Nat) (claimed : List Nat) (slot : Nat) :
    leastFree n claimed = some slot ↔
      slot < n ∧ slot ∉ claimed ∧ ∀ lower < slot, lower ∈ claimed := by
  unfold leastFree
  rw [List.find?_range_eq_some]
  simp only [decide_eq_true_eq, List.mem_range, Bool.not_eq_true', decide_eq_false_iff_not,
    not_not]
  exact and_left_comm

theorem leastFree_eq_none_iff (n : Nat) (claimed : List Nat) :
    leastFree n claimed = none ↔ ∀ slot < n, slot ∈ claimed := by
  unfold leastFree
  rw [List.find?_range_eq_none]
  simp only [Bool.not_eq_true', decide_eq_false_iff_not, not_not]

/-- The least free slot depends only on which slots are claimed. -/
theorem leastFree_congr (n : Nat) (claimed claimed' : List Nat)
    (h : ∀ slot, slot ∈ claimed ↔ slot ∈ claimed') :
    leastFree n claimed = leastFree n claimed' := by
  simp only [leastFree, h]

end Greedy

namespace SlotSet

/-- The marked slots are the claimed ones. -/
structure Shows (set : SlotSet) (claimed : List Nat) : Prop where
  size_eq : set.words.size = (set.len + 63) / 64
  mem_iff : ∀ slot, slot ∈ set ↔ slot ∈ claimed

/-- The set is the one that is left when the slots of the list were claimed. -/
structure Represents (set : SlotSet) (claimed : List Nat) : Prop extends set.Shows claimed where
  nodup : claimed.Nodup
  used_eq : set.used = claimed.length
  full : ∀ slot, slot < 64 * set.cursor → slot ∈ claimed

theorem represents_free (len : Nat) : (free len).Represents [] where
  size_eq := by simp [free]
  mem_iff slot := by simp [not_mem_free]
  nodup := .nil
  used_eq := rfl
  full slot h := by simp [free] at h

theorem accessible_add (set : SlotSet) (slot other : Nat) :
    (set.add slot).Accessible other ↔ set.Accessible other := by
  simp [Accessible, add]

section Shows

variable {set : SlotSet} {claimed : List Nat} (h : set.Shows claimed)
include h

theorem Shows.accessible_iff (slot : Nat) :
    set.Accessible slot ↔ slot / 64 < (set.len + 63) / 64 := by
  rw [Accessible, h.size_eq]

theorem Shows.accessible (slot : Nat) (hlt : slot < set.len) : set.Accessible slot := by
  rw [h.accessible_iff]
  omega

theorem Shows.isUsed (slot : Nat) (hacc : set.Accessible slot) :
    set.isUsed slot = .ok (decide (slot ∈ claimed)) := by
  rw [isUsed_eq_ok_iff]
  exact ⟨hacc, by rw [h.mem_iff, decide_eq_true_eq]⟩

theorem Shows.isUsed_eq (slot : Nat) :
    set.isUsed slot =
      if set.Accessible slot then .ok (decide (slot ∈ claimed))
      else .error (set.outside slot) := by
  by_cases hacc : set.Accessible slot
  · rw [if_pos hacc, h.isUsed slot hacc]
  · rw [if_neg hacc]
    have hsize : ¬ slot / 64 < set.words.size := hacc
    simp [SlotSet.isUsed, fetch, hsize, outside, bind, Except.bind]

theorem Shows.allFree (slots : List Nat) (hacc : ∀ slot ∈ slots, set.Accessible slot) :
    set.allFree slots = .ok (decide (∀ slot ∈ slots, slot ∉ claimed)) := by
  induction slots with
  | nil => simp [SlotSet.allFree]
  | cons slot slots ih =>
      have hrest := ih fun other hother => hacc other (by simp [hother])
      simp only [SlotSet.allFree, bind, Except.bind]
      rw [h.isUsed slot (hacc slot (by simp))]
      by_cases hslot : slot ∈ claimed
      · simp [hslot]
        rfl
      · simp [hslot, hrest]

end Shows

section Represents

variable {set : SlotSet} {claimed : List Nat} (h : set.Represents claimed)
include h

theorem Represents.perm {claimed' : List Nat} (hperm : claimed.Perm claimed') :
    set.Represents claimed' where
  size_eq := h.size_eq
  mem_iff slot := (h.mem_iff slot).trans hperm.mem_iff
  nodup := hperm.nodup_iff.mp h.nodup
  used_eq := h.used_eq.trans hperm.length_eq
  full slot hslot := hperm.mem_iff.mp (h.full slot hslot)

/-- Marking a slot that is not claimed claims it. -/
theorem Represents.add (slot : Nat) (hacc : set.Accessible slot) (hfree : slot ∉ claimed) :
    (set.add slot).Represents (slot :: claimed) where
  size_eq := by
    have := h.size_eq
    simpa [SlotSet.add] using this
  mem_iff other := by rw [mem_add set slot other hacc, h.mem_iff, List.mem_cons]
  nodup := List.nodup_cons.mpr ⟨hfree, h.nodup⟩
  used_eq := by
    have := h.used_eq
    simpa [SlotSet.add] using this
  full other hother := List.mem_cons_of_mem slot (h.full other hother)

/-- Marking distinct slots that are not claimed claims them all. -/
theorem Represents.markAll (slots : List Nat) (hacc : ∀ slot ∈ slots, set.Accessible slot)
    (hnodup : slots.Nodup) (hfree : ∀ slot ∈ slots, slot ∉ claimed) :
    ∃ marked, set.markAll slots = .ok marked ∧ marked.len = set.len ∧
      marked.Represents (slots ++ claimed) := by
  induction slots generalizing set claimed with
  | nil => exact ⟨set, rfl, rfl, h⟩
  | cons slot slots ih =>
      rcases List.nodup_cons.mp hnodup with ⟨hslot, hslots⟩
      have hnext := h.add slot (hacc slot (by simp)) (hfree slot (by simp))
      obtain ⟨marked, hrun, hlen, hmarked⟩ := ih hnext
        (fun other hother => (accessible_add set slot other).mpr (hacc other (by simp [hother])))
        hslots
        (fun other hother hclaimed => by
          rcases List.mem_cons.mp hclaimed with rfl | hclaimed
          · exact hslot hother
          · exact hfree other (by simp [hother]) hclaimed)
      refine ⟨marked, ?_, hlen, hmarked.perm List.perm_middle⟩
      unfold SlotSet.markAll
      rw [List.foldlM_cons, mark_of_accessible set slot (hacc slot (by simp))]
      exact hrun

end Represents

/-! ## Taking the lowest free slot -/

theorem lowestClear?_eq_some (word : UInt64) (bit : Nat)
    (h : Bits.lowestClear? word = some bit) :
    bit < 64 ∧ Bits.isSet word bit = false ∧ ∀ lower < bit, Bits.isSet word lower = true := by
  unfold Bits.lowestClear? at h
  rw [List.find?_range_eq_some] at h
  obtain ⟨hclear, hbit, hlower⟩ := h
  refine ⟨List.mem_range.mp hbit, by simpa using hclear, fun lower hlt => ?_⟩
  simpa using hlower lower hlt

theorem lowestClear?_eq_none (word : UInt64) (h : Bits.lowestClear? word = none) (bit : Nat)
    (hbit : bit < 64) : Bits.isSet word bit = true := by
  unfold Bits.lowestClear? at h
  rw [List.find?_range_eq_none] at h
  simpa using h bit hbit

theorem mem_iff_isSet (set : SlotSet) (word bit : Nat) (hword : word < set.words.size)
    (hbit : bit < 64) : word * 64 + bit ∈ set ↔ Bits.isSet set.words[word] bit = true := by
  have hdiv : (word * 64 + bit) / 64 = word := by omega
  have hmod : (word * 64 + bit) % 64 = bit := by omega
  rw [mem_def, hdiv, hmod]
  simp [hword]

/-- All slots from word `cursor` on up to the bit found are marked, and that bit is clear. If no
bit is found there are no further words. -/
theorem nextClear_spec (set : SlotSet) (cursor : Nat) :
    (∀ slot, 64 * cursor ≤ slot → slot < 64 * (nextClear set.words cursor).1 → slot ∈ set) ∧
      match nextClear set.words cursor with
      | (word, none) => set.words.size ≤ word
      | (word, some bit) => set.Accessible (word * 64 + bit) ∧ word * 64 + bit ∉ set ∧
          ∀ slot, 64 * word ≤ slot → slot < word * 64 + bit → slot ∈ set := by
  fun_induction nextClear set.words cursor with
  | case1 cursor hcursor bit hbit =>
      -- The word at the cursor has a clear bit.
      obtain ⟨hlt, hclear, hlower⟩ := lowestClear?_eq_some _ _ hbit
      refine ⟨fun slot _ _ => by omega, ?_, ?_, ?_⟩
      · simp only [Accessible]
        omega
      · rw [mem_iff_isSet set cursor bit hcursor hlt, hclear]
        exact Bool.false_ne_true
      · intro slot hlo hhi
        obtain ⟨lower, rfl⟩ := Nat.exists_eq_add_of_le hlo
        rw [Nat.mul_comm, mem_iff_isSet set cursor lower hcursor (by omega)]
        exact hlower lower (by omega)
  | case2 cursor hcursor hfull ih =>
      -- The word at the cursor is full.
      refine ⟨fun slot hlo hhi => ?_, ih.2⟩
      by_cases hslot : slot < 64 * (cursor + 1)
      · obtain ⟨bit, rfl⟩ := Nat.exists_eq_add_of_le hlo
        rw [Nat.mul_comm, mem_iff_isSet set cursor bit hcursor (by omega)]
        exact lowestClear?_eq_none _ hfull bit (by omega)
      · exact ih.1 slot (by omega) hhi
  | case3 cursor hcursor => exact ⟨fun slot _ _ => by omega, Nat.le_of_not_lt hcursor⟩

/-- Moving the cursor past full words changes nothing. -/
theorem Represents.moveCursor {set : SlotSet} {claimed : List Nat} (h : set.Represents claimed)
    (cursor : Nat) (hfull : ∀ slot, slot < 64 * cursor → slot ∈ claimed) :
    ({ set with cursor } : SlotSet).Represents claimed where
  size_eq := h.size_eq
  mem_iff := h.mem_iff
  nodup := h.nodup
  used_eq := h.used_eq
  full := hfull

/-- `take` hands out the least free slot, and claims it. -/
theorem Represents.take {set : SlotSet} {claimed : List Nat} (h : set.Represents claimed) :
    ∃ taken, set.take = (Greedy.leastFree set.len claimed, taken) ∧ taken.len = set.len ∧
      taken.Represents ((Greedy.leastFree set.len claimed).toList ++ claimed) := by
  obtain ⟨words, len, used, cursor⟩ := set
  obtain ⟨hpassed, hfound⟩ := nextClear_spec ⟨words, len, used, cursor⟩ cursor
  simp only [SlotSet.take]
  generalize nextClear words cursor = found at hpassed hfound
  rcases found with ⟨word, bit⟩
  -- No free slot lies before the word at which the search stopped.
  have hfull : ∀ slot, slot < 64 * word → slot ∈ claimed := by
    intro slot hslot
    by_cases hcursor : slot < 64 * cursor
    · exact h.full slot hcursor
    · exact (h.mem_iff slot).mp (hpassed slot (by omega) hslot)
  have hmoved := h.moveCursor word hfull
  cases bit with
  | none =>
      -- The search has passed all words, so every slot is claimed.
      have hsize := h.size_eq
      have hnone : Greedy.leastFree len claimed = none :=
        (Greedy.leastFree_eq_none_iff len claimed).mpr fun slot hslot => hfull slot (by
          simp only at hsize hfound
          omega)
      rw [hnone]
      exact ⟨_, rfl, rfl, hmoved⟩
  | some bit =>
      obtain ⟨hacc, hclear, hlower⟩ := hfound
      have hfree : word * 64 + bit ∉ claimed := fun hmem => hclear ((h.mem_iff _).mpr hmem)
      have hbelow : ∀ lower < word * 64 + bit, lower ∈ claimed := by
        intro lower hlt
        by_cases hword : lower < 64 * word
        · exact hfull lower hword
        · exact (h.mem_iff lower).mp (hlower lower (by omega) hlt)
      -- The last word may have clear bits behind the last slot.
      by_cases hlen : word * 64 + bit < len
      · rw [(Greedy.leastFree_eq_some_iff len claimed _).mpr ⟨hlen, hfree, hbelow⟩]
        simp only [hlen, if_true]
        exact ⟨_, rfl, rfl, hmoved.add _ hacc hfree⟩
      · rw [(Greedy.leastFree_eq_none_iff len claimed).mpr fun slot hslot => hbelow slot (by omega)]
        simp only [hlen, if_false]
        exact ⟨_, rfl, rfl, hmoved⟩

end SlotSet

end PerfectHash
