import PerfectHash.Allocator.Basic
import PerfectHash.Proofs.Salt.LeastFit

set_option autoImplicit false

/-! # Allocators as lists of slots handed out

`allocator.Represents n bound handedOut` says that the slots of the list were handed out, and that
the finder is between two searches. What an allocator does next depends on the list alone: the
lowest slot that is not on it is taken, and keys are placed under the least salt that fits beside
it (`Greedy.bestFit`). The stamps that earlier searches have left do not show.
-/

namespace PerfectHash.Allocator

variable {H : HashFamily} {n : Nat} {bound : Salt}

/-- The allocator of `n` slots has handed out those of the list, and is between two searches. -/
structure Represents (allocator : Allocator) (n : Nat) (bound : Salt) (handedOut : List Nat) :
    Prop where
  ready : allocator.finder.Ready n bound
  len_eq : allocator.used.len = n
  used : allocator.used.Represents handedOut

theorem represents_start (n : Nat) (bound : Salt) (width : UInt64) :
    (start n bound width).Represents n bound [] where
  ready := SaltFinder.ready_start n bound width
  len_eq := rfl
  used := SlotSet.represents_free n

section Operations

variable {allocator : Allocator} {handedOut : List Nat}
  (h : allocator.Represents n bound handedOut)
include h

/-- The lowest slot that was not handed out is taken. -/
theorem Represents.take :
    ∃ after, allocator.take = (Greedy.leastFree n handedOut, after) ∧
      after.Represents n bound ((Greedy.leastFree n handedOut).toList ++ handedOut) := by
  obtain ⟨finder, used⟩ := allocator
  obtain ⟨hready, hlen, hused⟩ := h
  simp only at hready hlen hused
  obtain ⟨taken, htake, hlen', htaken⟩ := hused.take
  rw [hlen] at htake htaken
  refine ⟨⟨finder, taken⟩, ?_, hready, hlen'.trans hlen, htaken⟩
  rw [Allocator.take, htake]

/-- A search finds the best fit and hands out nothing. -/
theorem Represents.find (keys : List Key) (hn : ∀ key ∈ keys, 0 < n) :
    ∃ after, find H keys allocator = .ok (Greedy.bestFit H n handedOut bound keys, after) ∧
      after.used = allocator.used ∧ after.Represents n bound handedOut := by
  obtain ⟨finder, used⟩ := allocator
  obtain ⟨hready, hlen, hused⟩ := h
  simp only at hready hlen hused
  obtain ⟨finder', hfind, hready'⟩ := hready.find (H := H) hused.toShows hlen keys hn
  refine ⟨⟨finder', used⟩, ?_, rfl, hready', hlen, hused⟩
  simp only [Allocator.find, bind, Except.bind]
  rw [hfind]
  rfl

/-- A placement hands out the slots of the best fit. -/
theorem Represents.place (keys : List Key) (hn : ∀ key ∈ keys, 0 < n) :
    ∃ after, place H keys allocator = .ok (Greedy.bestFit H n handedOut bound keys, after) ∧
      after.Represents n bound
        ((Greedy.bestFit H n handedOut bound keys).elim [] Fit.slots ++ handedOut) := by
  obtain ⟨finder, used⟩ := allocator
  obtain ⟨hready, hlen, hused⟩ := h
  simp only at hready hlen hused
  obtain ⟨finder', hfind, hready'⟩ := hready.find (H := H) hused.toShows hlen keys hn
  simp only [Allocator.place, bind, Except.bind]
  rw [hfind]
  cases hbest : Greedy.bestFit H n handedOut bound keys with
  | none => exact ⟨_, rfl, hready', hlen, hused⟩
  | some fit =>
      -- The slots of a fitting salt are free and distinct, so marking them cannot fail.
      rcases (Greedy.bestFit_eq_some_iff _ _ _ _).mp hbest with ⟨⟨⟨-, -, hnodup, hfree⟩, -⟩, hslots⟩
      rw [← hslots] at hnodup hfree
      have hacc : ∀ slot ∈ fit.slots, used.Accessible slot := by
        rw [hslots]
        exact accessible_slots hused.toShows hlen keys hn fit.salt
      obtain ⟨marked, hmark, hlen', hmarked⟩ := hused.markAll fit.slots hacc hnodup hfree
      simp only
      rw [hmark]
      exact ⟨_, rfl, hready', hlen'.trans hlen, hmarked⟩

end Operations

end PerfectHash.Allocator
