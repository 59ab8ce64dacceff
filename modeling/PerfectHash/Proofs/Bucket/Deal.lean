import Mathlib.Data.List.Range
import PerfectHash.Bucket.Layout
import PerfectHash.Bucket.Order
import PerfectHash.Proofs.Cell

set_option autoImplicit false

/-! # Dealing values out to segments

Laying out the buckets and sorting them by size are the same loop: every value belongs to a
class, every class has a segment of one array and a cursor in it, and the values are dealt out
one after the other, each to the cursor of its class. `foldlM_deal` says what the loop leaves
behind: if the segments do not overlap and are long enough, each of them holds the values of
its class in the order in which they came.

The invariant of the loop is that the unused parts of the segments do not overlap. A cell that
has been written has left the unused part, so no later value is written to it.
-/

namespace PerfectHash

variable {α : Type}

/-- Moves one value to the cursor of its class, and the cursor one cell on. -/
def deal : Array Nat × Array α → Nat × α → Outcome (Array Nat × Array α)
  | (cursors, cells), (c, value) => do
      let cell ← fetch cursors c
      let cells ← store cells cell value
      let cursors ← store cursors c (cell + 1)
      return (cursors, cells)

theorem scatterKey_eq_deal : BucketLayout.scatterKey = deal := rfl

theorem arrange_eq_deal (s : Array Nat × Array Nat) (size bucket : Nat) (h : size ≠ 0) :
    Schedule.arrange s (size, bucket) = deal s (size, bucket) := by
  obtain ⟨next, order⟩ := s
  simp only [Schedule.arrange, h, if_false]
  rfl

theorem deal_tabulate (n m : Nat) (start : Nat → Nat) (f : Nat → α) (c : Nat) (value : α)
    (hc : c < n) (hcell : start c < m) :
    deal (tabulate n start, tabulate m f) (c, value) =
      .ok (tabulate n (Function.update start c (start c + 1)),
        tabulate m (Function.update f (start c) value)) := by
  simp only [deal]
  rw [fetch_tabulate n start c hc]
  simp only [bind, Except.bind]
  rw [store_tabulate m f (start c) value hcell]
  simp only
  rw [store_tabulate n start c (start c + 1) hc]
  rfl

def valuesOf (items : List (Nat × α)) (c : Nat) : List α :=
  (items.filter fun item => item.1 = c).map Prod.snd

theorem valuesOf_cons_self (c : Nat) (value : α) (items : List (Nat × α)) :
    valuesOf ((c, value) :: items) c = value :: valuesOf items c := by
  simp [valuesOf]

theorem valuesOf_cons_of_ne (c d : Nat) (value : α) (items : List (Nat × α)) (h : d ≠ c) :
    valuesOf ((c, value) :: items) d = valuesOf items d := by
  simp [valuesOf, Ne.symm h]

/-- Among `m` cells, the segments of `len c` cells from `start c` on, one for each class `c < n`,
do not overlap. -/
structure Segments (n m : Nat) (start len : Nat → Nat) : Prop where
  fits : ∀ c < n, start c + len c ≤ m
  apart : ∀ c < n, ∀ d < n, ∀ i, start c ≤ i → i < start c + len c →
    start d ≤ i → i < start d + len d → c = d

/-- Cell `i` lies in none of the segments. -/
def Outside (n : Nat) (start len : Nat → Nat) (i : Nat) : Prop :=
  ∀ c < n, start c ≤ i → start c + len c ≤ i

section Advance

variable {n m : Nat} {start len len' : Nat → Nat} (c : Nat) (hc : len c = len' c + 1)
  (hlen : ∀ d, d ≠ c → len d = len' d)
include hc hlen

/-- When the first cell of a segment is used up, the unused parts still do not overlap. -/
theorem Segments.advance (h : Segments n m start len) :
    Segments n m (Function.update start c (start c + 1)) len' := by
  -- What is left of a segment is a part of it.
  have hinside : ∀ d i, Function.update start c (start c + 1) d ≤ i →
      i < Function.update start c (start c + 1) d + len' d → start d ≤ i ∧ i < start d + len d := by
    intro d i hlo hhi
    by_cases hd : d = c
    · subst hd
      rw [Function.update_self] at hlo hhi
      omega
    · rw [Function.update_of_ne hd] at hlo hhi
      rw [hlen d hd]
      exact ⟨hlo, hhi⟩
  constructor
  · intro d hd
    have hfits := h.fits d hd
    by_cases hdc : d = c
    · subst hdc
      rw [Function.update_self]
      omega
    · rw [Function.update_of_ne hdc, ← hlen d hdc]
      exact hfits
  · intro d hd e he i hdlo hdhi helo hehi
    obtain ⟨hdlo', hdhi'⟩ := hinside d i hdlo hdhi
    obtain ⟨helo', hehi'⟩ := hinside e i helo hehi
    exact h.apart d hd e he i hdlo' hdhi' helo' hehi'

/-- The cell that is used up is outside what is left. -/
theorem Segments.outside_advance (h : Segments n m start len) (hn : c < n) :
    Outside n (Function.update start c (start c + 1)) len' (start c) := by
  intro d hd hlo
  by_contra hhi
  by_cases hdc : d = c
  · subst hdc
    rw [Function.update_self] at hlo
    omega
  · rw [Function.update_of_ne hdc] at hlo hhi
    have hdlen := hlen d hdc
    exact hdc (h.apart d hd c hn (start c) hlo (by omega) (Nat.le_refl _) (by omega))

/-- A cell outside the segments is another one, and it is outside what is left. -/
theorem Outside.advance (hn : c < n) (i : Nat) (h : Outside n start len i) :
    i ≠ start c ∧ Outside n (Function.update start c (start c + 1)) len' i := by
  refine ⟨?_, ?_⟩
  · rintro rfl
    have := h c hn (Nat.le_refl _)
    omega
  · intro d hd hlo
    by_cases hdc : d = c
    · subst hdc
      rw [Function.update_self] at hlo ⊢
      have := h d hd (by omega)
      omega
    · rw [Function.update_of_ne hdc] at hlo ⊢
      rw [← hlen d hdc]
      exact h d hd hlo

end Advance

/-- Every segment holds the values of its class in their order, and cells outside the segments
are unchanged. -/
theorem foldlM_deal (n m : Nat) (items : List (Nat × α)) (start : Nat → Nat) (f : Nat → α)
    (hclass : ∀ item ∈ items, item.1 < n)
    (hseg : Segments n m start fun c => (valuesOf items c).length) :
    ∃ next g, items.foldlM deal (tabulate n start, tabulate m f) =
        .ok (tabulate n next, tabulate m g) ∧
      (∀ c < n, (List.range' (start c) (valuesOf items c).length).map g = valuesOf items c) ∧
      ∀ i, Outside n start (fun c => (valuesOf items c).length) i → g i = f i := by
  induction items generalizing start f with
  | nil => exact ⟨start, f, rfl, by simp [valuesOf], fun _ _ => rfl⟩
  | cons item items ih =>
      rcases item with ⟨c, value⟩
      have hc : c < n := hclass (c, value) (by simp)
      have hself : (valuesOf ((c, value) :: items) c).length = (valuesOf items c).length + 1 := by
        rw [valuesOf_cons_self, List.length_cons]
      have hothers : ∀ d, d ≠ c →
          (valuesOf ((c, value) :: items) d).length = (valuesOf items d).length := fun d hd => by
        rw [valuesOf_cons_of_ne c d value items hd]
      have hcell : start c < m := by
        have := hseg.fits c hc
        omega
      -- The first value goes to the cursor of its class, the rest to what is left of the segments.
      obtain ⟨next, g, hrun, hvalues, hframe⟩ :=
        ih (Function.update start c (start c + 1)) (Function.update f (start c) value)
          (fun item hitem => hclass item (by simp [hitem])) (hseg.advance c hself hothers)
      have hfirst : g (start c) = value := by
        rw [hframe (start c) (hseg.outside_advance c hself hothers hc), Function.update_self]
      refine ⟨next, g, ?_, ?_, ?_⟩
      · rw [List.foldlM_cons, deal_tabulate n m start f c value hc hcell]
        exact hrun
      · intro d hd
        have hd' := hvalues d hd
        by_cases hdc : d = c
        · subst hdc
          rw [Function.update_self] at hd'
          rw [valuesOf_cons_self, List.length_cons, List.range'_succ, List.map_cons, hd', hfirst]
        · rw [Function.update_of_ne hdc] at hd'
          rw [valuesOf_cons_of_ne c d value items hdc, hd']
      · intro i hi
        obtain ⟨hne, hrest⟩ := hi.advance c hself hothers hc i
        rw [hframe i hrest, Function.update_of_ne hne]

end PerfectHash
