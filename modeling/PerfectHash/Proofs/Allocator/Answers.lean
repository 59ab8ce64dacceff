import PerfectHash.Allocator.Command
import PerfectHash.Hash.Families
import PerfectHash.Proofs.Allocator.Represents
import PerfectHash.Proofs.Session

set_option autoImplicit false

/-! # Searches do not depend on earlier searches

Commands on an allocator can come in any order: slots are marked, taken and placed, and keys are
searched for in between. The searches share one array of stamps that is never cleared between
them, and attempts that stop early leave their stamps behind. Nevertheless each search finds the
least salt that fits beside the slots handed out so far (`least_fit_of_session`), and no slot is
handed out twice.

A slot is marked only if it has a bit and was not handed out before. The keys of a search are
arbitrary: they may repeat, and there may be none. Only an allocator without slots is not
asked to find room for a key.
-/

namespace PerfectHash.Allocator

/-- The commands given so far with their answers, the last one in front. -/
abbrev History := List (Command × Outcome Reply)

def handedOutBy : Command × Outcome Reply → List Nat
  | (.mark slot, .ok _) => [slot]
  | (.take, .ok (.taken slot)) => slot.toList
  | (.place _, .ok (.found fit)) => fit.elim [] Fit.slots
  | _ => []

def History.handedOut (history : History) : List Nat := history.flatMap handedOutBy

/-- The command marks a slot only if it is one of `n` slots, up to a whole word, that was not
handed out, and looks for room for a key only if there are slots. -/
def Command.Allowed (n : Nat) (handedOut : List Nat) : Command → Prop
  | .mark slot => slot / 64 < (n + 63) / 64 ∧ slot ∉ handedOut
  | .take => True
  | .find keys => keys ≠ [] → 0 < n
  | .place keys => keys ≠ [] → 0 < n

instance (n : Nat) (handedOut : List Nat) : DecidablePred (Command.Allowed n handedOut)
  | .mark slot => inferInstanceAs (Decidable (slot / 64 < (n + 63) / 64 ∧ slot ∉ handedOut))
  | .take => inferInstanceAs (Decidable True)
  | .find keys => inferInstanceAs (Decidable (keys ≠ [] → 0 < n))
  | .place keys => inferInstanceAs (Decidable (keys ≠ [] → 0 < n))

def Permits (n : Nat) (history : History) (command : Command) : Prop :=
  command.Allowed n history.handedOut

instance (n : Nat) (history : History) : DecidablePred (Permits n history) :=
  fun command => inferInstanceAs (Decidable (command.Allowed n _))

/-! ## One command -/

section Step

variable {H : HashFamily} {n : Nat} {bound : Salt} {allocator : Allocator} {handedOut : List Nat}
  (h : allocator.Represents n bound handedOut)
include h

theorem Represents.perform_mark (slot : Nat) (hbit : slot / 64 < (n + 63) / 64)
    (hfree : slot ∉ handedOut) :
    ∃ after, allocator.perform H (.mark slot) = (.ok .done, after) ∧
      after.Represents n bound (slot :: handedOut) := by
  obtain ⟨finder, used⟩ := allocator
  obtain ⟨hready, hlen, hused⟩ := h
  simp only at hready hlen hused
  have hacc : used.Accessible slot := (hused.accessible_iff slot).mpr (by rwa [hlen])
  refine ⟨⟨finder, used.add slot⟩, ?_, hready, hlen, hused.add slot hacc hfree⟩
  rw [perform, SlotSet.mark_of_accessible used slot hacc]

theorem Represents.perform_take :
    ∃ after, allocator.perform H .take = (.ok (.taken (Greedy.leastFree n handedOut)), after) ∧
      after.Represents n bound ((Greedy.leastFree n handedOut).toList ++ handedOut) := by
  obtain ⟨after, htake, hafter⟩ := h.take
  exact ⟨after, by rw [perform, htake], hafter⟩

theorem Represents.perform_find (keys : List Key) (hn : keys ≠ [] → 0 < n) :
    ∃ after, allocator.perform H (.find keys) =
        (.ok (.found (Greedy.bestFit H n handedOut bound keys)), after) ∧
      after.used = allocator.used ∧ after.Represents n bound handedOut := by
  obtain ⟨after, hfind, hafter⟩ :=
    h.find (H := H) keys fun key hkey => hn (List.ne_nil_of_mem hkey)
  exact ⟨after, by rw [perform, hfind], hafter⟩

theorem Represents.perform_place (keys : List Key) (hn : keys ≠ [] → 0 < n) :
    ∃ after, allocator.perform H (.place keys) =
        (.ok (.found (Greedy.bestFit H n handedOut bound keys)), after) ∧
      after.Represents n bound
        ((Greedy.bestFit H n handedOut bound keys).elim [] Fit.slots ++ handedOut) := by
  obtain ⟨after, hplace, hafter⟩ :=
    h.place (H := H) keys fun key hkey => hn (List.ne_nil_of_mem hkey)
  exact ⟨after, by rw [perform, hplace], hafter⟩

/-- An allowed command hands out its slots besides those handed out before. -/
theorem Represents.perform (command : Command) (hallowed : command.Allowed n handedOut) :
    (allocator.perform H command).2.Represents n bound
      (handedOutBy (command, (allocator.perform H command).1) ++ handedOut) := by
  cases command with
  | mark slot =>
      obtain ⟨after, hmark, hafter⟩ := h.perform_mark (H := H) slot hallowed.1 hallowed.2
      rw [hmark]
      exact hafter
  | take =>
      obtain ⟨after, htake, hafter⟩ := h.perform_take (H := H)
      rw [htake]
      exact hafter
  | find keys =>
      obtain ⟨after, hfind, -, hafter⟩ := h.perform_find (H := H) keys hallowed
      rw [hfind]
      exact hafter
  | place keys =>
      obtain ⟨after, hplace, hafter⟩ := h.perform_place (H := H) keys hallowed
      rw [hplace]
      exact hafter

end Step

/-! ## Sessions -/

/-- At the end of a session the slots of its history were handed out. -/
theorem represents_of_session {H : HashFamily} {n : Nat} {bound : Salt} {width : UInt64}
    {history : History} {allocator : Allocator}
    (h : Session (perform H) (Permits n) (start n bound width) history allocator) :
    allocator.Represents n bound history.handedOut :=
  h.invariant (fun (history : History) allocator => allocator.Represents n bound history.handedOut)
    (represents_start n bound width)
    fun _ _ command hrepresents hallowed => hrepresents.perform command hallowed

/-- Whatever was searched for and handed out before, a search finds the least salt that fits
beside the used slots, and it finds one exactly if there is one. Only a placement uses its slots,
and no slot is handed out twice. -/
theorem least_fit_of_session (H : HashFamily) (n : Nat) (bound : Salt) (width : UInt64)
    (history : History) (allocator : Allocator)
    (h : Session (perform H) (Permits n) (start n bound width) history allocator) :
    history.handedOut.Nodup ∧
    (∀ slot, slot ∈ allocator.used ↔ slot ∈ history.handedOut) ∧
    (∀ keys : List Key, (keys ≠ [] → 0 < n) → ∃ fit searched placed,
      (∀ found, fit = some found ↔
        H.IsLeastFit n (· ∈ allocator.used) keys bound found.salt ∧
          found.slots = H.slots n found.salt keys) ∧
      (fit = none ↔
        ∀ salt, 1 ≤ salt → salt ≤ bound → ¬ H.Fits n (· ∈ allocator.used) keys salt) ∧
      allocator.perform H (.find keys) = (.ok (.found fit), searched) ∧
      searched.used = allocator.used ∧
      allocator.perform H (.place keys) = (.ok (.found fit), placed) ∧
      ∀ slot, slot ∈ placed.used ↔ slot ∈ fit.elim [] Fit.slots ∨ slot ∈ allocator.used) ∧
    ∃ taken rest, allocator.perform H .take = (.ok (.taken taken), rest) ∧
      (∀ slot, taken = some slot ↔
        slot < n ∧ slot ∉ allocator.used ∧ ∀ lower < slot, lower ∈ allocator.used) ∧
      (taken = none ↔ ∀ slot < n, slot ∈ allocator.used) ∧
      ∀ slot, slot ∈ rest.used ↔ taken = some slot ∨ slot ∈ allocator.used := by
  -- The used slots are those of the list, so the answers can be told on the list.
  have hrep := represents_of_session h
  have hmem := hrep.used.mem_iff
  refine ⟨hrep.used.nodup, hmem, fun keys hn => ?_, ?_⟩
  · obtain ⟨searched, hfind, hsame, -⟩ := hrep.perform_find (H := H) keys hn
    obtain ⟨placed, hplace, hplaced⟩ := hrep.perform_place (H := H) keys hn
    simp only [hmem]
    refine ⟨_, searched, placed, Greedy.bestFit_eq_some_iff _ _ _, Greedy.bestFit_eq_none_iff _ _ _,
      hfind, hsame, hplace, fun slot => ?_⟩
    rw [hplaced.used.mem_iff, List.mem_append]
  · obtain ⟨rest, htake, hrest⟩ := hrep.perform_take (H := H)
    simp only [hmem]
    refine ⟨_, rest, htake, Greedy.leastFree_eq_some_iff _ _, Greedy.leastFree_eq_none_iff _ _,
      fun slot => ?_⟩
    rw [hrest.used.mem_iff, List.mem_append, Option.mem_toList]

open HashFamily.Arithmetic in
/-- Slot `4` of five slots was marked. Then a search and a placement gave the keys `3` and `8` the
slots `0` and `1` under salt `2`. There is no room for them a second time, but the keys `4` and `6`
fit on the last two slots. -/
theorem least_fit_of_session_five :
    ∃ (history : History) (allocator : Allocator),
      Session (perform halving) (Permits 5) (start 5 16 1) history allocator ∧
      history.handedOut = [0, 1, 4] ∧ history.handedOut.Nodup ∧
      (∃ after, allocator.perform halving (.find [3, 8]) = (.ok (.found none), after)) ∧
      (∃ after, allocator.perform halving (.find [4, 6]) =
        (.ok (.found (some ⟨2, [3, 2]⟩)), after) ∧ after.used = allocator.used) ∧
      ∃ after, allocator.perform halving .take = (.ok (.taken (some 2)), after) := by
  obtain ⟨history, allocator, hsession, hhanded⟩ : ∃ (history : History) (allocator : Allocator),
      Session (perform halving) (Permits 5) (start 5 16 1) history allocator ∧
        history.handedOut = [0, 1, 4] :=
    ⟨_, _, ((Session.start.step (.mark 4) (by decide)).step (.find [3, 8]) (by decide)).step
      (.place [3, 8]) (by decide), by decide⟩
  obtain ⟨hnodup, hmem, hfind, taken, rest, htake, hsome, -⟩ :=
    least_fit_of_session halving 5 16 1 history allocator hsession
  -- On the list `[0, 1, 4]` the least fit and the least free slot can be computed.
  simp only [hhanded] at hmem
  simp only [hmem] at hfind hsome
  obtain ⟨_, _, _, -, hnone, hfull, -⟩ := hfind [3, 8] (by decide)
  obtain ⟨fit, _, _, hfit, -, hroom, hsame, -⟩ := hfind [4, 6] (by decide)
  rw [hnone.mpr ((Greedy.leastFit_eq_none_iff _ _ _).mp (by decide))] at hfull
  rw [(hfit ⟨2, [3, 2]⟩).mpr
    ⟨(Greedy.leastFit_eq_some_iff _ _ _ _).mp (by decide), by decide⟩] at hroom
  rw [(hsome 2).mpr (by decide)] at htake
  exact ⟨history, allocator, hsession, hhanded, hnodup, ⟨_, hfull⟩, ⟨_, hroom, hsame⟩, _, htake⟩

end PerfectHash.Allocator
