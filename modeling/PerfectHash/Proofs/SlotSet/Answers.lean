import Mathlib.Data.Nat.Init
import PerfectHash.Proofs.Session
import PerfectHash.Proofs.SlotSet.Represents
import PerfectHash.SlotSet.Command

set_option autoImplicit false

/-! # A set of slots answers like a plain set

Commands on a set of slots can come in any order: slots are marked behind the cursor, at it and
ahead of it, also behind the last slot, and taken in between. The only condition is that a slot is
not marked twice. The slots that were marked or taken so far can be read off the commands and
their answers (`History.claimed`), and the set represents exactly these (`Session.represents`).

So every answer is the one that the plain set of these slots gives (`answers_of_session`).
-/

namespace PerfectHash.SlotSet

/-- The commands given so far with their answers, the last one in front. -/
abbrev History := List (Command × Outcome Reply)

/-- The slots that a command has marked or taken among `len` slots. A range is marked up to the
first slot that has no bit. -/
def claimedBy (len : Nat) : Command × Outcome Reply → List Nat
  | (.mark slot, .ok _) => [slot]
  | (.markRange lo hi, _) =>
      (List.range' lo (hi - lo)).filter fun slot => slot / 64 < (len + 63) / 64
  | (.take, .ok (.taken slot)) => slot.toList
  | (.takeMany _, .ok (.takenMany slots)) => slots.filterMap id
  | _ => []

def History.claimed (len : Nat) (history : History) : List Nat := history.flatMap (claimedBy len)

def Command.Fresh (claimed : List Nat) : Command → Prop
  | .mark slot => slot ∉ claimed
  | .markRange lo hi => ∀ slot, lo ≤ slot → slot < hi → slot ∉ claimed
  | _ => True

instance (claimed : List Nat) : DecidablePred (Command.Fresh claimed)
  | .mark slot => inferInstanceAs (Decidable (slot ∉ claimed))
  | .markRange lo hi =>
      inferInstanceAs (Decidable (∀ slot, lo ≤ slot → slot < hi → slot ∉ claimed))
  | .isUsed _ | .allFree _ | .take | .takeMany _ => inferInstanceAs (Decidable True)

def Permits (len : Nat) (history : History) (command : Command) : Prop :=
  command.Fresh (history.claimed len)

instance (len : Nat) (history : History) : DecidablePred (Permits len history) :=
  fun command => inferInstanceAs (Decidable (command.Fresh _))

/-! ## Marks -/

theorem perform_mark_of_accessible (set : SlotSet) (slot : Nat) (h : set.Accessible slot) :
    set.perform (.mark slot) = (.ok .done, set.add slot) := by
  rw [perform, mark_of_accessible set slot h]

theorem perform_mark_of_not_accessible (set : SlotSet) (slot : Nat) (h : ¬ set.Accessible slot) :
    set.perform (.mark slot) = (.error (set.outside slot), set) := by
  rw [perform, mark_of_not_accessible set slot h]

/-- Marking consecutive slots claims those that have a bit. -/
theorem Represents.markFrom {set : SlotSet} {claimed : List Nat} (h : set.Represents claimed)
    (slot count : Nat) (hfree : ∀ other, slot ≤ other → other < slot + count → other ∉ claimed) :
    (set.markFrom slot count).2.len = set.len ∧
      (set.markFrom slot count).2.Represents
        ((List.range' slot count).filter (fun other => other / 64 < (set.len + 63) / 64) ++
          claimed) := by
  induction count generalizing set claimed slot with
  | zero => exact ⟨rfl, h⟩
  | succ count ih =>
      rw [List.range'_succ]
      by_cases hacc : set.Accessible slot
      · have hnew : slot ∉ claimed := hfree slot (by omega) (by omega)
        obtain ⟨hlen, hrest⟩ := ih (h.add slot hacc hnew) (slot + 1) fun other hlo hhi => by
          rw [List.mem_cons, not_or]
          exact ⟨by omega, hfree other (by omega) (by omega)⟩
        have hbit := (h.accessible_iff slot).mp hacc
        simp only [SlotSet.markFrom, mark_of_accessible set slot hacc]
        refine ⟨hlen, ?_⟩
        rw [List.filter_cons_of_pos (by simpa using hbit)]
        exact hrest.perm List.perm_middle
      · -- No slot of the range has a bit, as those behind this one are even farther out.
        have hnone : (slot :: List.range' (slot + 1) count).filter
            (fun other => other / 64 < (set.len + 63) / 64) = [] := by
          rw [h.accessible_iff] at hacc
          rw [List.filter_eq_nil_iff]
          intro other hother
          have hle : slot ≤ other := by
            rcases List.mem_cons.mp hother with rfl | hother
            · omega
            · have := (List.mem_range'_1.mp hother).1
              omega
          rw [decide_eq_true_eq]
          omega
        simp only [SlotSet.markFrom, mark_of_not_accessible set slot hacc, hnone, List.nil_append]
        exact ⟨trivial, h⟩

/-! ## Takes -/

/-- Taking several slots claims those that were handed out. -/
theorem Represents.takeEach {set : SlotSet} {claimed : List Nat} (h : set.Represents claimed)
    (slots : Array (Option Nat)) (count : Nat) :
    ∃ more, (set.takeEach slots count).1.toList = slots.toList ++ more ∧
      (set.takeEach slots count).2.len = set.len ∧
      (set.takeEach slots count).2.Represents (more.filterMap id ++ claimed) := by
  induction count generalizing set claimed slots with
  | zero => exact ⟨[], by simp [SlotSet.takeEach], rfl, h⟩
  | succ count ih =>
      obtain ⟨taken, htake, hlen, htaken⟩ := h.take
      -- The first take has claimed its slot before the others are taken.
      obtain ⟨more, hslots, hlen', hrest⟩ :=
        ih htaken (slots.push (Greedy.leastFree set.len claimed))
      simp only [SlotSet.takeEach, htake]
      refine ⟨Greedy.leastFree set.len claimed :: more, ?_, hlen'.trans hlen, hrest.perm ?_⟩
      · rw [hslots, Array.toList_push, List.append_assoc, List.singleton_append]
      · cases Greedy.leastFree set.len claimed with
        | none => simp
        | some slot => simp

/-! ## Questions -/

section Questions

variable {set : SlotSet} {claimed : List Nat} (h : set.Shows claimed)
include h

/-- The question fails at a slot that has no bit, unless a used slot comes before it. -/
theorem Shows.exists_allFree_eq_error_iff (slots : List Nat) :
    (∃ failure, set.allFree slots = .error failure) ↔
      ∃ front slot back, slots = front ++ slot :: back ∧ ¬ set.Accessible slot ∧
        ∀ other ∈ front, other ∉ claimed := by
  induction slots with
  | nil => simp [SlotSet.allFree]
  | cons slot slots ih =>
      simp only [SlotSet.allFree, bind, Except.bind]
      rw [h.isUsed_eq slot]
      by_cases hacc : set.Accessible slot
      · by_cases hslot : slot ∈ claimed
        -- A used slot ends the question with an answer, so no split can have it in front.
        · simp only [hacc, hslot, if_true, decide_true]
          constructor
          · rintro ⟨failure, hfailure⟩
            cases hfailure
          · rintro ⟨front, other, back, hsplit, hother, hfront⟩
            cases front with
            | nil =>
                cases hsplit
                exact absurd hacc hother
            | cons first front =>
                cases hsplit
                exact absurd hslot (hfront slot List.mem_cons_self)
        -- A free slot is passed over, and joins the front of the split of the others.
        · simp only [hacc, hslot, if_true, decide_false, Bool.false_eq_true, if_false]
          refine ih.trans ?_
          constructor
          · rintro ⟨front, other, back, rfl, hother, hfront⟩
            exact ⟨slot :: front, other, back, rfl, hother,
              List.forall_mem_cons.mpr ⟨hslot, hfront⟩⟩
          · rintro ⟨front, other, back, hsplit, hother, hfront⟩
            cases front with
            | nil =>
                cases hsplit
                exact absurd hacc hother
            | cons first front =>
                cases hsplit
                exact ⟨front, other, back, rfl, hother, (List.forall_mem_cons.mp hfront).2⟩
      · simp only [hacc, if_false]
        exact ⟨fun _ => ⟨[], slot, slots, rfl, hacc, by simp⟩, fun _ => ⟨_, rfl⟩⟩

theorem Shows.allFree_eq_ok (slots : List Nat) (answer : Bool)
    (hanswer : set.allFree slots = .ok answer) :
    answer = true ↔ ∀ slot ∈ slots, slot ∉ claimed := by
  induction slots with
  | nil =>
      cases hanswer
      simp
  | cons slot slots ih =>
      simp only [SlotSet.allFree, bind, Except.bind] at hanswer
      rw [h.isUsed_eq slot] at hanswer
      by_cases hacc : set.Accessible slot
      · by_cases hslot : slot ∈ claimed
        · simp only [hacc, hslot, if_true, decide_true] at hanswer
          cases hanswer
          simp [hslot]
        · simp only [hacc, hslot, if_true, decide_false, Bool.false_eq_true, if_false] at hanswer
          rw [ih hanswer, List.forall_mem_cons]
          exact (and_iff_right hslot).symm
      · simp only [hacc, if_false] at hanswer
        cases hanswer

end Questions

/-! ## Sessions -/

/-- Every command leaves a set that represents the slots claimed before and by the command. -/
theorem Represents.perform {set : SlotSet} {claimed : List Nat} (h : set.Represents claimed)
    (command : Command) (hfresh : command.Fresh claimed) :
    (set.perform command).2.len = set.len ∧
      (set.perform command).2.Represents
        (claimedBy set.len (command, (set.perform command).1) ++ claimed) := by
  cases command with
  | mark slot =>
      by_cases hacc : set.Accessible slot
      · rw [perform_mark_of_accessible set slot hacc]
        exact ⟨rfl, h.add slot hacc hfresh⟩
      · rw [perform_mark_of_not_accessible set slot hacc]
        exact ⟨rfl, h⟩
  | markRange lo hi => exact h.markFrom lo (hi - lo) fun slot hlo hhi => hfresh slot hlo (by omega)
  | isUsed slot =>
      simp only [SlotSet.perform]
      cases set.isUsed slot <;> exact ⟨trivial, h⟩
  | allFree slots =>
      simp only [SlotSet.perform]
      cases set.allFree slots <;> exact ⟨trivial, h⟩
  | take =>
      obtain ⟨taken, htake, hlen, htaken⟩ := h.take
      simp only [SlotSet.perform, htake]
      exact ⟨hlen, htaken⟩
  | takeMany count =>
      obtain ⟨more, hslots, hlen, hmore⟩ := h.takeEach #[] count
      rw [List.nil_append] at hslots
      simp only [SlotSet.perform, claimedBy, hslots]
      exact ⟨hlen, hmore⟩

/-- At the end of a session the set represents the slots that were marked or taken. -/
theorem represents_of_session {len : Nat} {history : History} {set : SlotSet}
    (h : Session perform (Permits len) (free len) history set) :
    set.len = len ∧ set.Represents (history.claimed len) := by
  refine h.invariant
    (fun (history : History) set => set.len = len ∧ set.Represents (history.claimed len))
    ⟨rfl, represents_free len⟩ ?_
  rintro history set command ⟨hlen, hset⟩ hfresh
  obtain ⟨hlen', hset'⟩ := hset.perform command hfresh
  rw [hlen] at hlen' hset'
  exact ⟨hlen', hset'⟩

/-- Whatever was marked and taken before, a set of slots answers as the plain set of the slots
that were marked or taken. -/
theorem answers_of_session (len : Nat) (history : History) (set : SlotSet)
    (h : Session perform (Permits len) (free len) history set) :
    (∀ slot, set.Accessible slot ↔ slot / 64 < (len + 63) / 64) ∧
    ((∀ slot, slot ∈ set ↔ slot ∈ history.claimed len) ∧
      (history.claimed len).Nodup ∧ set.used = (history.claimed len).length) ∧
    (∀ slot, set.perform (.isUsed slot) =
      if set.Accessible slot then (.ok (.truth (decide (slot ∈ history.claimed len))), set)
      else (.error (set.outside slot), set)) ∧
    (∀ slot,
      (set.Accessible slot → slot ∉ history.claimed len → ∃ marked,
        set.perform (.mark slot) = (.ok .done, marked) ∧ marked.used = set.used + 1 ∧
          ∀ other, other ∈ marked ↔ other = slot ∨ other ∈ set) ∧
      (¬ set.Accessible slot → set.perform (.mark slot) = (.error (set.outside slot), set))) ∧
    (∀ slots, (set.perform (.allFree slots)).2 = set ∧
      (∀ answer, (set.perform (.allFree slots)).1 = .ok answer →
        answer = .truth (decide (∀ slot ∈ slots, slot ∉ history.claimed len))) ∧
      ((∃ failure, (set.perform (.allFree slots)).1 = .error failure) ↔
        ∃ front slot back, slots = front ++ slot :: back ∧ ¬ set.Accessible slot ∧
          ∀ other ∈ front, other ∉ history.claimed len)) ∧
    ∃ taken rest, set.perform .take = (.ok (.taken taken), rest) ∧
      (∀ slot, taken = some slot ↔ slot < len ∧ slot ∉ history.claimed len ∧
        ∀ lower < slot, lower ∈ history.claimed len) ∧
      (taken = none ↔ ∀ slot < len, slot ∈ history.claimed len) ∧
      rest.used = set.used + taken.toList.length ∧
      ∀ slot, slot ∈ rest ↔ taken = some slot ∨ slot ∈ set := by
  obtain ⟨hlen, hset⟩ := represents_of_session h
  have hacc := hset.accessible_iff
  rw [hlen] at hacc
  -- What is left are the four kinds of commands: questions for one slot, marks, questions for
  -- several slots, and takes.
  refine ⟨hacc, ⟨hset.mem_iff, hset.nodup, hset.used_eq⟩, fun slot => ?_,
    fun slot => ⟨fun hslot hfree => ?_, perform_mark_of_not_accessible set slot⟩,
    fun slots => ⟨rfl, fun answer hanswer => ?_, ?_⟩, ?_⟩
  · show ((set.isUsed slot).map Reply.truth, set) = _
    rw [hset.isUsed_eq slot]
    split <;> rfl
  · exact ⟨set.add slot, perform_mark_of_accessible set slot hslot, rfl,
      fun other => mem_add set slot other hslot⟩
  · change (set.allFree slots).map Reply.truth = .ok answer at hanswer
    cases hfree : set.allFree slots with
    | error failure =>
        rw [hfree] at hanswer
        cases hanswer
    | ok free =>
        rw [hfree] at hanswer
        cases hanswer
        have htruth := hset.allFree_eq_ok slots free hfree
        rw [← decide_eq_true_iff (p := ∀ slot ∈ slots, slot ∉ history.claimed len),
          ← Bool.eq_iff_iff] at htruth
        rw [htruth]
  · rw [← hset.exists_allFree_eq_error_iff slots]
    show (∃ failure, (set.allFree slots).map Reply.truth = .error failure) ↔ _
    cases set.allFree slots <;> simp [Except.map]
  · obtain ⟨rest, htake, -, hrest⟩ := hset.take
    rw [hlen] at htake hrest
    refine ⟨_, rest, by simp only [SlotSet.perform, htake], Greedy.leastFree_eq_some_iff _ _,
      Greedy.leastFree_eq_none_iff _ _, ?_, fun slot => ?_⟩
    · rw [hrest.used_eq, hset.used_eq, List.length_append, Nat.add_comm]
    · rw [hrest.mem_iff, hset.mem_iff, List.mem_append, Option.mem_toList]

/-- Among three slots, slot `5` has a bit and can be marked, but slot `64` has none. Then slot `1`
is the lowest free one. -/
theorem answers_of_session_three :
    ∃ (history : History) (set : SlotSet), Session perform (Permits 3) (free 3) history set ∧
      history.claimed 3 = [0, 5] ∧ set.used = 2 ∧
      set.perform (.isUsed 5) = (.ok (.truth true), set) ∧
      set.perform (.mark 64) = (.error (.fault (.outOfBounds 1 1)), set) ∧
      (∃ failure, (set.perform (.allFree [1, 64, 0])).1 = .error failure) ∧
      (set.perform .take).1 = .ok (.taken (some 1)) := by
  have hsession : Session perform (Permits 3) (free 3) _ _ :=
    ((Session.start.step (.mark 5) (by decide)).step (.mark 64) (by decide)).step (.mark 0)
      (by decide)
  obtain ⟨-, ⟨-, -, hused⟩, hisUsed, hmark, hallFree, taken, rest, htake, hsome, -⟩ :=
    answers_of_session 3 _ _ hsession
  refine ⟨_, _, hsession, by decide, hused, hisUsed 5, (hmark 64).2 (by decide),
    (hallFree [1, 64, 0]).2.2.mpr ⟨[1], 64, [0], rfl, by decide, by decide⟩, ?_⟩
  rw [htake, (hsome 1).mpr (by decide)]

end PerfectHash.SlotSet
