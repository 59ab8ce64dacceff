import PerfectHash.Placement.Basic
import PerfectHash.Proofs.Allocator.Represents

set_option autoImplicit false

/-! # What a run of placements does

A run is determined by its history: the list of the buckets visited so far with the entries that
they got. The entry of a bucket is a choice (`Greedy.choose`) that depends only on its keys and
on the slots claimed before, and everything else that a run keeps is read off the history: the
slots, the entries, the cost and the log.

The main statement `ofBuckets_eq` says that the program, with its arrays, its bit set, its
stamps and its windows, computes exactly this. It holds for every order of buckets, also with
repeated or missing ones. What is proved about placements is proved about histories.
-/

namespace PerfectHash

namespace Greedy

variable (H : HashFamily)

/-- The slots that an entry gives to the keys of its bucket among `n` slots. -/
def slotsOf (n : Nat) (keys : List Key) : Entry → List Nat
  | .unset => []
  | .direct slot => [slot]
  | .displacement salt => H.slots n salt keys

/-- The entry for a bucket with the given keys when some slots are claimed, if there is one. -/
def choose (n : Nat) (claimed : List Nat) (bound : Salt) : List Key → Option Entry
  | [] => some .unset
  | [_] => (leastFree n claimed).map .direct
  | keys => (leastFit H n claimed bound keys).map .displacement

/-- The buckets visited so far with their entries, the last one in front. -/
abbrev History := List (Nat × Entry)

namespace History

def claimed (keys : List Key) : History → List Nat
  | [] => []
  | (b, entry) :: history =>
      slotsOf H keys.length (group H keys b) entry ++ claimed keys history

/-- The entries of all `n` buckets; an empty bucket is left alone. -/
def entries (n : Nat) : History → List Entry
  | [] => List.replicate n .unset
  | (_, .unset) :: history => entries n history
  | (b, entry) :: history => (entries n history).set b entry

/-- What the placements took, when `count` of `n` buckets are to be placed. -/
def cost (n count : Nat) : History → PlacementCost
  | [] => { empty := (UInt64.ofNat n - UInt64.ofNat count).toNat }
  | (_, .unset) :: history => cost n count history
  | (_, .direct _) :: history =>
      let before := cost n count history
      { before with singleKey := before.singleKey + 1 }
  | (_, .displacement salt) :: history =>
      let before := cost n count history
      { before with
        multiKey := before.multiKey + 1
        attempts := before.attempts + salt
        maxSalt := max before.maxSalt salt }

def log (keys : List Key) : History → List Event
  | [] => []
  | (b, .displacement salt) :: history =>
      log keys history ++ [.placed b (group H keys b).length salt]
  | _ :: history => log keys history

def placement (keys : List Key) (count : Nat) (history : History) : Placement where
  entries := (entries keys.length history).toArray
  cost := cost keys.length count history
  log := log H keys history

/-- The end of a run that cannot place bucket `b`. -/
def halt (bound : Salt) (keys : List Key) : Nat × History → Halt
  | (b, history) =>
      let size := (group H keys b).length
      if size = 1 then ⟨.noFittingSalt b 1 0, log H keys history⟩
      else
        ⟨.noFittingSalt b size bound, log H keys history ++
          [.exhausted b size bound (claimed H keys history).length keys.length]⟩

/-- Visits bucket `b`; if it cannot be placed, the error is the bucket with the history so far. -/
def extend (bound : Salt) (keys : List Key) (history : History) (b : Nat) :
    Except (Nat × History) History :=
  match choose H keys.length (claimed H keys history) bound (group H keys b) with
  | some entry => .ok ((b, entry) :: history)
  | none => .error (b, history)

def ofOrder (bound : Salt) (keys : List Key) (order : List Nat) : Except (Nat × History) History :=
  order.foldlM (extend H bound keys) []

theorem length_entries (n : Nat) (history : History) : (entries n history).length = n := by
  induction history with
  | nil => simp [entries]
  | cons visit history ih =>
      rcases visit with ⟨b, entry⟩
      cases entry <;> simp [entries, ih]

/-- A run that ends names the bucket, its size and the salts that were tried for it. -/
theorem cause_halt (bound : Salt) (keys : List Key) (b : Nat) (history : History) :
    (halt H bound keys (b, history)).cause = .noFittingSalt b (group H keys b).length
      (if (group H keys b).length = 1 then 0 else bound) := by
  rw [halt]
  split
  · next hsize => rw [hsize]
  · rfl

end History

/-! ## Choices -/

theorem choose_nil (n : Nat) (claimed : List Nat) (bound : Salt) :
    choose H n claimed bound [] = some .unset := rfl

theorem choose_single (n : Nat) (claimed : List Nat) (bound : Salt) (key : Key) :
    choose H n claimed bound [key] = (leastFree n claimed).map .direct := rfl

theorem choose_multi (n : Nat) (claimed : List Nat) (bound : Salt) (first second : Key)
    (keys : List Key) :
    choose H n claimed bound (first :: second :: keys) =
      (leastFit H n claimed bound (first :: second :: keys)).map .displacement := rfl

end Greedy

/-! ## The program follows the history -/

theorem store_toArray {α : Type} (l : List α) (i : Nat) (v : α) (h : i < l.length) :
    store l.toArray i v = .ok (l.set i v).toArray := by
  rw [store_of_lt _ _ _ (by simpa using h)]
  simp

namespace Placement

open Greedy (History)

variable {H : HashFamily} {keys : List Key} {bound : Salt} {count : Nat}

structure Run.Reflects (run : Run) (H : HashFamily) (keys : List Key) (bound : Salt) (count : Nat)
    (history : History) : Prop where
  entries_eq : run.entries = (History.entries keys.length history).toArray
  ready : run.allocator.finder.Ready keys.length bound
  len_eq : run.allocator.used.len = keys.length
  used : run.allocator.used.Represents (History.claimed H keys history)
  cost_eq : run.cost = History.cost keys.length count history
  log_eq : run.log.toList = History.log H keys history

theorem reflects_start (H : HashFamily) (keys : List Key) (bound : Salt) (count : Nat)
    (width : UInt64) :
    (Run.start keys.length count bound width).Reflects H keys bound count [] where
  entries_eq := by simp [Run.start, History.entries]
  ready := SaltFinder.ready_start keys.length bound width
  len_eq := rfl
  used := SlotSet.represents_free keys.length
  cost_eq := rfl
  log_eq := rfl

/-- Two runs agree when both go on, with the given history, or both end in the same way. -/
abbrev FollowsHistory (H : HashFamily) (keys : List Key) (bound : Salt) (count : Nat) :
    Except Halt Run → Except (Nat × History) History → Prop :=
  Agrees (fun halt failed => halt = History.halt H bound keys failed)
    fun run history => run.Reflects H keys bound count history

section Step

variable {run : Run} {history : History} (h : run.Reflects H keys bound count history) (b : Nat)
  (hb : b < keys.length)
include h hb

omit hb in
theorem Run.Reflects.allocator :
    run.allocator.Represents keys.length bound (History.claimed H keys history) :=
  ⟨h.ready, h.len_eq, h.used⟩

theorem Run.Reflects.placeSingle (key : Key) (hgroup : Greedy.group H keys b = [key]) :
    FollowsHistory H keys bound count (Placement.placeSingle b run)
      (History.extend H bound keys history b) := by
  obtain ⟨after, htake, hafter⟩ := h.allocator.take
  obtain ⟨entries, allocator, cost, log⟩ := run
  obtain ⟨hentries, -, -, -, hcost, hlog⟩ := h
  simp only at hentries htake hcost hlog
  simp only [Placement.placeSingle]
  rw [htake, History.extend, hgroup, Greedy.choose_single]
  -- The slot that is taken is the least free one, which is what the history chooses.
  cases hslot : Greedy.leastFree keys.length (History.claimed H keys history) with
  | none =>
      refine .error ?_
      simp [History.halt, hgroup, hlog]
  | some slot =>
      rw [hslot] at hafter
      simp only [Option.map_some, hentries, bind, Except.bind]
      rw [store_toArray _ b _ (by rwa [History.length_entries])]
      refine .ok ⟨rfl, hafter.ready, hafter.len_eq, ?_, ?_, hlog⟩
      · simpa [History.claimed, Greedy.slotsOf] using hafter.used
      · simp [History.cost, hcost]

theorem Run.Reflects.placeMulti (first second : Key) (rest : List Key)
    (hgroup : Greedy.group H keys b = first :: second :: rest) :
    FollowsHistory H keys bound count
      (Placement.placeMulti H b (first :: second :: rest) run)
      (History.extend H bound keys history b) := by
  obtain ⟨after, hplace, hafter⟩ :=
    h.allocator.place (H := H) (first :: second :: rest) fun _ _ => by omega
  obtain ⟨entries, allocator, cost, log⟩ := run
  obtain ⟨hentries, -, -, -, hcost, hlog⟩ := h
  simp only at hentries hplace hcost hlog
  rw [Greedy.bestFit] at hplace hafter
  simp only [Placement.placeMulti, bind, Except.bind]
  rw [hplace, History.extend, hgroup, Greedy.choose_multi]
  cases hsalt : Greedy.leastFit H keys.length (History.claimed H keys history) bound
      (first :: second :: rest) with
  | none =>
      rw [hsalt] at hafter
      refine .error ?_
      have hsize : ¬ (first :: second :: rest).length = 1 := by simp
      have hused : after.used.used = (History.claimed H keys history).length := hafter.used.used_eq
      simp only [History.halt, hgroup, hsize, if_false, hafter.ready.bound_eq, hafter.ready.n_eq,
        hused, Array.toList_push, hlog]
  | some salt =>
      rw [hsalt] at hafter
      simp only [Option.map_some, orHalt, pure, Except.pure, Except.mapError, hentries]
      rw [store_toArray _ b _ (by rwa [History.length_entries])]
      refine .ok ⟨rfl, hafter.ready, hafter.len_eq, ?_, ?_, ?_⟩
      · rw [History.claimed, hgroup, Greedy.slotsOf]
        exact hafter.used
      · simp [History.cost, hcost]
      · simp [History.log, hlog, hgroup]

theorem Run.Reflects.placeBucket {B : BucketLayout} (hB : B.Groups H keys) :
    FollowsHistory H keys bound count (Placement.placeBucket H B run b)
      (History.extend H bound keys history b) := by
  unfold Placement.placeBucket
  rw [hB.bucket_eq b hb]
  simp only [orHalt, Except.mapError, bind, Except.bind]
  cases hgroup : Greedy.group H keys b with
  | nil =>
      unfold History.extend
      rw [hgroup, Greedy.choose_nil]
      refine .ok ⟨h.entries_eq, h.ready, h.len_eq, ?_, h.cost_eq, h.log_eq⟩
      rw [History.claimed, Greedy.slotsOf]
      exact h.used
  | cons first rest =>
      cases rest with
      | nil => exact h.placeSingle b hb first hgroup
      | cons second rest => exact h.placeMulti b hb first second rest hgroup

end Step

/-- A run over any order of buckets goes through the histories of its visits. -/
theorem foldlM_placeBucket {B : BucketLayout} (hB : B.Groups H keys) (order : List Nat)
    (horder : ∀ b ∈ order, b < keys.length) (bound : Salt) (width : UInt64) :
    FollowsHistory H keys bound order.length
      (order.foldlM (placeBucket H B) (Run.start B.count order.length bound width))
      (History.ofOrder H bound keys order) := by
  rw [hB.count_eq, History.ofOrder]
  refine foldlM_agrees _ (fun run history => Run.Reflects run H keys bound order.length history)
    _ _ order ?_ _ _ (reflects_start H keys bound order.length width)
  intro b hb run history h
  exact h.placeBucket b (horder b hb) hB

def ofRun (H : HashFamily) (bound : Salt) (keys : List Key) (count : Nat) :
    Except (Nat × History) History → Except Halt Placement
  | .ok history => .ok (History.placement H keys count history)
  | .error failed => .error (History.halt H bound keys failed)

/-- A placement is what the history of its run says. -/
theorem ofBuckets_eq {B : BucketLayout} (hB : B.Groups H keys) (order : List Nat)
    (horder : ∀ b ∈ order, b < keys.length) (bound : Salt) (width : UInt64) :
    ofBuckets H B order bound width =
      ofRun H bound keys order.length (History.ofOrder H bound keys order) := by
  have hagree := foldlM_placeBucket hB order horder bound width
  simp only [ofBuckets, bind, Except.bind]
  generalize order.foldlM (placeBucket H B) (Run.start B.count order.length bound width) = run,
    History.ofOrder H bound keys order = history at hagree
  cases hagree with
  | ok h =>
      simp only [h.entries_eq, h.cost_eq, h.log_eq]
      rfl
  | error h =>
      simp only [h]
      rfl

/-- A placement fails only for want of a slot or a salt. -/
theorem ofBuckets_cases {B : BucketLayout} (hB : B.Groups H keys) (order : List Nat)
    (horder : ∀ b ∈ order, b < keys.length) (bound : Salt) (width : UInt64) :
    (∃ placement, ofBuckets H B order bound width = .ok placement) ∨
      ∃ b size attempts log, ofBuckets H B order bound width =
        .error ⟨.noFittingSalt b size attempts, log⟩ := by
  rw [ofBuckets_eq hB order horder]
  cases History.ofOrder H bound keys order with
  | ok history => exact .inl ⟨_, rfl⟩
  | error failed =>
      rcases failed with ⟨b, history⟩
      refine .inr ⟨b, (Greedy.group H keys b).length,
        if (Greedy.group H keys b).length = 1 then 0 else bound,
        (History.halt H bound keys (b, history)).log, ?_⟩
      rw [← History.cause_halt H bound keys b history]
      rfl

end Placement

end PerfectHash
