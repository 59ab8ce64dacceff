import PerfectHash.Salt.Fit
import PerfectHash.Table.Entry

set_option autoImplicit false

/-! # Greedy placement on plain lists

The rule by which buckets are placed, without any of the data structures with which it is
carried out. Keys are grouped by home with a filter; the groups are visited from the largest to
the smallest, ties by ascending bucket; a group of one key claims the least unclaimed slot, and
a larger group the slots under the least salt that fits. If there is no such salt the run ends
and names the bucket.

This is a description, not a program: the least salt is found by running through all of them.
-/

namespace PerfectHash.Greedy

variable (H : HashFamily)

def group (keys : List Key) (b : Nat) : List Key :=
  keys.filter fun key => H.home keys.length key = b

/-- The buckets that are not empty, by descending size and then by ascending index. -/
def visits (keys : List Key) : List Nat :=
  ((List.range keys.length).filter fun b => group H keys b ≠ []).mergeSort
    fun b c => (group H keys c).length ≤ (group H keys b).length

def leastFree (n : Nat) (claimed : List Nat) : Option Nat :=
  (List.range n).find? fun slot => slot ∉ claimed

/-- The least of the salts `1, …, bound` that fits the keys. -/
def leastFit (n : Nat) (claimed : List Nat) (bound : Salt) (keys : List Key) : Option Salt :=
  ((List.range bound.toNat).map fun i => UInt64.ofNat (i + 1)).find?
    fun salt => H.Fits n (· ∈ claimed) keys salt

/-- The slots claimed by the groups visited so far, and the entries of all buckets. -/
structure Board where
  claimed : List Nat
  entries : List Entry
deriving DecidableEq, Repr

def Board.clear (n : Nat) : Board := ⟨[], List.replicate n .unset⟩

/-- Visits bucket `b`; a bucket that cannot be placed is the error. -/
def visit (bound : Salt) (keys : List Key) (board : Board) (b : Nat) : Except Nat Board :=
  match group H keys b with
  | [] => .ok board
  | [_] =>
      match leastFree keys.length board.claimed with
      | none => .error b
      | some slot => .ok ⟨slot :: board.claimed, board.entries.set b (.direct slot)⟩
  | ks =>
      match leastFit H keys.length board.claimed bound ks with
      | none => .error b
      | some salt =>
          .ok ⟨H.slots keys.length salt ks ++ board.claimed,
            board.entries.set b (.displacement salt)⟩

def run (bound : Salt) (keys : List Key) (order : List Nat) : Except Nat Board :=
  order.foldlM (visit H bound keys) (.clear keys.length)

/-- The entries for the keys, or the bucket that cannot be placed. -/
def entries (bound : Salt) (keys : List Key) : Except Nat (List Entry) :=
  (run H bound keys (visits H keys)).map Board.entries

end PerfectHash.Greedy
