import PerfectHash.Failure

set_option autoImplicit false

/-! # Checked access to arrays

The flat layouts of the library are arrays addressed by computed indices. Every access goes
through one of the operations below, and an index that is out of range is a `Fault`, never a
default value.
-/

namespace PerfectHash

variable {α : Type}

def fetch (a : Array α) (i : Nat) : Outcome α :=
  if h : i < a.size then .ok a[i] else .error (.fault (.outOfBounds i a.size))

def store (a : Array α) (i : Nat) (v : α) : Outcome (Array α) :=
  if h : i < a.size then .ok (a.set i v h) else .error (.fault (.outOfBounds i a.size))

/-- The values of the cells `lo, …, hi - 1`. -/
def slice (a : Array α) (lo hi : Nat) : Outcome (List α) :=
  if lo ≤ hi ∧ hi ≤ a.size then .ok (a.extract lo hi).toList
  else .error (.fault (.outOfBounds hi a.size))

def increment (a : Array Nat) (i : Nat) : Outcome (Array Nat) := do
  let count ← fetch a i
  store a i (count + 1)

theorem fetch_of_lt (a : Array α) (i : Nat) (h : i < a.size) : fetch a i = .ok a[i] := by
  simp [fetch, h]

theorem store_of_lt (a : Array α) (i : Nat) (v : α) (h : i < a.size) :
    store a i v = .ok (a.set i v h) := by
  simp [store, h]

theorem fetch_eq_ok_iff (a : Array α) (i : Nat) (v : α) : fetch a i = .ok v ↔ a[i]? = some v := by
  by_cases h : i < a.size <;> simp [fetch, h]

end PerfectHash
