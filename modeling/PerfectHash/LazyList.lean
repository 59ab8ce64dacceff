import PerfectHash.Failure

set_option autoImplicit false

/-! # Lists that are computed on demand

A range of words has far too many parts to be listed in advance, but a search in them mostly ends
early. A `LazyList` holds its first member and the computation of the others, which is run only
when the search goes on. What the search finds can be told on the plain list `toList`.
-/

namespace PerfectHash

/-- A finite list whose tail is computed when it is asked for. -/
inductive LazyList (α : Type) where
  | nil
  | cons (head : α) (tail : Unit → LazyList α)

namespace LazyList

variable {α β : Type}

def toList : LazyList α → List α
  | nil => []
  | cons head tail => head :: (tail ()).toList

/-- The result of `f` at the first member that has one. Members behind it are not computed. -/
def findSomeM? (f : α → Outcome (Option β)) : LazyList α → Outcome (Option β)
  | nil => .ok none
  | cons head tail => do
      match ← f head with
      | some found => return some found
      | none => (tail ()).findSomeM? f

theorem findSomeM?_toList (f : α → Outcome (Option β)) (list : LazyList α) :
    list.toList.findSomeM? f = list.findSomeM? f := by
  induction list with
  | nil => rfl
  | cons head tail ih =>
      rw [toList, List.findSomeM?_cons, findSomeM?]
      congr 1
      funext found
      cases found with
      | some _ => rfl
      | none => exact ih ()

end LazyList

end PerfectHash
