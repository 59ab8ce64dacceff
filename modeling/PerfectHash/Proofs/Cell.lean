import Mathlib.Logic.Function.Basic
import PerfectHash.Cell

set_option autoImplicit false

/-! # Arrays as functions of their index

A program that addresses the cells of one array of fixed size computes on a function of the
index: `tabulate n f` is the array of the values `f 0, …, f (n - 1)`, a `fetch` applies `f`, and
a `store` is `Function.update`. The loops over the flat layouts are described in this form, so
that their invariants are equations between functions and no index has to be bounded twice.

The rest is about operations that may fail. A chain of two succeeds when both do
(`bind_eq_ok_iff`). `Agrees` relates the results of two runs, and `foldlM_agrees` carries a
relation between the states of two loops from the beginning to the end.
-/

namespace PerfectHash

/-! ## Tabulated arrays -/

section Tabulate

variable {α : Type}

def tabulate (n : Nat) (f : Nat → α) : Array α := Array.ofFn fun i : Fin n => f i

@[simp] theorem size_tabulate (n : Nat) (f : Nat → α) : (tabulate n f).size = n := by
  simp [tabulate]

theorem getElem_tabulate (n : Nat) (f : Nat → α) (i : Nat) (h : i < (tabulate n f).size) :
    (tabulate n f)[i] = f i := by
  simp [tabulate]

theorem tabulate_congr (n : Nat) (f g : Nat → α) (h : ∀ i, i < n → f i = g i) :
    tabulate n f = tabulate n g := by
  apply Array.ext
  · simp
  · intro i hi _
    rw [getElem_tabulate, getElem_tabulate]
    exact h i (by simpa using hi)

theorem replicate_eq_tabulate (n : Nat) (v : α) : Array.replicate n v = tabulate n fun _ => v := by
  apply Array.ext
  · simp
  · intro i _ _
    simp [getElem_tabulate]

theorem toList_tabulate (n : Nat) (f : Nat → α) : (tabulate n f).toList = (List.range n).map f := by
  apply List.ext_getElem
  · simp
  · intro i _ _
    simp [getElem_tabulate]

theorem fetch_tabulate (n : Nat) (f : Nat → α) (i : Nat) (h : i < n) :
    fetch (tabulate n f) i = .ok (f i) := by
  rw [fetch_of_lt _ _ (by simpa using h), getElem_tabulate]

theorem store_tabulate (n : Nat) (f : Nat → α) (i : Nat) (v : α) (h : i < n) :
    store (tabulate n f) i v = .ok (tabulate n (Function.update f i v)) := by
  rw [store_of_lt _ _ _ (by simpa using h)]
  congr 1
  apply Array.ext
  · simp
  · intro j _ _
    rw [Array.getElem_set, getElem_tabulate, getElem_tabulate]
    by_cases hj : i = j
    · subst hj
      simp
    · simp [hj, Function.update_of_ne (Ne.symm hj)]

theorem slice_tabulate (n : Nat) (f : Nat → α) (lo hi : Nat) (hle : lo ≤ hi) (hn : hi ≤ n) :
    slice (tabulate n f) lo hi = .ok ((List.range' lo (hi - lo)).map f) := by
  unfold slice
  rw [if_pos ⟨hle, by simpa using hn⟩]
  congr 1
  apply List.ext_getElem
  · simp
    omega
  · intro i _ _
    simp [getElem_tabulate]

theorem increment_tabulate (n : Nat) (f : Nat → Nat) (i : Nat) (h : i < n) :
    increment (tabulate n f) i = .ok (tabulate n (Function.update f i (f i + 1))) := by
  unfold increment
  rw [fetch_tabulate n f i h]
  exact store_tabulate n f i _ h

/-- Counting a list of indices adds to every cell how often it is listed. -/
theorem foldlM_increment_tabulate (n : Nat) (cells : List Nat) (f : Nat → Nat)
    (h : ∀ i ∈ cells, i < n) :
    cells.foldlM increment (tabulate n f) = .ok (tabulate n fun i => f i + cells.count i) := by
  induction cells generalizing f with
  | nil => rfl
  | cons i cells ih =>
      have hi : i < n := h i (by simp)
      rw [List.foldlM_cons, increment_tabulate n f i hi]
      refine (ih _ fun j hj => h j (by simp [hj])).trans ?_
      congr 2
      funext j
      by_cases hj : j = i
      · subst hj
        simp
        omega
      · simp [Function.update_of_ne hj, List.count_cons_of_ne (Ne.symm hj)]

end Tabulate

/-! ## Operations that may fail -/

theorem bind_eq_ok_iff {ε σ τ : Type} {x : Except ε σ} {f : σ → Except ε τ} {t : τ} :
    x >>= f = .ok t ↔ ∃ s, x = .ok s ∧ f s = .ok t := by
  cases x with
  | ok s =>
      constructor
      · intro h
        exact ⟨s, rfl, h⟩
      · rintro ⟨_, ⟨⟩, h⟩
        exact h
  | error e =>
      constructor
      · intro h
        cases h
      · rintro ⟨_, ⟨⟩, _⟩

theorem bind_eq_error_iff {ε σ τ : Type} {x : Except ε σ} {f : σ → Except ε τ} {e : ε} :
    x >>= f = .error e ↔ x = .error e ∨ ∃ s, x = .ok s ∧ f s = .error e := by
  cases x with
  | ok s =>
      constructor
      · intro h
        exact .inr ⟨s, rfl, h⟩
      · rintro (h | ⟨_, ⟨⟩, h⟩)
        · cases h
        · exact h
  | error d =>
      constructor
      · intro h
        cases h
        exact .inl rfl
      · rintro (h | ⟨_, h, -⟩)
        · cases h
          rfl
        · cases h

/-! ## Two runs side by side -/

section Agrees

variable {ε δ σ τ α : Type}

/-- Both runs succeed with results related by `R`, or both fail with failures related by `E`. -/
inductive Agrees (E : ε → δ → Prop) (R : σ → τ → Prop) : Except ε σ → Except δ τ → Prop where
  | ok {s : σ} {t : τ} (h : R s t) : Agrees E R (.ok s) (.ok t)
  | error {e : ε} {d : δ} (h : E e d) : Agrees E R (.error e) (.error d)

theorem Agrees.exists_ok {E : ε → δ → Prop} {R : σ → τ → Prop} {x : Except ε σ} {t : τ}
    (h : Agrees E R x (.ok t)) : ∃ s, x = .ok s ∧ R s t := by
  cases h with
  | ok h => exact ⟨_, rfl, h⟩

/-- Two loops over one list whose steps agree at related states agree as a whole. -/
theorem foldlM_agrees (E : ε → δ → Prop) (R : σ → τ → Prop) (f : σ → α → Except ε σ)
    (g : τ → α → Except δ τ) (l : List α)
    (hstep : ∀ a ∈ l, ∀ s t, R s t → Agrees E R (f s a) (g t a)) (s : σ) (t : τ) (h : R s t) :
    Agrees E R (l.foldlM f s) (l.foldlM g t) := by
  induction l generalizing s t with
  | nil => exact .ok h
  | cons a l ih =>
      have hrest := ih fun b hb => hstep b (by simp [hb])
      have hfirst := hstep a (by simp) s t h
      rw [List.foldlM_cons, List.foldlM_cons]
      generalize f s a = x, g t a = y at hfirst
      cases hfirst with
      | ok h => exact hrest _ _ h
      | error h => exact .error h

end Agrees

end PerfectHash
