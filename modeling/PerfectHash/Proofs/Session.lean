set_option autoImplicit false

/-! # Sessions

A session gives commands, one after the other, to something that keeps a state and answers. Its
history are the commands with their answers, the last one in front, and a command has to be
permitted by the history before it. The state at the end of a session is any state that permitted
commands can reach.

What a permitted command preserves holds at the end of every session (`Session.invariant`).
-/

namespace PerfectHash

variable {σ κ ρ : Type}

/-- The commands of the history, the one at its end first, lead from `initial` to the state. -/
inductive Session (perform : σ → κ → ρ × σ) (Permits : List (κ × ρ) → κ → Prop) (initial : σ) :
    List (κ × ρ) → σ → Prop where
  | start : Session perform Permits initial [] initial
  | step {history : List (κ × ρ)} {state : σ}
      (earlier : Session perform Permits initial history state) (command : κ)
      (permitted : Permits history command) :
      Session perform Permits initial ((command, (perform state command).1) :: history)
        (perform state command).2

/-- An invariant that permitted commands preserve holds at the end of every session. -/
theorem Session.invariant {perform : σ → κ → ρ × σ} {Permits : List (κ × ρ) → κ → Prop}
    {initial : σ} (Invariant : List (κ × ρ) → σ → Prop) (hstart : Invariant [] initial)
    (hstep : ∀ history state command, Invariant history state → Permits history command →
      Invariant ((command, (perform state command).1) :: history) (perform state command).2)
    {history : List (κ × ρ)} {state : σ} (h : Session perform Permits initial history state) :
    Invariant history state := by
  induction h with
  | start => exact hstart
  | step _ command permitted ih => exact hstep _ _ command ih permitted

end PerfectHash
