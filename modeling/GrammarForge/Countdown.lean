set_option autoImplicit false

/-!
# Countdowns

A bound on the depth of a walk can be far too large to be written down, although the walk itself
stays shallow. A countdown is a natural number of which only as much is worked out as has been
counted down.

## Main definitions

* `Countdown` — a number to be counted down.
* `Countdown.steps` — the number itself.
* `Countdown.geometric` — the sum of a geometric series.

## Main results

* `Countdown.le_steps_geometric` — a geometric series exceeds its last term.
-/

namespace GrammarForge

/-- A natural number that is worked out while it is counted down. -/
inductive Countdown where
  /-- Nothing is left. -/
  | zero
  /-- One step, then what is left after it. -/
  | succ (pred : Unit → Countdown)

namespace Countdown

/-- The number of steps until nothing is left. -/
def steps : Countdown → Nat
  | zero => 0
  | succ pred => (pred ()).steps + 1

/-- Counts `n` steps, then those of `rest`. -/
def stepsThen : Nat → (Unit → Countdown) → Countdown
  | 0, rest => rest ()
  | n + 1, rest => succ fun _ => stepsThen n rest

/-- Counts `first` steps, then `ratio` times as many, and so on for `rounds` rounds more. -/
def geometric (ratio : Nat) : Nat → Nat → Countdown
  | 0, first => stepsThen first fun _ => zero
  | rounds + 1, first => stepsThen first fun _ => geometric ratio rounds (first * ratio)

/-- One countdown put before another one has the steps of both. -/
@[simp]
theorem steps_stepsThen (n : Nat) (rest : Unit → Countdown) :
    (stepsThen n rest).steps = n + (rest ()).steps := by
  induction n with
  | zero => simp [stepsThen]
  | succ n ih =>
    rw [stepsThen, steps, ih]
    omega

/-- The steps of a geometric countdown are at least those of its last round. -/
theorem le_steps_geometric (ratio rounds first : Nat) :
    first * Nat.pow ratio rounds ≤ (geometric ratio rounds first).steps := by
  induction rounds generalizing first with
  | zero => simp [geometric]
  | succ rounds ih =>
    have hstep : first * Nat.pow ratio (rounds + 1) = first * ratio * Nat.pow ratio rounds := by
      rw [Nat.mul_assoc, Nat.mul_comm ratio]
      rfl
    have h := ih (first * ratio)
    rw [geometric, steps_stepsThen, hstep]
    omega

end Countdown

end GrammarForge
