/-!
# Hdl.Run

Runs of a synchronous machine.  A clocked module is a step function
`step : σ → ι → σ` taking the registers and the inputs of one cycle to the
registers of the next; its run on an input stream is the sequence of register
states, one per cycle.

Everything here is independent of any particular design: the induction over
cycles is done once, as `run_invariant` (what every step preserves holds of
every state) and `run_map` (a projection whose next value depends only on
itself runs on its own), and the designs only supply the one-step facts.
-/

namespace Hdl

/-- The state a machine has reached at the start of cycle `n`. -/
def run (step : σ → ι → σ) (s : σ) (i : Nat → ι) : Nat → σ
  | 0 => s
  | n + 1 => step (run step s i n) (i n)

section Run

variable {step : σ → ι → σ} {s : σ} {i : Nat → ι}

@[simp] theorem run_zero : run step s i 0 = s := rfl

theorem run_succ (n : Nat) : run step s i (n + 1) = step (run step s i n) (i n) := rfl

/-- A run may be continued from any cycle, with the inputs shifted. -/
theorem run_add (n k : Nat) :
    run step s i (n + k) = run step (run step s i n) (fun m => i (n + m)) k := by
  induction k with
  | zero => rfl
  | succ k ih => rw [← Nat.add_assoc, run_succ, run_succ, ih]

/-- **Invariant rule**: what holds initially and is preserved by every step
holds in every cycle. -/
theorem run_invariant {P : Nat → σ → Prop} (h0 : P 0 s)
    (hstep : ∀ n, P n (run step s i n) → P (n + 1) (step (run step s i n) (i n))) (n : Nat) :
    P n (run step s i n) := by
  induction n with
  | zero => exact h0
  | succ n ih => exact hstep n ih

/-- **Projection rule**: if the next value of a projection `f` of the state is
`step'` of that projection and of an input derived from the cycle, then the
projection of the run is the run of `step'`. -/
theorem run_map {step' : τ → κ → τ} {f : σ → τ} {j : Nat → κ}
    (h : ∀ n, f (step (run step s i n) (i n)) = step' (f (run step s i n)) (j n)) (n : Nat) :
    f (run step s i n) = run step' (f s) j n := by
  induction n with
  | zero => rfl
  | succ n ih => rw [run_succ, run_succ, h, ih]

end Run

end Hdl
