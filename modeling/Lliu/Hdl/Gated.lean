import Lliu.Hdl.Stream

/-!
# Hdl.Gated

A machine on a clock of its own, in a system with several clocks: `clk n` says whether it has
an edge at time `n`.  Its state is that after the inputs of its own edges (`Gated.eq_foldl`),
and a view of it with a step of its own is such a machine again (`Gated.map`).
-/

namespace Hdl

variable {σ : Type u} {ι : Type v} {τ : Type w} {κ : Type x}

/-- The inputs at the edges before time `n`. -/
def sampled (clk : Nat → Bool) (i : Nat → ι) : Nat → List ι :=
  collect fun n => if clk n then some (i n) else none

theorem sampled_succ (clk : Nat → Bool) (i : Nat → ι) (n : Nat) :
    sampled clk i (n + 1) = sampled clk i n ++ if clk n then [i n] else [] := by
  rw [sampled, collect_succ]
  cases clk n <;> rfl

/-- `s` is a run of `step` on the clock `clk`. -/
def Gated (step : σ → ι → σ) (clk : Nat → Bool) (i : Nat → ι) (s : Nat → σ) : Prop :=
  ∀ n, s (n + 1) = if clk n then step (s n) (i n) else s n

namespace Gated

variable {step : σ → ι → σ} {clk : Nat → Bool} {i : Nat → ι} {s : Nat → σ}

theorem eq_foldl (h : Gated step clk i s) (n : Nat) : s n = (sampled clk i n).foldl step (s 0) := by
  induction n with
  | zero => rfl
  | succ n ih =>
      rw [h, sampled_succ, List.foldl_append, ← ih]
      cases clk n <;> rfl

/-- A view whose step reads only `see` of the inputs runs on the same clock. -/
theorem map (h : Gated step clk i s) (view : σ → τ) (see : ι → κ) (stepView : τ → κ → τ)
    (hview : ∀ a b, view (step a b) = stepView (view a) (see b)) :
    Gated stepView clk (fun n => see (i n)) (fun n => view (s n)) := by
  intro n
  change view (s (n + 1)) = if clk n then stepView (view (s n)) (see (i n)) else view (s n)
  rw [h]
  cases clk n with
  | true => exact hview _ _
  | false => rfl

end Gated

end Hdl
