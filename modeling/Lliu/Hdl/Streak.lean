import Mathlib.Data.Nat.Init

/-!
# Hdl.Streak

How long a signal has been high without a gap.  A counter that counts the cycles in
which a signal is high and is cleared by every other cycle holds the streak of the
signal, up to its width; it reaches `k` when the last `k` cycles were all high
(`le_streak`).
-/

namespace Hdl

/-- The number of cycles before `n` since the last one in which `p` was low. -/
def streak (p : Nat → Bool) : Nat → Nat
  | 0 => 0
  | n + 1 => if p n then streak p n + 1 else 0

@[simp] theorem streak_zero (p : Nat → Bool) : streak p 0 = 0 := rfl

theorem streak_succ (p : Nat → Bool) (n : Nat) :
    streak p (n + 1) = if p n then streak p n + 1 else 0 := rfl

/-- The streak is at least `k` if the last `k` cycles were high. -/
theorem le_streak {p : Nat → Bool} {n k : Nat} :
    k ≤ streak p n ↔ k ≤ n ∧ ∀ j, n - k ≤ j → j < n → p j = true := by
  induction n generalizing k with
  | zero => simp
  | succ n ih =>
      cases k with
      | zero =>
          have hnone : ∀ j, n + 1 - 0 ≤ j → ¬ j < n + 1 := by omega
          exact iff_of_true (Nat.zero_le _)
            ⟨Nat.zero_le _, fun j hj hlt => absurd hlt (hnone j hj)⟩
      | succ k =>
          rw [streak_succ]
          cases hp : p n with
          | false =>
              refine iff_of_false (Nat.not_succ_le_zero k) fun ⟨hk, hall⟩ => ?_
              exact absurd (hall n (by omega) (Nat.lt_succ_self n)) (by simp [hp])
          | true =>
              simp only [if_true, Nat.succ_le_succ_iff, Nat.add_sub_add_right, ih]
              refine and_congr_right fun hk => ⟨fun hall j hj hlt => ?_, fun hall j hj hlt => ?_⟩
              · rcases Nat.lt_succ_iff_lt_or_eq.mp hlt with hlt | rfl
                · exact hall j hj hlt
                · exact hp
              · exact hall j hj (Nat.lt_succ_of_lt hlt)

/-- The same, with the cycles counted backwards. -/
theorem succ_le_streak_succ {p : Nat → Bool} {n k : Nat} :
    k + 1 ≤ streak p (n + 1) ↔ k ≤ n ∧ ∀ j, j ≤ k → p (n - j) = true := by
  rw [le_streak, Nat.succ_le_succ_iff]
  refine and_congr_right fun hk => ⟨fun hall j hj => ?_, fun hall j hj hlt => ?_⟩
  · exact hall _ (by omega) (by omega)
  · have hback := hall (n - j) (by omega)
    rwa [show n - (n - j) = j by omega] at hback

end Hdl
