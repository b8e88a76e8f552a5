import Lliu.Hdl.Stream
import Mathlib.Data.Nat.Count
import Mathlib.Data.Finset.Card

/-!
# Hdl.Duty

How long something is busy that is busy for `len` cycles at a time and starts at least
`period` cycles apart: for at most `len` of any `period` cycles in a row
(`count_busy_le`).  No two of these cycles are equally far from the start they belong to.
-/

namespace Hdl

/-- `busy` is high only in the `len` cycles from a start on, and the starts are `period` cycles
apart. -/
structure Duty (start : Nat → Prop) (busy : Nat → Bool) (len period : Nat) : Prop where
  within : ∀ n, busy n = true → ∃ a, start a ∧ a ≤ n ∧ n < a + len
  apart : ∀ a b, start a → start b → a < b → a + period ≤ b

section Duty

variable {start : Nat → Prop} {busy : Nat → Bool} {len period : Nat}

/-- **Duty cycle**: of any `period` cycles in a row at most `len` are busy. -/
theorem Duty.count_busy_le (h : Duty start busy len period) (n : Nat) :
    count (fun k => busy (n + k)) period ≤ len := by
  classical
  -- the start of a busy cycle, and the distance to it
  have hstart : ∀ k, ∃ a, busy (n + k) = true → start a ∧ a ≤ n + k ∧ n + k < a + len := fun k => by
    by_cases hb : busy (n + k) = true
    · obtain ⟨a, ha⟩ := h.within _ hb
      exact ⟨a, fun _ => ha⟩
    · exact ⟨0, fun hk => absurd hk hb⟩
  choose a ha using hstart
  rw [count, Nat.count_eq_card_filter_range, ← Finset.card_range len]
  apply Finset.card_le_card_of_injOn (fun k => n + k - a k)
  · intro k hk
    obtain ⟨-, hb⟩ := Finset.mem_filter.mp hk
    obtain ⟨-, hle, hlt⟩ := ha k hb
    simp only [Finset.coe_range, Set.mem_Iio]
    omega
  · intro k hk k' hk' heq
    obtain ⟨hrange, hb⟩ := Finset.mem_filter.mp hk
    obtain ⟨hrange', hb'⟩ := Finset.mem_filter.mp hk'
    obtain ⟨hs, hle, -⟩ := ha k hb
    obtain ⟨hs', hle', -⟩ := ha k' hb'
    have hlt := Finset.mem_range.mp hrange
    have hlt' := Finset.mem_range.mp hrange'
    have hdist : n + k - a k = n + k' - a k' := heq
    rcases Nat.lt_trichotomy (a k) (a k') with hlta | heqa | hgta
    · have := h.apart _ _ hs hs' hlta
      omega
    · omega
    · have := h.apart _ _ hs' hs hgta
      omega

end Duty

/-! ## counting -/

theorem count_not (f : Nat → Bool) (n : Nat) : count (fun k => !f k) n + count f n = n := by
  induction n with
  | zero => rfl
  | succ n ih =>
      rw [count_succ, count_succ]
      cases f n <;> simp <;> omega

theorem count_le_add {f g h : Nat → Bool} (himp : ∀ k, f k = true → g k = true ∨ h k = true) (n : Nat) :
    count f n ≤ count g n + count h n := by
  induction n with
  | zero => exact Nat.le_refl 0
  | succ n ih =>
      rw [count_succ, count_succ, count_succ]
      cases hf : f n with
      | false => rw [Bool.toNat_false]; omega
      | true =>
          rcases himp n hf with hg | hh
          · rw [hg, Bool.toNat_true]; omega
          · rw [hh, Bool.toNat_true]; omega

/-- What follows on something in the cycle before is at most once more often. -/
theorem count_le_of_prev {f g : Nat → Bool} (h : ∀ k, f (k + 1) = true → g k = true) (n : Nat) :
    count f n ≤ count g n + 1 := by
  have hlate : ∀ m, count f (m + 1) ≤ count g m + 1 := fun m => by
    induction m with
    | zero =>
        rw [count_succ, count_zero, count_zero]
        exact Nat.add_le_add_left (Bool.toNat_le _) 0
    | succ m ih =>
        rw [count_succ, count_succ g]
        have hstep : (f (m + 1)).toNat ≤ (g m).toNat := Bool.toNat_le_toNat (h m)
        omega
  cases n with
  | zero => exact Nat.zero_le _
  | succ m =>
      have hmono := count_mono g (Nat.le_add_right m 1)
      have := hlate m
      omega

end Hdl
