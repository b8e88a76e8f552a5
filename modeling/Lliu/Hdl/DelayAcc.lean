import Mathlib.Tactic

/-!
# Hdl.DelayAcc

An accumulator whose adder is pipelined.  An operation issued in cycle `n`
reads the feedback operand of that cycle, and its sum is forwarded to the
feedback operand `d` cycles later, one cycle before it is committed to the
accumulator register.

The design is described by the recurrence its signals satisfy, `DelayAcc`, so
any implementation that meets the recurrence may use the facts proved here:

* `DelayAcc.fb_eq_fold`: operations issued at least `d` cycles apart add up,
  the feedback is the left fold of everything issued;
* `DelayAcc.fb_add` and `DelayAcc.fb_eq_zero`: what a single operation leaves
  behind, whatever the spacing, which is what is needed to see operations get
  lost when they follow each other too closely.
-/

namespace Hdl

universe u v

variable {α : Type u} {β : Type v}

/-- The signals of a pipelined accumulator over the cycles `c .. e`, cleared
just before cycle `c` and not cleared again before `e`: `en` issues the operand
`x`, `fb` is the feedback operand, `acc` the accumulator register. -/
structure DelayAcc (d : Nat) (op : α → β → α) (zero : α) (c e : Nat)
    (en : Nat → Bool) (x : Nat → β) (fb acc : Nat → α) : Prop where
  fb_start : ∀ k, k < d → c + k ≤ e → fb (c + k) = zero
  fb_delay : ∀ n, c ≤ n → n + d ≤ e → fb (n + d) = if en n then op (fb n) (x n) else acc (n + d)
  acc_succ : ∀ n, c ≤ n → n < e → acc (n + 1) = fb n

/-! ## the fold of everything issued -/

/-- The left fold over the operands issued in the cycles `c .. n-1`. -/
def issuedFold (op : α → β → α) (zero : α) (c : Nat) (en : Nat → Bool) (x : Nat → β) : Nat → α
  | 0 => zero
  | n + 1 =>
      if c ≤ n ∧ en n then op (issuedFold op zero c en x n) (x n)
      else issuedFold op zero c en x n

section Fold

variable {op : α → β → α} {zero : α} {c : Nat} {en : Nat → Bool} {x : Nat → β}

theorem issuedFold_of_le {n : Nat} (h : n ≤ c) : issuedFold op zero c en x n = zero := by
  induction n with
  | zero => rfl
  | succ n ih =>
      have hn : ¬ (c ≤ n ∧ en n) := fun h' => by omega
      rw [issuedFold, if_neg hn, ih (by omega)]

/-- Cycles that issue nothing do not change the fold. -/
theorem issuedFold_of_quiet {m n : Nat} (hmn : m ≤ n)
    (hq : ∀ k, m ≤ k → k < n → en k = false) :
    issuedFold op zero c en x n = issuedFold op zero c en x m := by
  induction n, hmn using Nat.le_induction with
  | base => rfl
  | succ n hmn ih =>
      have hn : ¬ (c ≤ n ∧ en n) := fun h' => by
        have := hq n hmn (Nat.lt_succ_self n)
        simp [this] at h'
      rw [issuedFold, if_neg hn, ih fun k hk hkn => hq k hk (Nat.lt_succ_of_lt hkn)]

end Fold

namespace DelayAcc

variable {d : Nat} {op : α → β → α} {zero : α} {c e : Nat} {en : Nat → Bool} {x : Nat → β}
  {fb acc : Nat → α}

/-! ## what a single operation leaves behind -/

/-- A cycle that issues nothing leaves the forwarded value alone. -/
theorem fb_skip (h : DelayAcc d op zero c e en x fb acc) (hd : 0 < d) {n : Nat} (hn : c ≤ n)
    (hne : n + d ≤ e) (he : en n = false) : fb (n + d) = fb (n + d - 1) := by
  have hs := h.acc_succ (n + d - 1) (by omega) (by omega)
  rw [Nat.sub_add_cancel (by omega)] at hs
  rw [h.fb_delay n hn hne, he, if_neg Bool.false_ne_true, hs]

/-- Over a stretch that issues nothing the feedback, `d` cycles later, keeps
its value. -/
theorem fb_quiet (h : DelayAcc d op zero c e en x fb acc) (hd : 0 < d) {m n : Nat} (hm : c ≤ m)
    (hmn : m ≤ n) (hne : n + d ≤ e) (hq : ∀ k, m < k → k ≤ n → en k = false) :
    fb (n + d) = fb (m + d) := by
  induction n, hmn using Nat.le_induction with
  | base => rfl
  | succ n hmn ih =>
      have hskip := h.fb_skip hd (n := n + 1) (by omega) hne (hq (n + 1) (by omega) (le_refl _))
      rw [hskip, show n + 1 + d - 1 = n + d by omega]
      exact ih (by omega) fun k hk hkn => hq k hk (by omega)

/-- Before anything issued can have come back the feedback is zero. -/
theorem fb_eq_zero (h : DelayAcc d op zero c e en x fb acc) (hd : 0 < d) {n : Nat} (hn : c ≤ n)
    (hne : n ≤ e) (hq : ∀ k, c ≤ k → k + d ≤ n → en k = false) : fb n = zero := by
  induction n, hn using Nat.le_induction with
  | base => exact h.fb_start 0 hd hne
  | succ n hn ih =>
      by_cases hlt : n + 1 < c + d
      · have hs := h.fb_start (n + 1 - c) (by omega) (by omega)
        rwa [show c + (n + 1 - c) = n + 1 by omega] at hs
      · have hskip := h.fb_skip hd (n := n + 1 - d) (by omega) (by omega)
          (hq _ (by omega) (by omega))
        rw [show n + 1 - d + d = n + 1 by omega, show n + 1 - 1 = n by omega] at hskip
        rw [hskip]
        exact ih (by omega) fun k hk hkn => hq k hk (by omega)

/-- **What one operation leaves behind**: if the operation issued at `m` is
followed by nothing up to `n`, the feedback at `n + d` is its sum. -/
theorem fb_add (h : DelayAcc d op zero c e en x fb acc) (hd : 0 < d) {m n : Nat} (hm : c ≤ m)
    (he : en m = true) (hmn : m ≤ n) (hne : n + d ≤ e)
    (hq : ∀ k, m < k → k ≤ n → en k = false) : fb (n + d) = op (fb m) (x m) := by
  rw [h.fb_quiet hd hm hmn hne hq, h.fb_delay m hm (by omega), if_pos he]

/-! ## spaced operations -/

/-- **Spaced operations add up**: if operations are issued at least `d` cycles
apart, the feedback is the fold of all operands issued `d` or more cycles
ago. -/
theorem fb_eq_fold (h : DelayAcc d op zero c e en x fb acc) (hd : 0 < d)
    (hsp : ∀ m n, c ≤ m → m < n → n ≤ e → en m → en n → m + d ≤ n) (n : Nat) (hn : c ≤ n)
    (hne : n + d ≤ e) : fb (n + d) = issuedFold op zero c en x (n + 1) := by
  induction n using Nat.strong_induction_on with
  | _ n ih =>
      cases he : en n with
      | false =>
          rw [h.fb_skip hd hn hne he, issuedFold, if_neg (by simp [he])]
          by_cases hcn : n = c
          · subst hcn
            have hs := h.fb_start (d - 1) (by omega) (by omega)
            rw [show n + d - 1 = n + (d - 1) by omega, hs, issuedFold_of_le (le_refl _)]
          · have hprev := ih (n - 1) (by omega) (by omega) (by omega)
            rw [show n - 1 + d = n + d - 1 by omega, Nat.sub_add_cancel (by omega)] at hprev
            exact hprev
      | true =>
          have hfold : fb n = issuedFold op zero c en x n := by
            by_cases hlt : n < c + d
            · have hs := h.fb_start (n - c) (by omega) (by omega)
              rw [show c + (n - c) = n by omega] at hs
              have hq : ∀ k, c ≤ k → k < n → en k = false := fun k hk hkn => by
                by_contra hek
                have := hsp k n hk hkn (by omega) (by simpa using hek) he
                omega
              rw [hs, issuedFold_of_quiet hn hq, issuedFold_of_le (le_refl _)]
            · have hprev := ih (n - d) (by omega) (by omega) (by omega)
              rw [Nat.sub_add_cancel (by omega)] at hprev
              have hq : ∀ k, n - d + 1 ≤ k → k < n → en k = false := fun k hk hkn => by
                by_contra hek
                have := hsp k n (by omega) hkn (by omega) (by simpa using hek) he
                omega
              rw [hprev, issuedFold_of_quiet (by omega) hq]
          rw [h.fb_delay n hn hne, if_pos he, issuedFold, if_pos ⟨hn, he⟩, hfold]

/-- The accumulator register is the fold one cycle later. -/
theorem acc_eq_fold (h : DelayAcc d op zero c e en x fb acc) (hd : 0 < d)
    (hsp : ∀ m n, c ≤ m → m < n → n ≤ e → en m → en n → m + d ≤ n) (n : Nat) (hn : c ≤ n)
    (hne : n + d < e) : acc (n + d + 1) = issuedFold op zero c en x (n + 1) := by
  rw [h.acc_succ _ (by omega) hne, h.fb_eq_fold hd hsp n hn (by omega)]

end DelayAcc

end Hdl
