import Mathlib.Algebra.BigOperators.Fin
import Mathlib.Data.BitVec

/-!
# Hdl.Window

Sums over the last entries of a sequence, kept in a register: the newest entry is
added and the one that leaves the window is subtracted.  In modular arithmetic this is
the exact sum as long as the exact sum has room (`rolling_sum`), whatever it is in
between.  The entries are listed the newest first, and before the first there are
zeros.
-/

namespace Hdl

/-- The sum of the last `d` entries. -/
def windowSum (d : Nat) (xs : List Nat) : Nat := (xs.take d).sum

@[simp] theorem windowSum_nil (d : Nat) : windowSum d [] = 0 := by
  simp [windowSum]

theorem windowSum_cons (d x : Nat) (xs : List Nat) :
    windowSum (d + 1) (x :: xs) = x + windowSum d xs := by
  simp [windowSum]

/-- The oldest entry of a window apart. -/
theorem windowSum_succ (d : Nat) (xs : List Nat) :
    windowSum (d + 1) xs = windowSum d xs + xs.getD d 0 := by
  induction xs generalizing d with
  | nil => simp
  | cons x xs ih =>
      cases d with
      | zero => simp [windowSum]
      | succ d => rw [windowSum_cons, windowSum_cons, ih, List.getD_cons_succ, Nat.add_assoc]

/-- The new entry comes in and the oldest one leaves. -/
theorem windowSum_push (d x : Nat) (xs : List Nat) :
    windowSum (d + 1) (x :: xs) + xs.getD d 0 = x + windowSum (d + 1) xs := by
  rw [windowSum_cons, windowSum_succ, Nat.add_assoc]

/-- The sum over the cells of a window. -/
theorem windowSum_eq_sum (d : Nat) (xs : List Nat) :
    windowSum d xs = ∑ k : Fin d, xs.getD k.val 0 := by
  induction d with
  | zero => simp [windowSum]
  | succ d ih => rw [windowSum_succ, ih, Fin.sum_univ_castSucc]; rfl

/-- Bounded entries bound the sum. -/
theorem windowSum_le {b : Nat} {xs : List Nat} (h : ∀ x ∈ xs, x ≤ b) (d : Nat) :
    windowSum d xs ≤ d * b := by
  induction xs generalizing d with
  | nil => simp
  | cons x xs ih =>
      cases d with
      | zero => simp [windowSum]
      | succ d =>
          have hx := h x (List.mem_cons_self ..)
          have hxs := ih (fun y hy => h y (List.mem_cons_of_mem _ hy)) d
          rw [windowSum_cons, Nat.succ_mul]
          omega

/-- Two sums side by side. -/
theorem windowSum_map_add (f g : α → Nat) (d : Nat) (xs : List α) :
    windowSum d (xs.map fun x => f x + g x) = windowSum d (xs.map f) + windowSum d (xs.map g) := by
  induction xs generalizing d with
  | nil => simp
  | cons x xs ih =>
      cases d with
      | zero => simp [windowSum]
      | succ d =>
          simp only [List.map_cons, windowSum_cons, ih]
          omega

/-- Only the entries of the window count. -/
theorem windowSum_congr {f g : α → Nat} {d : Nat} {xs : List α} (h : ∀ x ∈ xs.take d, f x = g x) :
    windowSum d (xs.map f) = windowSum d (xs.map g) := by
  rw [windowSum, windowSum, ← List.map_take, ← List.map_take, List.map_congr_left h]

/-- A bound of the entries by multiples of others bounds the sums. -/
theorem windowSum_map_le {f g : α → Nat} {b : Nat} {xs : List α} (h : ∀ x ∈ xs, f x ≤ b * g x)
    (d : Nat) : windowSum d (xs.map f) ≤ b * windowSum d (xs.map g) := by
  induction xs generalizing d with
  | nil => simp
  | cons x xs ih =>
      cases d with
      | zero => simp [windowSum]
      | succ d =>
          simp only [List.map_cons, windowSum_cons, Nat.mul_add]
          exact Nat.add_le_add (h x (List.mem_cons_self ..))
            (ih (fun y hy => h y (List.mem_cons_of_mem _ hy)) d)

/-- A register that keeps the sum: it is exact if the sum has room in its width. -/
theorem rolling_sum {w : Nat} {sum x old : BitVec w} {d : Nat} {xs : List Nat}
    (hsum : sum.toNat = windowSum (d + 1) xs) (hold : old.toNat = xs.getD d 0)
    (hroom : windowSum (d + 1) (x.toNat :: xs) < 2 ^ w) :
    (sum + x - old).toNat = windowSum (d + 1) (x.toNat :: xs) := by
  have hpush := windowSum_push d x.toNat xs
  have hlt := old.isLt
  rw [BitVec.toNat_sub, BitVec.toNat_add, hsum, hold]
  rw [hold] at hlt
  have hsplit : 2 ^ w - xs.getD d 0 + (windowSum (d + 1) xs + x.toNat) =
      windowSum (d + 1) (x.toNat :: xs) + 2 ^ w := by omega
  rw [Nat.add_mod_mod, hsplit, Nat.add_mod_right, Nat.mod_eq_of_lt hroom]

/-- Two functions have the same sums over all windows only if they agree. -/
theorem eq_of_windowSums {f g : α → Nat} {d : Nat} {xs : List α}
    (h : ∀ ys, ys <:+ xs → windowSum (d + 1) (ys.map f) = windowSum (d + 1) (ys.map g)) :
    ∀ x ∈ xs, f x = g x := by
  induction xs with
  | nil => simp
  | cons y ys ih =>
      have hys := ih fun zs hzs => h zs (hzs.trans (List.suffix_cons y ys))
      have hy := h (y :: ys) List.suffix_rfl
      rw [List.map_cons, List.map_cons, windowSum_cons, windowSum_cons,
        windowSum_congr fun x hx => hys x (List.mem_of_mem_take hx)] at hy
      exact List.forall_mem_cons.mpr ⟨by omega, hys⟩

end Hdl
