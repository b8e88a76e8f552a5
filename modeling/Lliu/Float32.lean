import Lliu.Hdl.BinaryFloat
import Lliu.Pkg

/-!
# Lliu.Float32

The numbers of `float32_t`.  The normal ones are from `2 ^ -126` to below `2 ^ 128`, and
an exponent of all ones without a mantissa is an infinity.
-/

namespace Lliu

open Hdl

/-- The number that a float32 stands for. -/
def fp32Value (x : Float32T) : ℚ := BinaryFloat.value 23 127 x

/-- The range of the normal numbers. -/
def Fp32Normal (q : ℚ) : Prop := 2 ^ (-126 : Int) ≤ |q| ∧ |q| < 2 ^ (128 : Int)

/-- A zero of either sign. -/
def Fp32Zero (x : Float32T) : Prop := x.extractLsb' 0 31 = 0

/-- An infinity of either sign. -/
def Fp32Infinity (x : Float32T) : Prop := x.extractLsb' 23 8 = 0xFF#8 ∧ x.extractLsb' 0 23 = 0

/-- The number of a pattern with an exponent. -/
theorem fp32Value_of_exponent {x : Float32T} (he : x.extractLsb' 23 8 ≠ 0) :
    fp32Value x = BinaryFloat.sign x.msb * ((2 ^ 23 + (x.extractLsb' 0 23).toNat : Nat) *
      2 ^ ((x.extractLsb' 23 8).toNat - 150 : Int)) := by
  rw [fp32Value, BinaryFloat.value_of_exponent (k := 8) rfl he]
  congr 3
  omega

theorem fp32Value_of_zero {x : Float32T} (h : Fp32Zero x) : fp32Value x = 0 :=
  BinaryFloat.value_of_zero h

/-- A zero has neither exponent nor mantissa. -/
theorem fp32Zero_iff {x : Float32T} :
    Fp32Zero x ↔ x.extractLsb' 23 8 = 0 ∧ x.extractLsb' 0 23 = 0 := BinaryFloat.zero_iff rfl

/-! ## ranges -/

/-- Zero is in neither range. -/
theorem not_fp32Normal_zero : ¬ Fp32Normal 0 := fun h => by
  have := h.1
  norm_num at this

theorem not_overflow_zero : ¬ (2 : ℚ) ^ (128 : Int) ≤ |0| := by norm_num

section Range

variable {n : Nat} {s : Bool} {j : Int}

/-- Where a number is, by the leading one of its significand. -/
theorem abs_scaled (s : Bool) (n : Nat) (j : Int) :
    |BinaryFloat.sign s * ((n : ℚ) * 2 ^ j)| = n * 2 ^ j := by
  rw [BinaryFloat.abs_sign_mul, abs_of_nonneg]
  exact mul_nonneg (Nat.cast_nonneg n) (zpow_nonneg (by decide) _)

theorem fp32Normal_iff (hn : n ≠ 0) : Fp32Normal (BinaryFloat.sign s * ((n : ℚ) * 2 ^ j)) ↔
    -126 ≤ n.log2 + j ∧ n.log2 + j < 128 := by
  rw [Fp32Normal, abs_scaled, ← not_le, BinaryFloat.two_zpow_le_iff hn,
    BinaryFloat.two_zpow_le_iff hn, not_le]

theorem underflow_iff (hn : n ≠ 0) :
    |BinaryFloat.sign s * ((n : ℚ) * 2 ^ j)| < 2 ^ (-126 : Int) ↔ n.log2 + j < -126 := by
  rw [abs_scaled, ← not_le, BinaryFloat.two_zpow_le_iff hn, not_le]

theorem overflow_iff (hn : n ≠ 0) :
    2 ^ (128 : Int) ≤ |BinaryFloat.sign s * ((n : ℚ) * 2 ^ j)| ↔ 128 ≤ n.log2 + j := by
  rw [abs_scaled, BinaryFloat.two_zpow_le_iff hn]

end Range

end Lliu
