import Lliu.Hdl.BinaryFloat
import Lliu.Pkg

/-!
# Lliu.MagToBf16

`mag_to_bf16`, the function of both feature extractors that makes a bfloat16 of a sign
and a magnitude.  It truncates toward zero to eight significant bits
(`bf16Value_magToBf16`).
-/

namespace Lliu

open Hdl

/-! ## sign and magnitude -/

/-- A feature as magnitude, sign and zero flag. -/
structure SignMag where
  mag : BitVec 32
  sgn : Bool
  zero : Bool
  deriving DecidableEq, Repr

/-- Sign and magnitude of a signed feature. -/
def SignMag.signed (x : BitVec 32) : SignMag where
  mag := if x.msb then ~~~x + 1 else x
  sgn := x.msb
  zero := x == 0

/-- Sign and magnitude of an unsigned feature. -/
def SignMag.unsigned (x : BitVec 32) : SignMag where
  mag := x
  sgn := false
  zero := x == 0

/-! ## the conversion -/

/-- The leading zeros of a magnitude, 32 for zero. -/
def leadingZeros (mag : BitVec 32) : Nat :=
  ((List.range 32).find? fun k => mag.getLsbD (31 - k)).getD 32

/-- `mag_to_bf16`. -/
def magToBf16 (isZero signBit : Bool) (mag : BitVec 32) : Bfloat16T :=
  if isZero then 0
  else
    let lz := leadingZeros mag
    let expVal : BitVec 8 := BitVec.ofInt 8 (127 + 31 - lz)
    let manVal : BitVec 7 := ((mag <<< (lz + 1)) >>> 25).setWidth 7
    BitVec.ofBool signBit ++ expVal ++ manVal

/-- A feature in bfloat16. -/
def SignMag.toBf16 (x : SignMag) : Bfloat16T := magToBf16 x.zero x.sgn x.mag

/-- The number that a bfloat16 stands for. -/
def bf16Value (b : Bfloat16T) : ℚ := BinaryFloat.value 7 127 b

/-! ## the leading zeros -/

section LeadingZeros

variable {mag : BitVec 32}

/-- The first bit found is the leading one. -/
theorem leadingZeros_eq (h : mag ≠ 0) : leadingZeros mag = 31 - mag.toNat.log2 := by
  have hn : mag.toNat ≠ 0 := fun h0 => h (BitVec.eq_of_toNat_eq h0)
  have hlog : mag.toNat.log2 < 32 := (Nat.log2_lt hn).mpr mag.isLt
  have hfind : (List.range 32).find? (fun k => mag.getLsbD (31 - k)) =
      some (31 - mag.toNat.log2) := by
    rw [List.find?_range_eq_some]
    refine ⟨?_, List.mem_range.mpr (by omega), fun j hj => ?_⟩
    · rw [show 31 - (31 - mag.toNat.log2) = mag.toNat.log2 by omega]
      exact Nat.testBit_log2 hn
    · have hlt : mag.toNat < 2 ^ (31 - j) := (Nat.log2_lt hn).mp (by omega)
      rw [BitVec.getLsbD, Nat.testBit_lt_two_pow hlt, Bool.not_false]
  rw [leadingZeros, hfind, Option.getD_some]

end LeadingZeros

/-! ## the value -/

/-- The exponent is that of the leading one. -/
theorem toNat_expVal {mag : BitVec 32} (h : mag ≠ 0) :
    (BitVec.ofInt 8 (127 + 31 - leadingZeros mag)).toNat = 127 + mag.toNat.log2 := by
  have hn : mag.toNat ≠ 0 := fun h0 => h (BitVec.eq_of_toNat_eq h0)
  have hlog : mag.toNat.log2 < 32 := (Nat.log2_lt hn).mpr mag.isLt
  rw [leadingZeros_eq h, BitVec.toNat_ofInt]
  omega

/-- The leading one is shifted out, and the bits that do not fit are shifted off. -/
theorem toNat_manVal {mag : BitVec 32} (h : mag ≠ 0) :
    (((mag <<< (leadingZeros mag + 1)) >>> 25).setWidth 7).toNat =
      BinaryFloat.mantissa 7 mag.toNat := by
  have hn : mag.toNat ≠ 0 := fun h0 => h (BitVec.eq_of_toNat_eq h0)
  have hlog : mag.toNat.log2 < 32 := (Nat.log2_lt hn).mpr mag.isLt
  have hlt := BinaryFloat.mantissa_lt 7 mag.toNat
  have hamount : leadingZeros mag + 1 = 32 - mag.toNat.log2 := by
    rw [leadingZeros_eq h]
    omega
  have hpow : 2 ^ 32 = 2 ^ mag.toNat.log2 * 2 ^ (32 - mag.toNat.log2) := by
    rw [← Nat.pow_add, Nat.add_sub_cancel' (Nat.le_of_lt hlog)]
  have hshift : mag.toNat * 2 ^ (32 - mag.toNat.log2) % 2 ^ 32 / 2 ^ 25 =
      BinaryFloat.mantissa 7 mag.toNat := by
    have hscale : 2 ^ 25 * 2 ^ 7 = 2 ^ mag.toNat.log2 * 2 ^ (32 - mag.toNat.log2) := hpow
    rw [hpow, Nat.mul_mod_mul_right, ← Nat.mul_div_mul_right _ _ (Nat.two_pow_pos 7), hscale,
      Nat.mul_right_comm, Nat.mul_div_mul_right _ _ (Nat.two_pow_pos _), BinaryFloat.mantissa]
  rw [BitVec.toNat_setWidth, BitVec.toNat_ushiftRight, BitVec.toNat_shiftLeft, hamount,
    Nat.shiftLeft_eq, Nat.shiftRight_eq_div_pow, hshift, Nat.mod_eq_of_lt hlt]

/-- `mag_to_bf16` truncates to eight significant bits. -/
theorem bf16Value_magToBf16 {sgn : Bool} {mag : BitVec 32} (h : mag ≠ 0) :
    bf16Value (magToBf16 false sgn mag) =
      if sgn then -(BinaryFloat.truncate 7 mag.toNat : ℚ)
      else BinaryFloat.truncate 7 mag.toNat := by
  have hn : mag.toNat ≠ 0 := fun h0 => h (BitVec.eq_of_toNat_eq h0)
  have hparts : (magToBf16 false sgn mag).toNat % 2 ^ 15 =
      2 ^ 7 * (127 + mag.toNat.log2) + BinaryFloat.mantissa 7 mag.toNat := by
    rw [← toNat_expVal h, ← toNat_manVal h]
    change _ % 2 ^ (8 + 7) = _
    rw [BinaryFloat.toNat_fields, magToBf16, if_neg Bool.false_ne_true,
      BinaryFloat.exponent_packed, BinaryFloat.mantissa_packed]
  have hmsb : (magToBf16 false sgn mag).msb = sgn := BinaryFloat.msb_packed
  rw [bf16Value, BinaryFloat.value_integer (by decide) hn hparts, hmsb]

theorem bf16Value_zero : bf16Value 0 = 0 := by
  simp [bf16Value, BinaryFloat.value, BinaryFloat.units, BinaryFloat.scaled]

end Lliu
