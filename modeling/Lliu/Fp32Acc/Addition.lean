import Lliu.Fp32Acc
import Lliu.Float32

/-!
# Lliu.Fp32Acc.Addition

The module's addition against the numbers.  The operands are aligned to the larger
exponent, what is shifted out is lost, and the sum is cut to 24 bits (`sumReference`).
The adder has this number (`addExact_iff`) but where nothing is left of the sum but its
lowest bit, which is flushed, and where the exponent leaves its eight bits.
-/

namespace Lliu

open Hdl

/-! ## what the sum should be -/

/-- A zero, or a normal float32. -/
def Fp32ZeroOrNormal (a : Float32T) : Prop :=
  Fp32Zero a ∨ a.extractLsb' 23 8 ≠ 0 ∧ a.extractLsb' 23 8 ≠ 0xFF#8

/-- The significand of an operand. -/
def fp32Significand (a : Float32T) : Nat :=
  if a.extractLsb' 0 31 = 0#31 then 0 else 2 ^ 23 + (a.extractLsb' 0 23).toNat

/-- An integer of a given sign. -/
def signed (s : Bool) (n : Nat) : Int := if s then -n else n

/-- The larger exponent. -/
def alignedExp (a b : Float32T) : Nat :=
  max (a.extractLsb' 23 8).toNat (b.extractLsb' 23 8).toNat

/-- An operand at a larger exponent, without what is shifted out. -/
def alignTo (e : Nat) (a : Float32T) : Int :=
  signed a.msb (fp32Significand a / 2 ^ (e - (a.extractLsb' 23 8).toNat))

/-- The sum, in units of the last place of the larger operand. -/
def alignedSum (a b : Float32T) : Int := alignTo (alignedExp a b) a + alignTo (alignedExp a b) b

/-- The sum truncated to 24 significant bits. -/
def sumReference (a b : Float32T) : ℚ :=
  BinaryFloat.sign (decide (alignedSum a b < 0)) *
    (BinaryFloat.truncate 23 (alignedSum a b).natAbs * 2 ^ (alignedExp a b - 150 : Int))

/-- The reference where float32 has it, zero below and an infinity beyond. -/
structure AddExact (a b r : Float32T) : Prop where
  exact : sumReference a b = 0 ∨ Fp32Normal (sumReference a b) → fp32Value r = sumReference a b
  zero : sumReference a b ≠ 0 → |sumReference a b| < 2 ^ (-126 : Int) → Fp32Zero r
  infinity : 2 ^ (128 : Int) ≤ |sumReference a b| → Fp32Infinity r

/-- No sum in range is one unit, one below it is or is half the least normal number, and
one beyond it is the first of these. -/
def AddFits (a b : Float32T) : Prop :=
  (Fp32Normal (sumReference a b) → (alignedSum a b).natAbs ≠ 1) ∧
  (sumReference a b ≠ 0 → |sumReference a b| < 2 ^ (-126 : Int) →
    (alignedSum a b).natAbs = 1 ∨ |sumReference a b| = 2 ^ (-127 : Int)) ∧
  (2 ^ (128 : Int) ≤ |sumReference a b| → |sumReference a b| = 2 ^ (128 : Int))

/-! ## operands -/

section Operand

variable {a : Float32T}

theorem fp32IsZero_iff : fp32IsZero a = true ↔ Fp32Zero a := by
  rw [fp32IsZero, beq_iff_eq]
  rfl

theorem toNat_fp32Man (a : Float32T) : (fp32Man a).toNat = fp32Significand a := by
  have hlt := (a.extractLsb' 0 23).isLt
  simp only [fp32Man, fp32Significand, fp32IsZero, beq_iff_eq]
  split
  · rfl
  · rw [BitVec.toNat_append, ← Nat.shiftLeft_add_eq_or_of_lt hlt]
    rfl

theorem fp32Significand_lt (a : Float32T) : fp32Significand a < 2 ^ 24 :=
  toNat_fp32Man a ▸ (fp32Man a).isLt

/-- The exponent of a zero. -/
theorem exponent_of_zero (h : Fp32Zero a) : (a.extractLsb' 23 8).toNat = 0 :=
  congrArg BitVec.toNat (fp32Zero_iff.mp h).1

theorem Fp32ZeroOrNormal.exponent (h : Fp32ZeroOrNormal a) (hz : ¬ Fp32Zero a) :
    0 < (a.extractLsb' 23 8).toNat ∧ (a.extractLsb' 23 8).toNat < 255 := by
  obtain ⟨h0, h255⟩ := h.resolve_left hz
  have hlt := (a.extractLsb' 23 8).isLt
  have h0 : (a.extractLsb' 23 8).toNat ≠ 0 := fun h => h0 (BitVec.eq_of_toNat_eq h)
  have h255 : (a.extractLsb' 23 8).toNat ≠ 255 := fun h => h255 (BitVec.eq_of_toNat_eq h)
  omega

/-- The number of an operand that is not zero is a normal one. -/
theorem Fp32ZeroOrNormal.normal (h : Fp32ZeroOrNormal a) (hz : ¬ Fp32Zero a) :
    Fp32Normal (fp32Value a) := by
  have hexp := h.exponent hz
  have hf := (a.extractLsb' 0 23).isLt
  have hlog : (2 ^ 23 + (a.extractLsb' 0 23).toNat).log2 = 23 := by
    rw [Nat.log2_eq_iff (by omega)]
    omega
  rw [fp32Value_of_exponent (h.resolve_left hz).1, fp32Normal_iff (by omega), hlog]
  omega

end Operand

/-! ## the stages -/

section Stages

variable {a b : Float32T}

theorem toNat_shift (x : BitVec 24) (d : BitVec 8) :
    (if (24#8).ult d then 0#24 else x >>> d).toNat = x.toNat / 2 ^ d.toNat := by
  have hlt := x.isLt
  split
  · next h =>
      have hd : 24 < d.toNat := by simpa [BitVec.ult] using h
      have hpow : 2 ^ 24 ≤ 2 ^ d.toNat := Nat.pow_le_pow_right (by decide) (by omega)
      exact (Nat.div_eq_of_lt (by omega)).symm
  · rw [BitVec.ushiftRight_eq', BitVec.toNat_ushiftRight, Nat.shiftRight_eq_div_pow]

/-- Stages A1 and B1: the sum of two integers, its magnitude and its sign. -/
theorem stageB1_sum (r : StageA05) (s : Bool) (h : r.effSub = (r.bigSign ^^ s)) :
    (stageB1 (stageA1 r)).sumMan.toNat =
      (signed r.bigSign r.bigMan.toNat + signed s r.alignedSmallMan.toNat).natAbs ∧
    (signed r.bigSign r.bigMan.toNat + signed s r.alignedSmallMan.toNat ≠ 0 →
      (stageB1 (stageA1 r)).sumSign =
        decide (signed r.bigSign r.bigMan.toNat + signed s r.alignedSmallMan.toNat < 0)) := by
  have hbig := r.bigMan.isLt
  have hsmall := r.alignedSmallMan.isLt
  have hwide : ∀ x : BitVec 24, (x.setWidth 25).toNat = x.toNat := fun x => by
    rw [BitVec.toNat_setWidth, Nat.mod_eq_of_lt (by omega)]
  have hadd := BitVec.toNat_add (r.bigMan.setWidth 25) (r.alignedSmallMan.setWidth 25)
  rw [hwide, hwide] at hadd
  have hsub : ∀ x y : BitVec 24, y.toNat ≤ x.toNat →
      (x.setWidth 25 - y.setWidth 25).toNat = x.toNat - y.toNat := fun x y h => by
    rw [BitVec.toNat_sub_of_le (by rwa [BitVec.le_def, hwide, hwide]), hwide, hwide]
  simp only [stageB1, stageA1, h, signed]
  by_cases hge : r.alignedSmallMan.toNat ≤ r.bigMan.toNat
  · have hule : r.alignedSmallMan.ule r.bigMan = true := decide_eq_true hge
    have hsub := hsub _ _ hge
    cases r.bigSign <;> cases s <;> simp [hule] <;> omega
  · have hule : r.alignedSmallMan.ule r.bigMan = false := decide_eq_false hge
    have hsub := hsub _ _ (Nat.le_of_not_le hge)
    cases r.bigSign <;> cases s <;> simp [hule] <;> omega

/-- Stages A0 and A0.5 when the accumulator has the larger exponent. -/
theorem stageA05_of_le (h : (b.extractLsb' 23 8).toNat ≤ (a.extractLsb' 23 8).toNat) :
    (stageA05 (stageA0 a b)).bigSign = a.msb ∧
    (stageA05 (stageA0 a b)).bigExp = a.extractLsb' 23 8 ∧
    (stageA05 (stageA0 a b)).bigMan.toNat = fp32Significand a ∧
    (stageA05 (stageA0 a b)).alignedSmallMan.toNat =
      fp32Significand b / 2 ^ ((a.extractLsb' 23 8).toNat - (b.extractLsb' 23 8).toNat) := by
  have hule : (b.extractLsb' 23 8).ule (a.extractLsb' 23 8) = true := decide_eq_true h
  simp only [stageA05, stageA0, hule, if_true, toNat_shift, toNat_fp32Man,
    BitVec.toNat_sub_of_le (BitVec.le_def.mpr h), BitVec.msb_eq_getLsbD_last, and_true]

/-- And when the addend has. -/
theorem stageA05_of_lt (h : (a.extractLsb' 23 8).toNat < (b.extractLsb' 23 8).toNat) :
    (stageA05 (stageA0 a b)).bigSign = b.msb ∧
    (stageA05 (stageA0 a b)).bigExp = b.extractLsb' 23 8 ∧
    (stageA05 (stageA0 a b)).bigMan.toNat = fp32Significand b ∧
    (stageA05 (stageA0 a b)).alignedSmallMan.toNat =
      fp32Significand a / 2 ^ ((b.extractLsb' 23 8).toNat - (a.extractLsb' 23 8).toNat) := by
  have hule : (b.extractLsb' 23 8).ule (a.extractLsb' 23 8) = false :=
    decide_eq_false (Nat.not_le_of_lt h)
  simp only [stageA05, stageA0, hule, Bool.false_eq_true, if_false, toNat_shift, toNat_fp32Man,
    BitVec.toNat_sub_of_le (BitVec.le_def.mpr h.le), BitVec.msb_eq_getLsbD_last, and_true]

/-- The first four stages: the sum of the aligned operands. -/
theorem stages_sum (a b : Float32T) :
    (stageB1 (stageA1 (stageA05 (stageA0 a b)))).sumMan.toNat = (alignedSum a b).natAbs ∧
    (alignedSum a b ≠ 0 → (stageB1 (stageA1 (stageA05 (stageA0 a b)))).sumSign =
      decide (alignedSum a b < 0)) ∧
    (stageB1 (stageA1 (stageA05 (stageA0 a b)))).sumExp.toNat = alignedExp a b := by
  have heff : (stageA05 (stageA0 a b)).effSub = (a.msb ^^ b.msb) := by
    rw [BitVec.msb_eq_getLsbD_last, BitVec.msb_eq_getLsbD_last]
    rfl
  have hself : ∀ x : Float32T, alignTo (x.extractLsb' 23 8).toNat x =
      signed x.msb (fp32Significand x) := fun x => by
    rw [alignTo, Nat.sub_self, Nat.pow_zero, Nat.div_one]
  obtain hle | hlt := le_or_gt (b.extractLsb' 23 8).toNat (a.extractLsb' 23 8).toNat
  · obtain ⟨hsign, hexp, hbig, hsmall⟩ := stageA05_of_le hle
    have hsum := stageB1_sum (stageA05 (stageA0 a b)) b.msb (by rw [heff, hsign])
    rw [hsign, hbig, hsmall, ← hself] at hsum
    rw [alignedSum, alignedExp, Nat.max_eq_left hle]
    exact ⟨hsum.1, hsum.2, congrArg BitVec.toNat hexp⟩
  · obtain ⟨hsign, hexp, hbig, hsmall⟩ := stageA05_of_lt hlt
    have hsum := stageB1_sum (stageA05 (stageA0 a b)) a.msb
      (by rw [heff, hsign, Bool.xor_comm])
    rw [hsign, hbig, hsmall, ← hself, Int.add_comm] at hsum
    rw [alignedSum, alignedExp, Nat.max_eq_right hlt.le]
    exact ⟨hsum.1, hsum.2, congrArg BitVec.toNat hexp⟩

/-- The pattern of a sum: the exponent of its leading one, in eight bits, and the bits below. -/
def packedSum (s : Bool) (e m : Nat) : Float32T :=
  BitVec.ofBool s ++ BitVec.ofNat 8 (e + 233 + m.log2) ++
    BitVec.ofNat 23 (BinaryFloat.mantissa 23 m)

theorem packedSum_eq {s : Bool} {e : BitVec 8} {f : BitVec 23} {x m : Nat}
    (he : e.toNat = (x + 233 + m.log2) % 256) (hf : f.toNat = BinaryFloat.mantissa 23 m) :
    BitVec.ofBool s ++ e ++ f = packedSum s x m := by
  have he : e = BitVec.ofNat 8 (x + 233 + m.log2) := BitVec.eq_of_toNat_eq <| by
    rw [he, BitVec.toNat_ofNat]
  have hf : f = BitVec.ofNat 23 (BinaryFloat.mantissa 23 m) := by
    rw [← hf, BitVec.ofNat_toNat, BitVec.setWidth_eq]
  rw [he, hf, packedSum]

/-- The cascade shifts the leading one up, unless it is in bit 0. -/
theorem renormalize_eq (s : Bool) (e : BitVec 8) {m : BitVec 25} {i : Nat} (hi : i ≤ 22)
    (hm : m.toNat < 2 ^ (i + 1)) : renormalize s e m i =
      if m.toNat ≤ 1 then 0#32 else packedSum s e.toNat m.toNat := by
  induction i with
  | zero => rw [renormalize, if_pos (by omega)]
  | succ i ih =>
      rw [renormalize, BinaryFloat.getLsbD_top hm]
      by_cases hlead : 2 ^ (i + 1) ≤ m.toNat
      · have hlog : m.toNat.log2 = i + 1 := (Nat.log2_eq_iff (by omega)).mpr ⟨hlead, hm⟩
        rw [if_pos (decide_eq_true hlead), if_neg (by omega)]
        refine packedSum_eq ?_ ?_
        · rw [BitVec.toNat_sub, BitVec.toNat_ofNat, hlog]
          omega
        · rw [BinaryFloat.mantissa_of_le (by omega), hlog, BitVec.extractLsb'_toNat,
            BitVec.toNat_shiftLeft, Nat.shiftRight_zero, Nat.shiftLeft_eq,
            Nat.mod_mod_of_dvd _ (by decide), show 23 - (i + 1) = 22 - i by omega]
      · rw [if_neg (by simpa using hlead), ih (by omega) (by omega)]

/-- Stage B2 on a sum of two numbers. -/
theorem stageB2_eq (r : StageB1) (ha : r.accZero = false) (hb : r.addZero = false)
    (hboth : r.bothZero = false) : stageB2 r =
      if r.sumMan.toNat ≤ 1 then 0#32 else packedSum r.sumSign r.sumExp.toNat r.sumMan.toNat := by
  have hlt := r.sumMan.isLt
  have hzero : r.sumMan = 0#25 ↔ r.sumMan.toNat = 0 := by rw [← BitVec.toNat_inj]; rfl
  simp only [stageB2, ha, hb, hboth, Bool.false_eq_true, if_false, beq_iff_eq, hzero]
  by_cases h0 : r.sumMan.toNat = 0
  · rw [if_pos h0, if_pos (by omega)]
  rw [if_neg h0, @BinaryFloat.getLsbD_top 25 r.sumMan 24 hlt]
  by_cases h24 : 2 ^ 24 ≤ r.sumMan.toNat
  · -- a carry out of 24 bits
    have hlog : r.sumMan.toNat.log2 = 24 := (Nat.log2_eq_iff h0).mpr ⟨h24, hlt⟩
    rw [if_pos (decide_eq_true h24), if_neg (by omega)]
    refine packedSum_eq ?_ ?_
    · rw [BitVec.toNat_add, BitVec.toNat_ofNat, hlog]
      omega
    · rw [BinaryFloat.mantissa_of_ge (by omega), hlog, BitVec.extractLsb'_toNat,
        Nat.shiftRight_eq_div_pow]
  rw [if_neg (by simpa using h24), @BinaryFloat.getLsbD_top 25 r.sumMan 23 (by omega)]
  by_cases h23 : 2 ^ 23 ≤ r.sumMan.toNat
  · -- nothing to shift
    have hlog : r.sumMan.toNat.log2 = 23 := (Nat.log2_eq_iff h0).mpr ⟨h23, by omega⟩
    rw [decide_eq_true h23, Bool.not_true, if_neg Bool.false_ne_true, if_neg (by omega)]
    refine packedSum_eq ?_ ?_
    · rw [hlog]
      omega
    · rw [BinaryFloat.mantissa_of_le (by omega), hlog, BitVec.extractLsb'_toNat,
        Nat.shiftRight_zero, Nat.sub_self, Nat.pow_zero, Nat.mul_one]
  · rw [decide_eq_false h23, Bool.not_false, if_pos rfl,
      renormalize_eq r.sumSign r.sumExp (Nat.le_refl 22) (by omega)]

/-- The addition of two numbers. -/
theorem fp32Add_eq (ha : ¬ Fp32Zero a) (hb : ¬ Fp32Zero b) :
    fp32Add a b = if (alignedSum a b).natAbs ≤ 1 then 0#32
      else packedSum (decide (alignedSum a b < 0)) (alignedExp a b) (alignedSum a b).natAbs := by
  have ha := Bool.eq_false_iff.mpr (mt fp32IsZero_iff.mp ha)
  have hb := Bool.eq_false_iff.mpr (mt fp32IsZero_iff.mp hb)
  obtain ⟨hman, hsign, hexp⟩ := stages_sum a b
  rw [fp32Add, stageB2_eq _ ha hb (by simp [stageB1, stageA1, stageA05, stageA0, ha]), hman, hexp]
  split
  · rfl
  · rw [hsign (by omega)]

/-- A zero accumulator takes the addend. -/
theorem fp32Add_zero_left (ha : Fp32Zero a) :
    fp32Add a b = if fp32IsZero b then 0#32 else b := by
  simp [fp32Add, stageB2, stageB1, stageA1, stageA05, stageA0, fp32IsZero_iff.mpr ha]

/-- A zero addend leaves the accumulator. -/
theorem fp32Add_zero_right (hb : Fp32Zero b) :
    fp32Add a b = if fp32IsZero a then 0#32 else a := by
  cases ha : fp32IsZero a <;>
    simp [fp32Add, stageB2, stageB1, stageA1, stageA05, stageA0, fp32IsZero_iff.mpr hb, ha]

end Stages

/-! ## the pattern of a sum -/

section Packed

variable {s : Bool} {e n : Nat}

theorem exponent_packedSum :
    ((packedSum s e n).extractLsb' 23 8).toNat = (e + 233 + n.log2) % 256 := by
  rw [packedSum, BinaryFloat.exponent_packed, BitVec.toNat_ofNat]

theorem mantissa_packedSum :
    ((packedSum s e n).extractLsb' 0 23).toNat = BinaryFloat.mantissa 23 n := by
  rw [packedSum, BinaryFloat.mantissa_packed, BitVec.toNat_ofNat,
    Nat.mod_eq_of_lt (BinaryFloat.mantissa_lt 23 n)]

/-- With an exponent in range it is the truncated sum. -/
theorem fp32Value_packedSum (hn : n ≠ 0) (h0 : 23 < e + n.log2) (h255 : e + n.log2 < 278) :
    fp32Value (packedSum s e n) =
      BinaryFloat.sign s * (BinaryFloat.truncate 23 n * 2 ^ (e - 150 : Int)) := by
  have hexp := @exponent_packedSum s e n
  have hne : (packedSum s e n).extractLsb' 23 8 ≠ 0 := fun h => by
    rw [h] at hexp
    change 0 = _ at hexp
    omega
  have hpow : ((packedSum s e n).extractLsb' 23 8).toNat - 150 =
      (n.log2 : Int) + (-23 + (e - 150)) := by
    rw [hexp]
    omega
  have hmul : ((2 ^ 23 + BinaryFloat.mantissa 23 n : Nat) : ℚ) * 2 ^ n.log2 =
      BinaryFloat.truncate 23 n * 2 ^ 23 := by
    exact_mod_cast BinaryFloat.mantissa_mul 23 hn
  rw [fp32Value_of_exponent hne, hpow, mantissa_packedSum, zpow_add₀ (by decide),
    zpow_add₀ (by decide), zpow_natCast, ← mul_assoc _ ((2 : ℚ) ^ n.log2), hmul, packedSum,
    BinaryFloat.msb_packed]
  congr 1
  rw [mul_assoc, ← mul_assoc _ ((2 : ℚ) ^ (-23 : Int))]
  norm_num

/-- Below the range only the first exponent is zero, the others wrap around. -/
theorem fp32Zero_packedSum (h : e + n.log2 ≤ 23) : Fp32Zero (packedSum s e n) ↔
    e + n.log2 = 23 ∧ BinaryFloat.mantissa 23 n = 0 := by
  rw [fp32Zero_iff, ← BitVec.toNat_inj, ← BitVec.toNat_inj, exponent_packedSum, mantissa_packedSum]
  change _ = 0 ∧ _ = 0 ↔ _
  omega

theorem fp32Infinity_packedSum (h : e + n.log2 = 278) : Fp32Infinity (packedSum s e n) ↔
    BinaryFloat.mantissa 23 n = 0 := by
  rw [Fp32Infinity, ← BitVec.toNat_inj, ← BitVec.toNat_inj, exponent_packedSum, mantissa_packedSum]
  change _ = 255 ∧ _ = 0 ↔ _
  omega

end Packed

/-! ## against the reference -/

section Reference

variable {a b : Float32T}

/-- The range of a sum that is not zero, by the place of its leading one. -/
theorem sumReference_ranges (hn : (alignedSum a b).natAbs ≠ 0) :
    sumReference a b ≠ 0 ∧
    (Fp32Normal (sumReference a b) ↔ 23 < alignedExp a b + (alignedSum a b).natAbs.log2 ∧
      alignedExp a b + (alignedSum a b).natAbs.log2 < 278) ∧
    (|sumReference a b| < 2 ^ (-126 : Int) ↔
      alignedExp a b + (alignedSum a b).natAbs.log2 ≤ 23) ∧
    (2 ^ (128 : Int) ≤ |sumReference a b| ↔
      278 ≤ alignedExp a b + (alignedSum a b).natAbs.log2) := by
  have hlog := BinaryFloat.log2_truncate 23 hn
  have hle := BinaryFloat.pow_log2_le_truncate 23 hn
  have hpos := Nat.two_pow_pos (alignedSum a b).natAbs.log2
  have ht : BinaryFloat.truncate 23 (alignedSum a b).natAbs ≠ 0 := by omega
  refine ⟨fun h => ?_, ?_, ?_, ?_⟩
  · have habs := abs_scaled (decide (alignedSum a b < 0))
      (BinaryFloat.truncate 23 (alignedSum a b).natAbs) (alignedExp a b - 150)
    rw [← sumReference, h, abs_zero] at habs
    exact (mul_ne_zero (Nat.cast_ne_zero.mpr ht) (zpow_ne_zero _ (by decide))) habs.symm
  · rw [sumReference, fp32Normal_iff ht, hlog]
    omega
  · rw [sumReference, underflow_iff ht, hlog]
    omega
  · rw [sumReference, overflow_iff ht, hlog]
    omega

/-- The sums that are powers of two. -/
theorem abs_sumReference_eq (hn : (alignedSum a b).natAbs ≠ 0) {i : Int} :
    |sumReference a b| = 2 ^ i ↔ alignedExp a b + (alignedSum a b).natAbs.log2 = i + 150 ∧
      BinaryFloat.mantissa 23 (alignedSum a b).natAbs = 0 := by
  have hlog := BinaryFloat.log2_truncate 23 hn
  have hle := BinaryFloat.pow_log2_le_truncate 23 hn
  have hpos := Nat.two_pow_pos (alignedSum a b).natAbs.log2
  rw [sumReference, abs_scaled, BinaryFloat.two_zpow_eq_iff (by omega), hlog,
    BinaryFloat.mantissa_eq_zero_iff hn]
  omega

theorem sumReference_of_zero (hn : (alignedSum a b).natAbs = 0) : sumReference a b = 0 := by
  simp [sumReference, hn, BinaryFloat.truncate]

/-- When the reference is zero any zero will do. -/
theorem addExact_of_zero (h : sumReference a b = 0) {r : Float32T} (hr : Fp32Zero r) :
    AddExact a b r ∧ AddFits a b := by
  refine ⟨⟨fun _ => ?_, fun hne => absurd h hne, fun ho => absurd (h ▸ ho) not_overflow_zero⟩,
    fun hn => absurd (h ▸ hn) not_fp32Normal_zero, fun hne => absurd h hne,
    fun ho => absurd (h ▸ ho) not_overflow_zero⟩
  rw [fp32Value_of_zero hr, h]

/-- One unit is flushed: right below the range, wrong in it. -/
theorem addExact_unit (hexp : alignedExp a b < 255) (h1 : (alignedSum a b).natAbs = 1) :
    AddExact a b 0#32 ↔ AddFits a b := by
  have hlog : (alignedSum a b).natAbs.log2 = 0 := by
    rw [h1]
    rfl
  obtain ⟨hne, -, -, hover⟩ := @sumReference_ranges a b (by omega)
  constructor
  · intro h
    refine ⟨fun hn => ?_, fun _ _ => .inl h1, fun ho => ?_⟩
    · have hvalue := h.exact (.inr hn)
      rw [fp32Value_of_zero (show Fp32Zero 0#32 from rfl)] at hvalue
      exact absurd hvalue.symm hne
    · have := hover.mp ho
      omega
  · rintro ⟨hn, -, -⟩
    have hnormal : ¬ Fp32Normal (sumReference a b) := fun h => hn h h1
    refine ⟨fun h => absurd (h.resolve_left hne) hnormal, fun _ _ => rfl, fun ho => ?_⟩
    have := hover.mp ho
    omega

/-- More is normalized, and out of range it is only right without a mantissa. -/
theorem addExact_packedSum (hexp : alignedExp a b < 255) (h1 : 1 < (alignedSum a b).natAbs)
    (hlt : (alignedSum a b).natAbs < 2 ^ 25) :
    AddExact a b
      (packedSum (decide (alignedSum a b < 0)) (alignedExp a b) (alignedSum a b).natAbs) ↔
      AddFits a b := by
  have h0 : (alignedSum a b).natAbs ≠ 0 := by omega
  have hlog : (alignedSum a b).natAbs.log2 < 25 := (Nat.log2_lt h0).mpr hlt
  obtain ⟨hne, hrange, hunder, hover⟩ := sumReference_ranges h0
  have hhalf := @abs_sumReference_eq a b h0 (-127)
  have hfirst := @abs_sumReference_eq a b h0 128
  constructor
  · intro h
    refine ⟨fun _ => by omega, fun _ hu => ?_, fun ho => ?_⟩
    · have hzero := (fp32Zero_packedSum (hunder.mp hu)).mp (h.zero hne hu)
      exact .inr (hhalf.mpr ⟨by omega, hzero.2⟩)
    · have hplace := hover.mp ho
      have hman := (fp32Infinity_packedSum (by omega)).mp (h.infinity ho)
      exact hfirst.mpr ⟨by omega, hman⟩
  · rintro ⟨-, hu, ho⟩
    refine ⟨fun h => ?_, fun _ h => ?_, fun h => ?_⟩
    · have hplace := hrange.mp (h.resolve_left hne)
      exact fp32Value_packedSum h0 hplace.1 hplace.2
    · have hplace := hhalf.mp ((hu hne h).resolve_left (by omega))
      exact (fp32Zero_packedSum (hunder.mp h)).mpr ⟨by omega, hplace.2⟩
    · have hplace := hfirst.mp (ho h)
      exact (fp32Infinity_packedSum (by omega)).mpr hplace.2

/-! ### a zero operand -/

theorem fp32Significand_of_zero (h : Fp32Zero a) : fp32Significand a = 0 := if_pos h

theorem alignedSum_comm (a b : Float32T) : alignedSum a b = alignedSum b a := by
  rw [alignedSum, alignedSum, Int.add_comm, alignedExp, alignedExp, Nat.max_comm]

theorem sumReference_comm (a b : Float32T) : sumReference a b = sumReference b a := by
  rw [sumReference, sumReference, alignedSum_comm, alignedExp, alignedExp, Nat.max_comm]

/-- Next to a zero the other operand is not shifted. -/
theorem alignedSum_zero_left (ha : Fp32Zero a) :
    alignedExp a b = (b.extractLsb' 23 8).toNat ∧
      alignedSum a b = signed b.msb (fp32Significand b) := by
  have hexp : alignedExp a b = (b.extractLsb' 23 8).toNat := by
    rw [alignedExp, exponent_of_zero ha, Nat.zero_max]
  refine ⟨hexp, ?_⟩
  rw [alignedSum, hexp, alignTo, alignTo, fp32Significand_of_zero ha, Nat.zero_div, Nat.sub_self,
    Nat.pow_zero, Nat.div_one]
  cases a.msb <;> simp [signed]

/-- The reference is the other operand. -/
theorem sumReference_zero_left (ha : Fp32Zero a) (hb : Fp32ZeroOrNormal b) :
    sumReference a b = fp32Value b := by
  obtain ⟨hexp, hsum⟩ := alignedSum_zero_left (b := b) ha
  by_cases hz : Fp32Zero b
  · rw [sumReference_of_zero (by cases b.msb <;> simp [hsum, signed, fp32Significand_of_zero hz]),
      fp32Value_of_zero hz]
  · have hsig : fp32Significand b = 2 ^ 23 + (b.extractLsb' 0 23).toNat := if_neg hz
    have habs : (alignedSum a b).natAbs = fp32Significand b := by
      rw [hsum]
      cases b.msb <;> simp [signed]
    have hsign : decide (alignedSum a b < 0) = b.msb := by
      rw [hsum]
      cases b.msb <;> simp [signed]
      omega
    rw [sumReference, habs, hsign, hexp, BinaryFloat.truncate_eq_self (fp32Significand_lt b), hsig,
      fp32Value_of_exponent (hb.resolve_left hz).1]

/-- Whatever the reference is when it is an operand that is handed on. -/
theorem addExact_of_operand {r : Float32T} (hr : Fp32ZeroOrNormal r)
    (href : sumReference a b = fp32Value r) (habs : (alignedSum a b).natAbs = fp32Significand r) :
    AddExact a b (if fp32IsZero r then 0#32 else r) ∧ AddFits a b := by
  by_cases hz : Fp32Zero r
  · rw [if_pos (fp32IsZero_iff.mpr hz)]
    exact addExact_of_zero (href.trans (fp32Value_of_zero hz)) rfl
  · have hsig : fp32Significand r = 2 ^ 23 + (r.extractLsb' 0 23).toNat := if_neg hz
    have hn := hr.normal hz
    rw [← href] at hn
    have hunder : ¬ |sumReference a b| < 2 ^ (-126 : Int) := not_lt.mpr hn.1
    have hover : ¬ 2 ^ (128 : Int) ≤ |sumReference a b| := not_le.mpr hn.2
    rw [if_neg (mt fp32IsZero_iff.mp hz)]
    exact ⟨⟨fun _ => href.symm, fun _ hu => absurd hu hunder, fun ho => absurd ho hover⟩,
      fun _ => by omega, fun _ hu => absurd hu hunder, fun ho => absurd ho hover⟩

end Reference

/-! ## when it is the reference -/

/-- The addition itself. -/
theorem addExact_fp32Add {a b : Float32T} (ha : Fp32ZeroOrNormal a) (hb : Fp32ZeroOrNormal b) :
    AddExact a b (fp32Add a b) ↔ AddFits a b := by
  have hnat : ∀ s n, (signed s n).natAbs = n := fun s n => by cases s <;> simp [signed]
  by_cases hza : Fp32Zero a
  · have h := addExact_of_operand hb (sumReference_zero_left hza hb)
      (by rw [(alignedSum_zero_left hza).2, hnat])
    rw [fp32Add_zero_left hza]
    exact iff_of_true h.1 h.2
  by_cases hzb : Fp32Zero b
  · have h := addExact_of_operand ha (by rw [sumReference_comm, sumReference_zero_left hzb ha])
      (by rw [alignedSum_comm, (alignedSum_zero_left hzb).2, hnat])
    rw [fp32Add_zero_right hzb]
    exact iff_of_true h.1 h.2
  obtain ⟨-, hea⟩ := ha.exponent hza
  obtain ⟨-, heb⟩ := hb.exponent hzb
  have hexp : alignedExp a b < 255 := Nat.max_lt.mpr ⟨hea, heb⟩
  rw [fp32Add_eq hza hzb]
  split
  · next hle =>
      obtain h0 | h1 : (alignedSum a b).natAbs = 0 ∨ (alignedSum a b).natAbs = 1 := by omega
      · have h := addExact_of_zero (sumReference_of_zero h0) (show Fp32Zero 0#32 from rfl)
        exact iff_of_true h.1 h.2
      · exact addExact_unit hexp h1
  · next hlt =>
      exact addExact_packedSum hexp (Nat.lt_of_not_le hlt) ((stages_sum a b).1 ▸ BitVec.isLt _)

/-- **The addition**: what is issued between two operands that are zeros or normal is at
the output six cycles later, and it is the reference under the conditions of `AddFits`. -/
theorem addExact_iff (s : Fp32Acc) (i : Nat → Fp32AccIn) {n : Nat} (hen : (i n).accEn = true)
    (hclear : ∀ k, n ≤ k → k < n + 6 → (i k).accClear = false)
    (hacc : Fp32ZeroOrNormal (run Fp32Acc.step s i n).accFb)
    (hadd : Fp32ZeroOrNormal (i n).addend) :
    AddExact (run Fp32Acc.step s i n).accFb (i n).addend (run Fp32Acc.step s i (n + 6)).accOut ↔
      AddFits (run Fp32Acc.step s i n).accFb (i n).addend := by
  have hfb := Fp32Acc.accFb_add_five (a := run Fp32Acc.step s i) (x := i) run_succ
    (fun k hk hkn => hclear k hk (by omega))
  rw [if_pos hen] at hfb
  have hout : (run Fp32Acc.step s i (n + 6)).accOut =
      fp32Add (run Fp32Acc.step s i n).accFb (i n).addend := by
    rw [Fp32Acc.accOut, run_succ, Fp32Acc.accReg_step _ (hclear (n + 5) (by omega) (by omega)), hfb]
  rw [hout, addExact_fp32Add hacc hadd]

/-- Two addends six cycles apart. -/
def addendPair (x y : Float32T) : Nat → Fp32AccIn := fun k =>
  { addend := if k = 0 then x else y, accEn := k == 0 || k == 6, accClear := false }

/-- The accumulator on two addends. -/
def pairRun (x y : Float32T) : Nat → Fp32Acc := run Fp32Acc.step Fp32Acc.reset (addendPair x y)

/-- The sum of 1.5 and -2.25. -/
theorem addExact_pair : AddExact (pairRun 0x3FC00000#32 0xC0100000#32 6).accFb 0xC0100000#32
    (pairRun 0x3FC00000#32 0xC0100000#32 12).accOut := by
  have hacc : (pairRun 0x3FC00000#32 0xC0100000#32 6).accFb = 0x3FC00000#32 := by decide +kernel
  have hiff := addExact_iff Fp32Acc.reset (addendPair 0x3FC00000#32 0xC0100000#32) (n := 6) rfl
    (fun _ _ _ => rfl) (.inr (by decide +kernel)) (.inr (by decide))
  obtain ⟨-, -, hunder, hover⟩ := @sumReference_ranges 0x3FC00000#32 0xC0100000#32 (by decide)
  refine hiff.mpr ?_
  change AddFits (pairRun _ _ 6).accFb 0xC0100000#32
  rw [hacc]
  exact ⟨fun _ => by decide, fun _ h => absurd (hunder.mp h) (by decide),
    fun h => absurd (hover.mp h) (by decide)⟩

/-- The second addition of a pair misses its reference. -/
def PairFails (x y : Float32T) : Prop :=
  (Fp32ZeroOrNormal (pairRun x y 6).accFb ∧ Fp32ZeroOrNormal y) ∧
    ¬ AddExact (pairRun x y 6).accFb y (pairRun x y 12).accOut

/-- The last unit is flushed, a small difference becomes an infinity and a large sum a NaN. -/
theorem not_addExact_pairs :
    PairFails 0x3F800001#32 0xBF800000#32 ∧ PairFails 0x00A00000#32 0x80800000#32 ∧
    PairFails 0x7F7FFFFF#32 0x7F7FFFFF#32 := by
  refine ⟨⟨⟨.inr (by decide +kernel), .inr (by decide)⟩, ?_⟩,
    ⟨⟨.inr (by decide +kernel), .inr (by decide)⟩, ?_⟩,
    ⟨⟨.inr (by decide +kernel), .inr (by decide)⟩, ?_⟩⟩
  · have hacc : (pairRun 0x3F800001#32 0xBF800000#32 6).accFb = 0x3F800001#32 := by decide +kernel
    have hout : (pairRun 0x3F800001#32 0xBF800000#32 12).accOut = 0#32 := by decide +kernel
    obtain ⟨hne, hrange, -⟩ := @sumReference_ranges 0x3F800001#32 0xBF800000#32 (by decide)
    rw [hacc, hout]
    intro h
    have hvalue := h.exact (.inr (hrange.mpr (by decide)))
    rw [fp32Value_of_zero (show Fp32Zero 0#32 from rfl)] at hvalue
    exact hne hvalue.symm
  · have hacc : (pairRun 0x00A00000#32 0x80800000#32 6).accFb = 0x00A00000#32 := by decide +kernel
    have hout : (pairRun 0x00A00000#32 0x80800000#32 12).accOut = 0x7F800000#32 := by
      decide +kernel
    obtain ⟨hne, -, hunder, -⟩ := @sumReference_ranges 0x00A00000#32 0x80800000#32 (by decide)
    rw [hacc, hout]
    intro h
    exact absurd (fp32Zero_iff.mp (h.zero hne (hunder.mpr (by decide)))).1 (by decide)
  · have hacc : (pairRun 0x7F7FFFFF#32 0x7F7FFFFF#32 6).accFb = 0x7F7FFFFF#32 := by decide +kernel
    have hout : (pairRun 0x7F7FFFFF#32 0x7F7FFFFF#32 12).accOut = 0x7FFFFFFF#32 := by
      decide +kernel
    obtain ⟨-, -, -, hover⟩ := @sumReference_ranges 0x7F7FFFFF#32 0x7F7FFFFF#32 (by decide)
    rw [hacc, hout]
    intro h
    exact absurd (h.infinity (hover.mpr (by decide))).2 (by decide)

end Lliu
