import Lliu.FeatureExtractorV2.Vwap

/-!
# Lliu.FeatureExtractorV2.Bf16

The conversion to bfloat16.  `mag_to_bf16` counts the leading zeros and shifts in one
go; the pipeline registers the count, of five bits, in between, and does so two stages
later for the high half.  Both give the magnitude truncated to eight significant bits,
unless the magnitude is zero and not marked as such: then the count of 32 does not fit
(`converted_iff_zero_marked`).  This happens to the quotient of feature 30, whose mark is
that of the volume (`converted_of_pulse`).
-/

namespace Lliu

open Hdl

/-! ## one magnitude -/

/-- The exponent from the registered count, as from the count itself. -/
theorem expV_eq (lz : Fin 32) :
    158#8 - (BitVec.ofNat 5 lz).setWidth 8 = BitVec.ofInt 8 (127 + 31 - lz) := by
  revert lz
  decide

/-- The shift amount of six bits has room for 32. -/
theorem shift_eq (lz : Fin 32) : ((BitVec.ofNat 5 lz).setWidth 6 + 1#6).toNat = lz + 1 := by
  revert lz
  decide

/-- The count and the shift in two stages are the count and the shift in one, as long as the
count has five bits. -/
theorem norm_bf16 {x : SignMag} (h : x.zero = true ∨ x.mag ≠ 0) :
    x.norm.bf16 = magToBf16 x.zero x.sgn x.mag := by
  cases hzero : x.zero with
  | true => simp [SignMag.norm, NormMag.bf16, magToBf16, hzero]
  | false =>
      have hne : x.mag ≠ 0 := h.resolve_left (by simp [hzero])
      have hlz : leadingZeros x.mag < 32 := by rw [leadingZeros_eq hne]; omega
      simp only [SignMag.norm, NormMag.bf16, magToBf16, hzero, Bool.false_eq_true, if_false,
        BitVec.shiftLeft_eq']
      rw [expV_eq ⟨_, hlz⟩, shift_eq ⟨_, hlz⟩]

/-- The one-shot bfloat16 of the magnitude, and its value the magnitude truncated toward
zero to eight significant bits. -/
def Converted (x : SignMag) (b : Bfloat16T) : Prop :=
  b = magToBf16 x.zero x.sgn x.mag ∧
    bf16Value b = if x.sgn then -(BinaryFloat.truncate 7 x.mag.toNat : ℚ)
      else BinaryFloat.truncate 7 x.mag.toNat

/-- A count of 32 is registered as a count of zero. -/
theorem norm_bf16_ne {x : SignMag} (hzero : x.zero = false) (hmag : x.mag = 0) :
    x.norm.bf16 ≠ magToBf16 x.zero x.sgn x.mag := by
  obtain ⟨mag, sgn, zero⟩ := x
  obtain rfl : zero = false := hzero
  obtain rfl : mag = 0 := hmag
  cases sgn <;> decide

/-- The split conversion is right if and only if zeros, and nothing else, are marked. -/
theorem converted_iff (x : SignMag) : Converted x x.norm.bf16 ↔ x.zero = (x.mag == 0) := by
  cases hzero : x.zero with
  | true =>
      have hbf16 : x.norm.bf16 = 0 := by simp [SignMag.norm, NormMag.bf16, hzero]
      rw [Converted, hbf16, hzero, bf16Value_zero]
      by_cases hmag : x.mag = 0
      · simp [hmag, magToBf16, BinaryFloat.truncate]
      · have hn : x.mag.toNat ≠ 0 := fun h0 => hmag (BitVec.eq_of_toNat_eq h0)
        have hlead := BinaryFloat.pow_log2_le_truncate 7 hn
        have hpos : BinaryFloat.truncate 7 x.mag.toNat ≠ 0 :=
          Nat.ne_of_gt (Nat.lt_of_lt_of_le (Nat.two_pow_pos _) hlead)
        have hmark : (x.mag == 0) = false := beq_eq_false_iff_ne.mpr hmag
        have hvalue : (0 : ℚ) ≠ if x.sgn then -(BinaryFloat.truncate 7 x.mag.toNat : ℚ)
            else BinaryFloat.truncate 7 x.mag.toNat := by
          have hcast : (BinaryFloat.truncate 7 x.mag.toNat : ℚ) ≠ 0 := Nat.cast_ne_zero.mpr hpos
          cases x.sgn with
          | true => exact (neg_ne_zero.mpr hcast).symm
          | false => exact hcast.symm
        rw [hmark]
        exact ⟨fun h => absurd h.2 hvalue, fun h => absurd h (by decide)⟩
  | false =>
      by_cases hmag : x.mag = 0
      · have hmark : (x.mag == 0) = true := beq_iff_eq.mpr hmag
        rw [hmark]
        exact ⟨fun h => absurd h.1 (norm_bf16_ne hzero hmag), fun h => absurd h (by decide)⟩
      · have hmark : (x.mag == 0) = false := beq_eq_false_iff_ne.mpr hmag
        rw [hmark, Converted, norm_bf16 (.inr hmag), hzero, bf16Value_magToBf16 hmag]
        simp

/-! ## the pipeline -/

namespace FeatureExtractorV2

/-- The outputs three cycles after stage 2. -/
theorem features_of_validD2 {s : FeatureExtractorV2} (h : s.validD2 = true)
    (i₀ i₁ i₂ : FeatureExtractorV2In) (k : Fin 32) :
    (((s.step i₀).step i₁).step i₂).features k = (s.s2 k).norm.bf16 := by
  rw [outputs_of_validD2 h, outputs]
  have hk := k.isLt
  by_cases hlow : k.val < 16
  · exact dif_pos hlow
  · have hhigh : k.val - 16 < 16 := by omega
    simp only [dif_neg hlow, dif_pos hhigh, highHalf, Nat.sub_add_cancel (Nat.le_of_not_lt hlow)]

/-- Whatever stage 2 holds, at each position the outputs three cycles later are converted
if and only if zeros are marked; below 256 the truncation is exact, and it is monotone. -/
theorem converted_iff_zero_marked {s : FeatureExtractorV2} (h : s.validD2 = true)
    (i₀ i₁ i₂ : FeatureExtractorV2In) (k : Fin 32) :
    (Converted (s.s2 k) ((((s.step i₀).step i₁).step i₂).features k) ↔
      (s.s2 k).zero = ((s.s2 k).mag == 0)) ∧
    (∀ n < 256, BinaryFloat.truncate 7 n = n) ∧ Monotone (BinaryFloat.truncate 7) := by
  rw [features_of_validD2 h]
  exact ⟨converted_iff _, fun n hn => BinaryFloat.truncate_eq_self hn, BinaryFloat.truncate_mono 7⟩

/-- A signed feature and its magnitude are zero together. -/
theorem zero_signed (x : BitVec 32) :
    (SignMag.signed x).zero = ((SignMag.signed x).mag == 0) := by
  have hneg : ~~~x + 1 = 0 ↔ x = 0 := by
    have hnot : ~~~x + 1 = -x := (BitVec.neg_eq_not_add x).symm
    rw [hnot, neg_eq_zero]
  rw [SignMag.signed, Bool.eq_iff_iff, beq_iff_eq, beq_iff_eq]
  split
  · exact hneg.symm
  · exact Iff.rfl

/-- Stage 2 marks the zeros of all features but the quotient, which it marks by its
volume. -/
theorem zero_signMag_iff (s : FeatStage1) (k : Fin 32) :
    (s.signMag k).zero = ((s.signMag k).mag == 0) ↔
      (k = 30 → s.volSum ≠ 0 → (s.pxVolSum >>> msbPos27 s.volSum).setWidth 32 ≠ 0#32) := by
  by_cases hk : k = 30
  · obtain rfl := hk
    have hvwap : s.signMag 30 = .vwap s.pxVolSum s.volSum := rfl
    rw [hvwap, SignMag.vwap]
    by_cases hvol : s.volSum = 0
    · simp [hvol]
    · have hmark : (s.volSum == 0) = false := beq_eq_false_iff_ne.mpr hvol
      rw [if_neg hvol, hmark, eq_comm, beq_eq_false_iff_ne]
      exact ⟨fun h _ _ => h, fun h => h rfl hvol⟩
  · refine iff_of_true ?_ fun h => absurd h hk
    unfold FeatStage1.signMag
    split_ifs
    · rfl
    · exact zero_signed _
    all_goals rfl

/-- **Position 30**: in the vector of a message everything is converted but a quotient of
zero with a volume that is not. -/
theorem converted_of_pulse {i : Nat → FeatureExtractorV2In} {t : Nat}
    (hv : (i t).fieldsValid = true) (k : Fin 32) :
    Converted ((trace i (t + 4)).s2 k) ((trace i (t + 7)).features k) ↔
      (k = 30 → (trace i (t + 3)).s1.volSum ≠ 0 →
        ((trace i (t + 3)).s1.pxVolSum >>>
          msbPos27 (trace i (t + 3)).s1.volSum).setWidth 32 ≠ 0#32) := by
  have hvalid : (trace i (t + 4)).validD2 = true := hv
  have hout := features_of_validD2 hvalid (i (t + 4)) (i (t + 5)) (i (t + 6)) k
  rw [← zero_signMag_iff, ← s2_of_pulse hv, ← converted_iff, ← hout]
  rfl

/-- The price of a first message is converted. -/
theorem converted_oneMessage :
    Converted ((trace (oneMessage 0 0) 5).s2 3) ((trace (oneMessage 0 0) 8).features 3) :=
  ((converted_iff_zero_marked (s := trace (oneMessage 0 0) 5) rfl (oneMessage 0 0 5)
    (oneMessage 0 0 6) (oneMessage 0 0 7) 3).1).mpr (by decide +kernel)

/-- The quotient of its stale product, zero, is not: it comes out as `2^31`. -/
theorem not_converted_oneMessage : (trace (oneMessage 0 0) 5).validD2 = true ∧
    ((trace (oneMessage 0 0) 5).s2 30).mag = 0 ∧ (trace (oneMessage 0 0) 8).features 30 = 0x4F00 ∧
    ¬ Converted ((trace (oneMessage 0 0) 5).s2 30) ((trace (oneMessage 0 0) 8).features 30) := by
  refine ⟨rfl, by decide +kernel, by decide +kernel, fun h => ?_⟩
  have hshot := h.1
  revert hshot
  decide +kernel

end FeatureExtractorV2

end Lliu
