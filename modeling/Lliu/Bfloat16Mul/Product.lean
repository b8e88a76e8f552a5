import Lliu.Bfloat16Mul
import Lliu.Float32
import Lliu.MagToBf16

/-!
# Lliu.Bfloat16Mul.Product

The product against the numbers.  Two significands of eight bits have a product of 15 or
16 bits.  With 16 the lowest one is dropped, and an exponent that is too large leaves the
mantissa as it is, so the pattern is that of a NaN.  All other products of normal numbers
are exact (`productExact_iff`).
-/

namespace Lliu

open Hdl

/-! ## what the product should be -/

/-- A zero, or a normal bfloat16. -/
def Bf16ZeroOrNormal (a : Bfloat16T) : Prop :=
  a.extractLsb' 0 15 = 0 ∨ a.extractLsb' 7 8 ≠ 0 ∧ a.extractLsb' 7 8 ≠ 0xFF#8

/-- The product of the numbers where float32 has it, zeros below and infinities beyond. -/
structure ProductExact (a b : Bfloat16T) (r : Float32T) : Prop where
  exact : Fp32Normal (bf16Value a * bf16Value b) → fp32Value r = bf16Value a * bf16Value b
  zero : |bf16Value a * bf16Value b| < 2 ^ (-126 : Int) → Fp32Zero r ∧ r.msb = (a.msb ^^ b.msb)
  infinity : 2 ^ (128 : Int) ≤ |bf16Value a * bf16Value b| →
    Fp32Infinity r ∧ r.msb = (a.msb ^^ b.msb)

/-- The significand of a normal number. -/
def bf16Significand (a : Bfloat16T) : Nat := 2 ^ 7 + (a.extractLsb' 0 7).toNat

/-- The product of the significands, of 15 or 16 bits. -/
def productMan (a b : Bfloat16T) : Nat := bf16Significand a * bf16Significand b

/-- In range, a product of 16 bits is even; beyond, both are powers of two. -/
def ProductFits (a b : Bfloat16T) : Prop :=
  (Fp32Normal (bf16Value a * bf16Value b) → 2 ^ 15 ≤ productMan a b → productMan a b % 2 = 0) ∧
  (2 ^ (128 : Int) ≤ |bf16Value a * bf16Value b| →
    a.extractLsb' 0 7 = 0 ∧ b.extractLsb' 0 7 = 0)

/-! ## operands -/

section Operand

variable {a : Bfloat16T}

theorem bf16IsZero_iff : bf16IsZero a = true ↔ a.extractLsb' 0 15 = 0 := by
  rw [bf16IsZero, beq_iff_eq]
  rfl

theorem bf16Value_of_isZero (h : bf16IsZero a = true) : bf16Value a = 0 :=
  BinaryFloat.value_of_zero (bf16IsZero_iff.mp h)

/-- An operand with an exponent is not zero. -/
theorem bf16IsZero_of_exponent (h : a.extractLsb' 7 8 ≠ 0) : bf16IsZero a = false := by
  rw [Bool.eq_false_iff]
  intro hzero
  exact h ((BinaryFloat.zero_iff (k := 8) rfl).mp (bf16IsZero_iff.mp hzero)).1

theorem bf16Value_of_exponent (h : a.extractLsb' 7 8 ≠ 0) : bf16Value a =
    BinaryFloat.sign a.msb * (bf16Significand a * 2 ^ ((a.extractLsb' 7 8).toNat - 134 : Int)) := by
  rw [bf16Value, BinaryFloat.value_of_exponent (k := 8) rfl h]
  congr 3
  omega

theorem toNat_bf16Man (h : a.extractLsb' 7 8 ≠ 0) : (bf16Man a).toNat = bf16Significand a := by
  have hlt := (a.extractLsb' 0 7).isLt
  have hne : (a.extractLsb' 7 8 != 0#8) = true := bne_iff_ne.mpr h
  rw [bf16Man, if_pos hne, BitVec.toNat_append,
    ← Nat.shiftLeft_add_eq_or_of_lt hlt, bf16Significand]
  rfl

theorem bf16Significand_bounds (a : Bfloat16T) :
    2 ^ 7 ≤ bf16Significand a ∧ bf16Significand a < 2 ^ 8 := by
  have hlt := (a.extractLsb' 0 7).isLt
  rw [bf16Significand]
  omega

end Operand

/-! ## the product of normal operands -/

section Product

variable {a b : Bfloat16T}

/-- The exponent of the product: the exponents with one bias, and a carry out of 15 bits. -/
def productExp (a b : Bfloat16T) : Int :=
  (a.extractLsb' 7 8).toNat + (b.extractLsb' 7 8).toNat - 127 + (productMan a b / 2 ^ 15 : Nat)

theorem productMan_bounds (a b : Bfloat16T) : 2 ^ 14 ≤ productMan a b ∧ productMan a b < 2 ^ 16 := by
  obtain ⟨hla, hua⟩ := bf16Significand_bounds a
  obtain ⟨hlb, hub⟩ := bf16Significand_bounds b
  have hlow : 2 ^ 7 * 2 ^ 7 ≤ productMan a b := Nat.mul_le_mul hla hlb
  have hhigh : productMan a b < 2 ^ 8 * 2 ^ 8 := Nat.mul_lt_mul'' hua hub
  omega

/-- The leading one is in one of two places. -/
theorem log2_productMan (a b : Bfloat16T) :
    (productMan a b).log2 = 14 + productMan a b / 2 ^ 15 := by
  obtain ⟨hlow, hhigh⟩ := productMan_bounds a b
  rw [Nat.log2_eq_iff (by omega)]
  obtain h | h : productMan a b / 2 ^ 15 = 0 ∨ productMan a b / 2 ^ 15 = 1 := by omega
  · rw [h]
    omega
  · rw [h]
    omega

theorem bf16Value_mul (ha : a.extractLsb' 7 8 ≠ 0) (hb : b.extractLsb' 7 8 ≠ 0) :
    bf16Value a * bf16Value b = BinaryFloat.sign (a.msb ^^ b.msb) * (productMan a b *
      2 ^ ((a.extractLsb' 7 8).toNat + (b.extractLsb' 7 8).toNat - 268 : Int)) := by
  rw [bf16Value_of_exponent ha, bf16Value_of_exponent hb, BinaryFloat.sign_xor, productMan,
    show ((a.extractLsb' 7 8).toNat + (b.extractLsb' 7 8).toNat - 268 : Int) =
      ((a.extractLsb' 7 8).toNat - 134) + ((b.extractLsb' 7 8).toNat - 134) by omega,
    zpow_add₀ (by decide)]
  push_cast
  ring

theorem toNat_manProductR (ha : a.extractLsb' 7 8 ≠ 0) (hb : b.extractLsb' 7 8 ≠ 0) :
    (bf16MulStage1 a b).manProductR.toNat = productMan a b := by
  have hman := (productMan_bounds a b).2
  have hwide : ∀ x : BitVec 8, (x.setWidth 16).toNat = x.toNat := fun x => by
    rw [BitVec.toNat_setWidth, Nat.mod_eq_of_lt (by omega)]
  rw [bf16MulStage1, BitVec.toNat_mul, hwide, hwide, toNat_bf16Man ha, toNat_bf16Man hb]
  exact Nat.mod_eq_of_lt hman

theorem toNat_expSumR (a b : Bfloat16T) : (bf16MulStage1 a b).expSumR.toNat =
    ((a.extractLsb' 7 8).toNat + (b.extractLsb' 7 8).toNat + 897) % 1024 := by
  rw [bf16MulStage1, BitVec.toNat_sub, BitVec.toNat_add, BitVec.toNat_setWidth,
    BitVec.toNat_setWidth]
  change (1024 - 127 + _ % 1024) % 1024 = _
  omega

theorem not_zeroR (ha : a.extractLsb' 7 8 ≠ 0) (hb : b.extractLsb' 7 8 ≠ 0) :
    ¬ ((bf16MulStage1 a b).aZeroR || (bf16MulStage1 a b).bZeroR) = true := by
  change ¬ (bf16IsZero a || bf16IsZero b) = true
  rw [bf16IsZero_of_exponent ha, bf16IsZero_of_exponent hb]
  decide

/-- The mantissa is the product below its leading one, without the lowest bit of sixteen. -/
theorem normalize_eq (ha : a.extractLsb' 7 8 ≠ 0) (hb : b.extractLsb' 7 8 ≠ 0) :
    2 ^ 23 + (bf16MulStage1 a b).normalize.1.toNat =
      productMan a b / 2 ^ (productMan a b / 2 ^ 15) * 2 ^ 9 ∧
    (bf16MulStage1 a b).normalize.2.toNat = ((a.extractLsb' 7 8).toNat +
      (b.extractLsb' 7 8).toNat + 897 + productMan a b / 2 ^ 15) % 1024 := by
  obtain ⟨hlow, hhigh⟩ := productMan_bounds a b
  have hbit : (bf16MulStage1 a b).manProductR.getLsbD 15 = decide (2 ^ 15 ≤ productMan a b) := by
    rw [← toNat_manProductR ha hb]
    exact BinaryFloat.getLsbD_top (BitVec.isLt _)
  rw [Bf16MulStage1.normalize, if_neg (not_zeroR ha hb), hbit]
  by_cases hcarry : 2 ^ 15 ≤ productMan a b
  · rw [if_pos (decide_eq_true hcarry), show productMan a b / 2 ^ 15 = 1 by omega,
      BitVec.toNat_append, BitVec.extractLsb'_toNat, toNat_manProductR ha hb, BitVec.toNat_add,
      toNat_expSumR]
    simp only [BitVec.toNat_zero, Nat.or_zero, Nat.shiftLeft_eq, Nat.shiftRight_eq_div_pow]
    change _ ∧ (_ % 1024 + 1) % 1024 = _
    omega
  · rw [if_neg (by simpa using hcarry), show productMan a b / 2 ^ 15 = 0 by omega,
      BitVec.toNat_append, BitVec.extractLsb'_toNat, toNat_manProductR ha hb, toNat_expSumR]
    simp only [BitVec.toNat_zero, Nat.or_zero, Nat.shiftLeft_eq, Nat.shiftRight_zero, Nat.pow_zero,
      Nat.div_one, Nat.add_zero, and_true]
    omega

/-- The exponent is cut off at zero and at all ones. -/
theorem toNat_clampExp (ha : a.extractLsb' 7 8 ≠ 0) (hb : b.extractLsb' 7 8 ≠ 0) :
    (bf16MulStage1 a b).clampExp.toNat = (max 0 (min 255 (productExp a b))).toNat := by
  have hea := (a.extractLsb' 7 8).isLt
  have heb := (b.extractLsb' 7 8).isLt
  have hman := productMan_bounds a b
  have hexp : productExp a b = (a.extractLsb' 7 8).toNat + (b.extractLsb' 7 8).toNat - 127 +
    (productMan a b / 2 ^ 15 : Nat) := rfl
  have hwide := (normalize_eq ha hb).2
  have hbit : ∀ i, (bf16MulStage1 a b).normalize.2.getLsbD i = true ↔
      (bf16MulStage1 a b).normalize.2.toNat / 2 ^ i % 2 = 1 := fun i => by
    rw [BitVec.getLsbD, Nat.testBit_eq_decide_div_mod_eq, decide_eq_true_iff]
  simp only [Bf16MulStage1.clampExp, if_neg (not_zeroR ha hb), hbit]
  split
  · -- bit 9 of ten is the sign
    change 0 = _
    omega
  · split
    · change 255 = _
      omega
    · rw [BitVec.extractLsb'_toNat, Nat.shiftRight_zero]
      omega

/-! ### the assembled product -/

theorem bf16Product_of_zero (h : bf16IsZero a = true ∨ bf16IsZero b = true) :
    bf16Product a b = BitVec.ofBool (a.msb ^^ b.msb) ++ 0#31 := by
  have hzero : ((bf16MulStage1 a b).aZeroR || (bf16MulStage1 a b).bZeroR) = true := by
    change (bf16IsZero a || bf16IsZero b) = true
    rwa [Bool.or_eq_true]
  rw [bf16Product, Bf16MulStage1.resultComb, hzero, Bool.true_or, if_pos rfl,
    BitVec.msb_eq_getLsbD_last, BitVec.msb_eq_getLsbD_last]
  rfl

theorem bf16Product_of_exponent (ha : a.extractLsb' 7 8 ≠ 0) (hb : b.extractLsb' 7 8 ≠ 0) :
    bf16Product a b = if productExp a b ≤ 0 then BitVec.ofBool (a.msb ^^ b.msb) ++ 0#31
      else BitVec.ofBool (a.msb ^^ b.msb) ++ (bf16MulStage1 a b).clampExp ++
        (bf16MulStage1 a b).normalize.1 := by
  have hclamp := toNat_clampExp ha hb
  have hsign : (bf16MulStage1 a b).rSignR = (a.msb ^^ b.msb) := by
    rw [BitVec.msb_eq_getLsbD_last, BitVec.msb_eq_getLsbD_last]
    rfl
  have hnz := not_zeroR ha hb
  rw [Bool.or_eq_true, not_or, Bool.not_eq_true, Bool.not_eq_true] at hnz
  have hflush : (bf16MulStage1 a b).clampExp = 0#8 ↔ productExp a b ≤ 0 := by
    rw [← BitVec.toNat_inj, hclamp]
    change _ = 0 ↔ _
    omega
  simp [bf16Product, Bf16MulStage1.resultComb, hnz.1, hnz.2, hsign, hflush]

/-- No product of two significands has sixteen bits and a leading one only. -/
theorem productMan_div_two_ne (a b : Bfloat16T) : productMan a b / 2 ≠ 2 ^ 14 := by
  have hnone : ∀ n ∈ [2 ^ 15, 2 ^ 15 + 1], ∀ s < 2 ^ 8, 2 ^ 7 ≤ s → n / s < 2 ^ 8 →
      s * (n / s) ≠ n := by decide +kernel
  obtain ⟨hla, hua⟩ := bf16Significand_bounds a
  obtain ⟨-, hub⟩ := bf16Significand_bounds b
  intro h
  have hdiv : productMan a b / bf16Significand a = bf16Significand b :=
    Nat.mul_div_cancel_left _ (by omega)
  refine hnone (productMan a b) ?_ _ hua hla (by rwa [hdiv]) (by rw [hdiv]; rfl)
  simp only [List.mem_cons, List.not_mem_nil, or_false]
  omega

/-! ### against the numbers -/

theorem log2_productMan_add (a b : Bfloat16T) : ((productMan a b).log2 +
    ((a.extractLsb' 7 8).toNat + (b.extractLsb' 7 8).toNat - 268) : Int) = productExp a b - 127 := by
  rw [log2_productMan, productExp]
  push_cast
  omega

/-- The range of the product, by its exponent. -/
theorem productExp_ranges (ha : a.extractLsb' 7 8 ≠ 0) (hb : b.extractLsb' 7 8 ≠ 0) :
    (Fp32Normal (bf16Value a * bf16Value b) ↔ 0 < productExp a b ∧ productExp a b < 255) ∧
    (|bf16Value a * bf16Value b| < 2 ^ (-126 : Int) ↔ productExp a b ≤ 0) ∧
    (2 ^ (128 : Int) ≤ |bf16Value a * bf16Value b| ↔ 255 ≤ productExp a b) := by
  have hn : productMan a b ≠ 0 := by have := productMan_bounds a b; omega
  rw [bf16Value_mul ha hb, fp32Normal_iff hn, underflow_iff hn, overflow_iff hn,
    log2_productMan_add]
  omega

theorem fp32Zero_signed (s : Bool) :
    Fp32Zero (BitVec.ofBool s ++ 0#31) ∧ (BitVec.ofBool s ++ 0#31 : Float32T).msb = s := by
  cases s <;> exact ⟨rfl, rfl⟩

theorem bf16Value_mul_of_zero (h : bf16IsZero a = true ∨ bf16IsZero b = true) :
    bf16Value a * bf16Value b = 0 := by
  obtain h | h := h <;> simp [bf16Value_of_isZero h]

theorem productExact_of_zero (h : bf16IsZero a = true ∨ bf16IsZero b = true) :
    ProductExact a b (bf16Product a b) := by
  rw [bf16Product_of_zero h]
  refine ⟨fun hn => absurd hn ?_, fun _ => fp32Zero_signed _, fun ho => absurd ho ?_⟩
  · rw [bf16Value_mul_of_zero h]
    exact not_fp32Normal_zero
  · rw [bf16Value_mul_of_zero h]
    exact not_overflow_zero

theorem productFits_of_zero (h : bf16IsZero a = true ∨ bf16IsZero b = true) : ProductFits a b := by
  rw [ProductFits, bf16Value_mul_of_zero h]
  exact ⟨fun hn => absurd hn not_fp32Normal_zero, fun ho => absurd ho not_overflow_zero⟩

/-- In range the product is the number when no bit of it was dropped. -/
theorem fp32Value_bf16Product (ha : a.extractLsb' 7 8 ≠ 0) (hb : b.extractLsb' 7 8 ≠ 0)
    (h0 : 0 < productExp a b) (h255 : productExp a b < 255) :
    fp32Value (bf16Product a b) = bf16Value a * bf16Value b ↔
      (2 ^ 15 ≤ productMan a b → productMan a b % 2 = 0) := by
  have hclamp := toNat_clampExp ha hb
  obtain ⟨hlow, hhigh⟩ := productMan_bounds a b
  have hne : (bf16MulStage1 a b).clampExp ≠ 0 := fun h => by
    rw [h] at hclamp
    change 0 = _ at hclamp
    omega
  have hsign : BinaryFloat.sign (a.msb ^^ b.msb) ≠ 0 := by
    cases a.msb ^^ b.msb <;> norm_num [BinaryFloat.sign]
  have hexp : ((bf16MulStage1 a b).clampExp.toNat - 150 : Int) = -9 +
      ((productMan a b / 2 ^ 15 : Nat) +
        ((a.extractLsb' 7 8).toNat + (b.extractLsb' 7 8).toNat - 268)) := by
    rw [hclamp]
    rw [productExp] at h0 h255 ⊢
    omega
  have hscale : ∀ (k n : Nat) (j : Int), ((k * 2 ^ 9 : Nat) : ℚ) * 2 ^ (-9 + (n + j)) =
      (k * 2 ^ n : Nat) * 2 ^ j := fun k n j => by
    rw [zpow_add₀ (by decide), zpow_add₀ (by decide), zpow_natCast]
    push_cast
    ring
  rw [bf16Product_of_exponent ha hb, if_neg (not_le.mpr h0), fp32Value_of_exponent
    (by rwa [BinaryFloat.exponent_packed]), BinaryFloat.exponent_packed, BinaryFloat.msb_packed,
    BinaryFloat.mantissa_packed, (normalize_eq ha hb).1, bf16Value_mul ha hb, hexp,
    hscale, mul_right_inj' hsign, mul_left_inj' (zpow_ne_zero _ (by decide)), Nat.cast_inj]
  obtain h | h : productMan a b / 2 ^ 15 = 0 ∨ productMan a b / 2 ^ 15 = 1 := by omega
  · rw [h]
    omega
  · rw [h]
    omega

/-- Beyond the range it is an infinity when there is no mantissa. -/
theorem fp32Infinity_bf16Product (ha : a.extractLsb' 7 8 ≠ 0) (hb : b.extractLsb' 7 8 ≠ 0)
    (h255 : 255 ≤ productExp a b) : Fp32Infinity (bf16Product a b) ∧
      (bf16Product a b).msb = (a.msb ^^ b.msb) ↔ a.extractLsb' 0 7 = 0 ∧ b.extractLsb' 0 7 = 0 := by
  obtain ⟨hlow, hhigh⟩ := productMan_bounds a b
  have hclamp : (bf16MulStage1 a b).clampExp = 0xFF#8 := BitVec.eq_of_toNat_eq <| by
    rw [toNat_clampExp ha hb]
    change _ = 255
    omega
  have hman := (normalize_eq ha hb).1
  have hodd := productMan_div_two_ne a b
  have hlead : productMan a b = 2 ^ 14 ↔ a.extractLsb' 0 7 = 0 ∧ b.extractLsb' 0 7 = 0 := by
    rw [← BitVec.toNat_inj, ← BitVec.toNat_inj, productMan, bf16Significand, bf16Significand]
    constructor
    · intro h
      have hzero : ∀ f g : Nat, (2 ^ 7 + f) * (2 ^ 7 + g) = 2 ^ 14 → f = 0 := fun f g h => by
        nlinarith
      exact ⟨hzero _ _ h, hzero _ _ (by rwa [Nat.mul_comm])⟩
    · rintro ⟨ha, hb⟩
      rw [ha, hb]
      rfl
  rw [bf16Product_of_exponent ha hb, if_neg (by omega), Fp32Infinity, BinaryFloat.exponent_packed,
    BinaryFloat.mantissa_packed, BinaryFloat.msb_packed, ← hlead, eq_self, and_true, hclamp,
    eq_self, true_and, ← BitVec.toNat_inj]
  change _ = 0 ↔ _
  obtain h | h : productMan a b / 2 ^ 15 = 0 ∨ productMan a b / 2 ^ 15 = 1 := by omega
  · rw [h, Nat.pow_zero, Nat.div_one] at hman
    omega
  · -- sixteen bits, of which the lowest is no longer there
    rw [h, Nat.pow_one] at hman
    omega

end Product

/-! ## when it is exact -/

theorem Bf16ZeroOrNormal.exponent {a : Bfloat16T} (h : Bf16ZeroOrNormal a)
    (hz : ¬ bf16IsZero a = true) : a.extractLsb' 7 8 ≠ 0 :=
  (h.resolve_left fun h0 => hz (bf16IsZero_iff.mpr h0)).1

/-- **The product**: two cycles after operands that are zeros or normal it is exact, a
signed zero or an infinity, but for the dropped bit and the mantissa of an infinity. -/
theorem productExact_iff (s : Bfloat16Mul) {a b : Bfloat16T} (a' b' : Bfloat16T)
    (ha : Bf16ZeroOrNormal a) (hb : Bf16ZeroOrNormal b) :
    ProductExact a b ((s.step a b).step a' b').result ↔ ProductFits a b := by
  rw [Bfloat16Mul.result_step_step]
  by_cases hzero : bf16IsZero a = true ∨ bf16IsZero b = true
  · exact iff_of_true (productExact_of_zero hzero) (productFits_of_zero hzero)
  rw [not_or] at hzero
  have ha := ha.exponent hzero.1
  have hb := hb.exponent hzero.2
  obtain ⟨hrange, hunder, hover⟩ := productExp_ranges ha hb
  constructor
  · intro h
    refine ⟨fun hn => ?_, fun ho => ?_⟩
    · have hexp := hrange.mp hn
      exact (fp32Value_bf16Product ha hb hexp.1 hexp.2).mp (h.exact hn)
    · exact (fp32Infinity_bf16Product ha hb (hover.mp ho)).mp (h.infinity ho)
  · rintro ⟨heven, hpow⟩
    refine ⟨fun hn => ?_, fun hu => ?_, fun ho => ?_⟩
    · have hexp := hrange.mp hn
      exact (fp32Value_bf16Product ha hb hexp.1 hexp.2).mpr (heven hn)
    · rw [bf16Product_of_exponent ha hb, if_pos (hunder.mp hu)]
      exact fp32Zero_signed _
    · exact (fp32Infinity_bf16Product ha hb (hover.mp ho)).mpr (hpow ho)

/-- The product of 1.5 and 1.25. -/
theorem productExact_one_five : ProductExact 0x3FC0#16 0x3FA0#16
    ((Bfloat16Mul.reset.step 0x3FC0#16 0x3FA0#16).step 0 0).result :=
  (productExact_iff Bfloat16Mul.reset 0 0 (.inr (by decide)) (.inr (by decide))).mpr
    ⟨fun _ h => absurd h (by decide), fun h => absurd h <| by
      rw [bf16Value_mul (by decide) (by decide), overflow_iff (by decide)]
      decide⟩

/-- The square of 1.9921875 has a bit too many, that of the greatest bfloat16 is a NaN. -/
theorem not_productExact_squares :
    (Bf16ZeroOrNormal 0x3FFF#16 ∧ ¬ ProductExact 0x3FFF#16 0x3FFF#16
      ((Bfloat16Mul.reset.step 0x3FFF#16 0x3FFF#16).step 0 0).result) ∧
    (Bf16ZeroOrNormal 0x7F7F#16 ∧ ¬ ProductExact 0x7F7F#16 0x7F7F#16
      ((Bfloat16Mul.reset.step 0x7F7F#16 0x7F7F#16).step 0 0).result) := by
  refine ⟨⟨.inr (by decide), fun h => ?_⟩, ⟨.inr (by decide), fun h => ?_⟩⟩
  · have hexp : 0 < productExp 0x3FFF#16 0x3FFF#16 ∧ productExp 0x3FFF#16 0x3FFF#16 < 255 := by
      decide
    have hnormal := (productExp_ranges (by decide) (by decide)).1.mpr hexp
    exact absurd ((fp32Value_bf16Product (by decide) (by decide) hexp.1 hexp.2).mp (h.exact hnormal))
      (by decide)
  · have hexp : 255 ≤ productExp 0x7F7F#16 0x7F7F#16 := by decide
    have hover := (productExp_ranges (by decide) (by decide)).2.2.mpr hexp
    exact absurd (h.infinity hover).1.2 (by decide)

end Lliu
