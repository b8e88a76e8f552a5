import Mathlib.Data.Rat.Defs
import Mathlib.Algebra.Order.Field.Rat
import Mathlib.Algebra.Order.Field.Power
import Mathlib.Tactic

/-!
# Hdl.BinaryFloat

The numbers that bit patterns of a binary floating-point format stand for: a sign bit,
an exponent and `m` mantissa bits.  An exponent of zero marks the subnormal numbers.
The patterns below the sign bit are in the order of their magnitudes, the next one
being one unit in the last place further (`scaled_succ`), so comparing patterns as
unsigned integers compares numbers without a sign, and the negative ones the other
way round.  An integer cut to the bits of a mantissa has a pattern of its own
(`value_integer`), and a pattern put together from sign, exponent and mantissa has these
as its fields.

The widths are parameters, and the exponent of all ones is read as any other: whoever
has infinities excludes them.
-/

namespace Hdl

namespace BinaryFloat

/-- The magnitude of the pattern `x` below the sign bit, in units of the smallest
subnormal number. -/
def scaled (m x : Nat) : Nat :=
  if x / 2 ^ m = 0 then x % 2 ^ m else (2 ^ m + x % 2 ^ m) * 2 ^ (x / 2 ^ m - 1)

/-- The number of a pattern, in these units. -/
def units (m : Nat) (b : BitVec w) : Int :=
  if b.msb then -scaled m (b.toNat % 2 ^ (w - 1)) else scaled m (b.toNat % 2 ^ (w - 1))

/-- The number of a pattern, for exponents with the given bias. -/
def value (m bias : Nat) (b : BitVec w) : ℚ := units m b * 2 ^ (1 - (bias : Int) - m)

/-! ## magnitudes -/

section Scaled

variable {m : Nat}

/-- The next pattern is one unit in the last place further. -/
theorem scaled_succ (m x : Nat) : scaled m (x + 1) = scaled m x + 2 ^ (x / 2 ^ m - 1) := by
  have hpos : 0 < 2 ^ m := Nat.two_pow_pos m
  obtain ⟨q, r, hr, rfl⟩ : ∃ q r, r < 2 ^ m ∧ x = 2 ^ m * q + r :=
    ⟨x / 2 ^ m, x % 2 ^ m, Nat.mod_lt _ hpos, (Nat.div_add_mod x _).symm⟩
  have hdiv : ∀ {q' r'}, r' < 2 ^ m → (2 ^ m * q' + r') / 2 ^ m = q' ∧ (2 ^ m * q' + r') % 2 ^ m = r' :=
    fun h => (Nat.div_mod_unique hpos).mpr ⟨Nat.add_comm _ _, h⟩
  by_cases hcarry : r + 1 < 2 ^ m
  · -- the mantissa has room
    rw [scaled, scaled, Nat.add_assoc, (hdiv hcarry).1, (hdiv hcarry).2, (hdiv hr).1, (hdiv hr).2]
    split
    · next hq => rw [hq, Nat.zero_sub, Nat.pow_zero]
    · ring
  · -- the exponent goes up
    obtain rfl : r = 2 ^ m - 1 := by omega
    have hnext : 2 ^ m * q + (2 ^ m - 1) + 1 = 2 ^ m * (q + 1) + 0 := by
      rw [Nat.add_assoc, Nat.sub_add_cancel hpos]
      ring
    rw [hnext, scaled, scaled, (hdiv hpos).1, (hdiv hpos).2, (hdiv hr).1, (hdiv hr).2,
      if_neg (Nat.succ_ne_zero q)]
    split
    · next hq =>
        rw [hq]
        simp
        omega
    · next hq =>
        obtain ⟨q, rfl⟩ := Nat.exists_eq_succ_of_ne_zero hq
        simp only [Nat.succ_eq_add_one, Nat.add_sub_cancel, Nat.add_zero]
        rw [show 2 ^ m + (2 ^ m - 1) = 2 * 2 ^ m - 1 by omega, Nat.sub_mul, Nat.pow_succ]
        have hle : 1 * 2 ^ q ≤ 2 * 2 ^ m * 2 ^ q := Nat.mul_le_mul_right _ (by omega)
        rw [Nat.one_mul] at hle ⊢
        rw [Nat.sub_add_cancel hle]
        ring

theorem scaled_strictMono (m : Nat) : StrictMono (scaled m) :=
  strictMono_nat_of_lt_succ fun x => by
    rw [scaled_succ]
    exact Nat.lt_add_of_pos_right (Nat.two_pow_pos _)

theorem scaled_le_scaled {x y : Nat} : scaled m x ≤ scaled m y ↔ x ≤ y :=
  (scaled_strictMono m).le_iff_le

end Scaled

/-! ## the order of the patterns -/

section Order

variable {m bias : Nat} {a b : BitVec w}

/-- A pattern is its sign bit and the pattern below. -/
theorem toNat_eq_of_msb (b : BitVec w) :
    b.toNat = (if b.msb then 2 ^ (w - 1) else 0) + b.toNat % 2 ^ (w - 1) := by
  have hlt := b.isLt
  rw [BitVec.msb_eq_decide]
  cases w with
  | zero => simp [BitVec.of_length_zero]
  | succ w =>
      rw [Nat.add_sub_cancel] at *
      rw [Nat.pow_succ] at hlt
      by_cases hge : 2 ^ w ≤ b.toNat
      · rw [decide_eq_true hge, if_pos rfl, Nat.mod_eq_sub_mod hge, Nat.mod_eq_of_lt (by omega)]
        omega
      · rw [decide_eq_false hge, if_neg Bool.false_ne_true, Nat.mod_eq_of_lt (by omega), Nat.zero_add]

theorem units_nonneg (h : b.msb = false) : 0 ≤ units m b := by
  simp [units, h]

theorem units_nonpos (h : b.msb = true) : units m b ≤ 0 := by
  simp [units, h]

/-- Without a sign the patterns are in the order of the numbers. -/
theorem units_le_units_of_pos (ha : a.msb = false) (hb : b.msb = false) :
    units m a ≤ units m b ↔ a ≤ b := by
  have hna := toNat_eq_of_msb a
  have hnb := toNat_eq_of_msb b
  rw [ha, if_neg Bool.false_ne_true, Nat.zero_add] at hna
  rw [hb, if_neg Bool.false_ne_true, Nat.zero_add] at hnb
  rw [units, units, ha, hb, if_neg Bool.false_ne_true, if_neg Bool.false_ne_true, Int.ofNat_le,
    scaled_le_scaled, ← hna, ← hnb, BitVec.le_def]

/-- With a sign they are in the opposite order. -/
theorem units_le_units_of_neg (ha : a.msb = true) (hb : b.msb = true) :
    units m a ≤ units m b ↔ b ≤ a := by
  have hna := toNat_eq_of_msb a
  have hnb := toNat_eq_of_msb b
  rw [ha, if_pos rfl] at hna
  rw [hb, if_pos rfl] at hnb
  rw [units, units, ha, hb, if_pos rfl, if_pos rfl, Int.neg_le_neg_iff, Int.ofNat_le,
    scaled_le_scaled, BitVec.le_def]
  omega

theorem lt_of_msb (ha : a.msb = false) (hb : b.msb = true) : a < b := by
  have hna := toNat_eq_of_msb a
  have hnb := toNat_eq_of_msb b
  rw [ha, if_neg Bool.false_ne_true, Nat.zero_add] at hna
  rw [hb, if_pos rfl] at hnb
  have hlt : a.toNat % 2 ^ (w - 1) < 2 ^ (w - 1) := Nat.mod_lt _ (Nat.two_pow_pos _)
  rw [BitVec.lt_def]
  omega

/-- The numbers are in the order of their units. -/
theorem value_le_value : value m bias a ≤ value m bias b ↔ units m a ≤ units m b := by
  have hpos : (0 : ℚ) < 2 ^ (1 - (bias : Int) - m) := zpow_pos (by decide) _
  rw [value, value, mul_le_mul_iff_left₀ hpos, Int.cast_le]

theorem value_eq_value : value m bias a = value m bias b ↔ units m a = units m b := by
  rw [le_antisymm_iff, le_antisymm_iff, value_le_value, value_le_value]

end Order

/-! ## integers -/

section Integer

variable {m bias n : Nat}

/-- An integer truncated to `m + 1` significant bits. -/
def truncate (m n : Nat) : Nat := n / 2 ^ (n.log2 - m) * 2 ^ (n.log2 - m)

/-- The `m` bits below the leading one of an integer. -/
def mantissa (m n : Nat) : Nat := n % 2 ^ n.log2 * 2 ^ m / 2 ^ n.log2

theorem truncate_eq_self (h : n < 2 ^ (m + 1)) : truncate m n = n := by
  obtain rfl | hn := Nat.eq_zero_or_pos n
  · simp [truncate]
  · have hlog : n.log2 < m + 1 := (Nat.log2_lt (Nat.ne_of_gt hn)).mpr h
    rw [truncate, Nat.sub_eq_zero_of_le (Nat.le_of_lt_succ hlog), Nat.pow_zero, Nat.div_one,
      Nat.mul_one]

theorem truncate_le (m n : Nat) : truncate m n ≤ n := Nat.div_mul_le_self _ _

/-- The leading one stays. -/
theorem pow_log2_le_truncate (m : Nat) (hn : n ≠ 0) : 2 ^ n.log2 ≤ truncate m n := by
  have hle := Nat.log2_self_le hn
  have hsplit : 2 ^ (n.log2 - (n.log2 - m)) * 2 ^ (n.log2 - m) = 2 ^ n.log2 := by
    rw [← Nat.pow_add, Nat.sub_add_cancel (Nat.sub_le _ _)]
  rw [truncate, ← hsplit]
  refine Nat.mul_le_mul_right _ ((Nat.le_div_iff_mul_le (Nat.two_pow_pos _)).mpr ?_)
  rwa [hsplit]

theorem truncate_mono (m : Nat) : Monotone (truncate m) := by
  intro n k hle
  obtain rfl | hn := Nat.eq_zero_or_pos n
  · simp [truncate]
  have hk : k ≠ 0 := by omega
  have hlog : n.log2 ≤ k.log2 :=
    (Nat.le_log2 hk).mpr (Nat.le_trans (Nat.log2_self_le (Nat.ne_of_gt hn)) hle)
  obtain hlt | heq := Nat.lt_or_eq_of_le hlog
  · -- the leading one of the greater is beyond the smaller
    calc truncate m n ≤ n := truncate_le m n
      _ ≤ 2 ^ (n.log2 + 1) := Nat.le_of_lt Nat.lt_log2_self
      _ ≤ 2 ^ k.log2 := Nat.pow_le_pow_right (by decide) hlt
      _ ≤ truncate m k := pow_log2_le_truncate m hk
  · rw [truncate, truncate, heq]
    exact Nat.mul_le_mul_right _ (Nat.div_le_div_right hle)

theorem mantissa_lt (m n : Nat) : mantissa m n < 2 ^ m := by
  rw [mantissa, Nat.div_lt_iff_lt_mul (Nat.two_pow_pos _), Nat.mul_comm]
  exact Nat.mul_lt_mul_of_pos_left (Nat.mod_lt _ (Nat.two_pow_pos _)) (Nat.two_pow_pos m)

/-- With the leading one the mantissa makes up the truncated integer. -/
theorem mantissa_mul (m : Nat) (hn : n ≠ 0) :
    (2 ^ m + mantissa m n) * 2 ^ n.log2 = truncate m n * 2 ^ m := by
  have hpos : 0 < 2 ^ n.log2 := Nat.two_pow_pos _
  have hlead : n % 2 ^ n.log2 + 2 ^ n.log2 = n := by
    have hlt : n < 2 ^ n.log2 * 2 := by rw [← Nat.pow_succ]; exact Nat.lt_log2_self
    have hle := Nat.log2_self_le hn
    rw [Nat.mod_eq_sub_mod hle, Nat.mod_eq_of_lt (by omega), Nat.sub_add_cancel hle]
  have hsig : 2 ^ m + mantissa m n = n * 2 ^ m / 2 ^ n.log2 := by
    have hmul : n * 2 ^ m = n % 2 ^ n.log2 * 2 ^ m + 2 ^ n.log2 * 2 ^ m := by
      rw [← Nat.add_mul, hlead]
    rw [hmul, Nat.add_mul_div_left _ _ hpos, mantissa, Nat.add_comm]
  rw [hsig, truncate]
  obtain hle | hlt := Nat.le_total m n.log2
  · -- the bits below the mantissa are cut off
    have hpow : 2 ^ n.log2 = 2 ^ (n.log2 - m) * 2 ^ m := by
      rw [← Nat.pow_add, Nat.sub_add_cancel hle]
    conv_lhs => rw [hpow, Nat.mul_div_mul_right _ _ (Nat.two_pow_pos m), ← Nat.mul_assoc]
  · -- there are none
    have hpow : 2 ^ m = 2 ^ (m - n.log2) * 2 ^ n.log2 := by
      rw [← Nat.pow_add, Nat.sub_add_cancel hlt]
    rw [Nat.sub_eq_zero_of_le hlt, Nat.pow_zero, Nat.div_one, Nat.mul_one, hpow, ← Nat.mul_assoc,
      Nat.mul_div_cancel _ hpos]

/-- What is cut off is below the leading one. -/
theorem log2_truncate (m : Nat) (hn : n ≠ 0) : (truncate m n).log2 = n.log2 := by
  have hle := pow_log2_le_truncate m hn
  have hpos : 0 < 2 ^ n.log2 := Nat.two_pow_pos _
  rw [Nat.log2_eq_iff (by omega)]
  exact ⟨hle, Nat.lt_of_le_of_lt (truncate_le m n) Nat.lt_log2_self⟩

/-- A power of two has no mantissa. -/
theorem mantissa_eq_zero_iff (hn : n ≠ 0) : mantissa m n = 0 ↔ truncate m n = 2 ^ n.log2 := by
  have hpos : 0 < 2 ^ m := Nat.two_pow_pos m
  have hmul := mantissa_mul m hn
  constructor
  · intro h
    rw [h, Nat.add_zero, Nat.mul_comm] at hmul
    exact (Nat.mul_right_cancel hpos hmul).symm
  · intro h
    rw [h, Nat.mul_comm (2 ^ n.log2)] at hmul
    have := Nat.mul_right_cancel (Nat.two_pow_pos _) hmul
    omega

/-- The top bit of a word that is known to fit. -/
theorem getLsbD_top {x : BitVec w} {i : Nat} (h : x.toNat < 2 ^ (i + 1)) :
    x.getLsbD i = decide (2 ^ i ≤ x.toNat) := by
  by_cases hle : 2 ^ i ≤ x.toNat
  · rw [decide_eq_true hle]
    exact Nat.testBit_of_two_pow_le_and_two_pow_add_one_gt hle h
  · rw [decide_eq_false hle]
    exact Nat.testBit_lt_two_pow (Nat.lt_of_not_le hle)

/-- The bits of a short integer are shifted up. -/
theorem mantissa_of_le (h : n.log2 ≤ m) : mantissa m n = n * 2 ^ (m - n.log2) % 2 ^ m := by
  have hpow : 2 ^ m = 2 ^ n.log2 * 2 ^ (m - n.log2) := by
    rw [← Nat.pow_add, Nat.add_sub_cancel' h]
  rw [mantissa, hpow, Nat.mul_mod_mul_right, Nat.mul_comm (2 ^ n.log2), ← Nat.mul_assoc,
    Nat.mul_div_cancel _ (Nat.two_pow_pos _)]

/-- The bits of a long one are shifted down. -/
theorem mantissa_of_ge (h : m ≤ n.log2) : mantissa m n = n / 2 ^ (n.log2 - m) % 2 ^ m := by
  have hpow : 2 ^ n.log2 = 2 ^ (n.log2 - m) * 2 ^ m := by
    rw [← Nat.pow_add, Nat.sub_add_cancel h]
  rw [mantissa, hpow, Nat.mul_div_mul_right _ _ (Nat.two_pow_pos m), Nat.mod_mul_right_div_self]

/-- The pattern with the exponent and the mantissa of an integer. -/
theorem scaled_integer (hbias : 0 < bias) (hn : n ≠ 0) :
    scaled m (2 ^ m * (bias + n.log2) + mantissa m n) = truncate m n * 2 ^ (bias + m - 1) := by
  have hpos : 0 < 2 ^ m := Nat.two_pow_pos m
  have hlt := mantissa_lt m n
  rw [scaled, Nat.mul_add_div hpos, Nat.mul_add_mod, Nat.div_eq_of_lt hlt, Nat.mod_eq_of_lt hlt,
    Nat.add_zero, if_neg (by omega), show bias + n.log2 - 1 = n.log2 + (bias - 1) by omega,
    Nat.pow_add, ← Nat.mul_assoc, mantissa_mul m hn, Nat.mul_assoc, ← Nat.pow_add,
    show m + (bias - 1) = bias + m - 1 by omega]

/-- It stands for the truncated integer. -/
theorem value_integer {b : BitVec w} (hbias : 0 < bias) (hn : n ≠ 0)
    (hb : b.toNat % 2 ^ (w - 1) = 2 ^ m * (bias + n.log2) + mantissa m n) :
    value m bias b = if b.msb then -(truncate m n : ℚ) else truncate m n := by
  have hunit : ((2 ^ (bias + m - 1) : Nat) : ℚ) * 2 ^ (1 - (bias : Int) - m) = 1 := by
    rw [Nat.cast_pow, Nat.cast_ofNat, ← zpow_natCast, ← zpow_add₀ (by decide)]
    rw [show ((bias + m - 1 : Nat) : Int) + (1 - (bias : Int) - m) = 0 by omega, zpow_zero]
  rw [value, units, hb, scaled_integer hbias hn]
  split <;> push_cast at hunit ⊢
  · rw [neg_mul, mul_assoc, hunit, mul_one]
  · rw [mul_assoc, hunit, mul_one]

end Integer

/-! ## fields -/

section Fields

variable {k m bias : Nat}

/-- Exponent and mantissa make up the pattern below the sign bit. -/
theorem toNat_fields (k m : Nat) (b : BitVec w) : b.toNat % 2 ^ (k + m) =
    2 ^ m * (b.extractLsb' m k).toNat + (b.extractLsb' 0 m).toNat := by
  rw [BitVec.extractLsb'_toNat, BitVec.extractLsb'_toNat, Nat.shiftRight_zero,
    Nat.shiftRight_eq_div_pow, Nat.add_comm k m, Nat.pow_add, Nat.mod_mul, Nat.add_comm]

/-- The factor of a sign bit. -/
def sign (s : Bool) : ℚ := if s then -1 else 1

theorem sign_xor (s t : Bool) : sign (s ^^ t) = sign s * sign t := by
  cases s <;> cases t <;> norm_num [sign]

theorem abs_sign_mul (s : Bool) (x : ℚ) : |sign s * x| = |x| := by
  cases s <;> simp [sign]

/-- The number of a pattern that is not subnormal. -/
theorem value_of_exponent {b : BitVec w} (hw : w - 1 = k + m) (he : b.extractLsb' m k ≠ 0) :
    value m bias b = sign b.msb * ((2 ^ m + (b.extractLsb' 0 m).toNat : Nat) *
      2 ^ ((b.extractLsb' m k).toNat - bias - m : Int)) := by
  have hf := (b.extractLsb' 0 m).isLt
  have hpos : 0 < 2 ^ m := Nat.two_pow_pos m
  have hne : (b.extractLsb' m k).toNat ≠ 0 := fun h => he (BitVec.eq_of_toNat_eq h)
  obtain ⟨e, he'⟩ := Nat.exists_eq_succ_of_ne_zero hne
  have hscaled : scaled m (b.toNat % 2 ^ (w - 1)) =
      (2 ^ m + (b.extractLsb' 0 m).toNat) * 2 ^ e := by
    rw [hw, toNat_fields, scaled, Nat.mul_add_div hpos, Nat.mul_add_mod, Nat.div_eq_of_lt hf,
      Nat.mod_eq_of_lt hf, Nat.add_zero, if_neg hne, he', Nat.succ_sub_one]
  have hpow : (2 : ℚ) ^ ((b.extractLsb' m k).toNat - bias - m : Int) =
      2 ^ e * 2 ^ (1 - (bias : Int) - m) := by
    rw [he', ← zpow_natCast, ← zpow_add₀ (by decide)]
    congr 1
    push_cast
    omega
  rw [value, units, hscaled, hpow, sign]
  cases b.msb <;> simp only [Bool.false_eq_true, if_true, if_false] <;> push_cast <;> ring

/-- Zeros of either sign. -/
theorem value_of_zero {b : BitVec w} (h : b.extractLsb' 0 (w - 1) = 0) : value m bias b = 0 := by
  have hbits := congrArg BitVec.toNat h
  rw [BitVec.extractLsb'_toNat, Nat.shiftRight_zero] at hbits
  simp [value, units, scaled, hbits]

/-- A zero has neither exponent nor mantissa. -/
theorem zero_iff {b : BitVec w} (hw : w - 1 = k + m) :
    b.extractLsb' 0 (w - 1) = 0 ↔ b.extractLsb' m k = 0 ∧ b.extractLsb' 0 m = 0 := by
  have hbits : (b.extractLsb' 0 (w - 1)).toNat =
      2 ^ m * (b.extractLsb' m k).toNat + (b.extractLsb' 0 m).toNat := by
    rw [BitVec.extractLsb'_toNat, Nat.shiftRight_zero, hw, toNat_fields]
  rw [← BitVec.toNat_inj, ← BitVec.toNat_inj, ← BitVec.toNat_inj, hbits]
  simp

/-- The binary order of magnitude. -/
theorem two_zpow_le_iff {n : Nat} (hn : n ≠ 0) {i j : Int} :
    (2 : ℚ) ^ i ≤ n * 2 ^ j ↔ i ≤ n.log2 + j := by
  have hbase : (1 : ℚ) < 2 := by norm_num
  have hpos : (0 : ℚ) < 2 ^ j := zpow_pos (by norm_num) _
  constructor
  · intro h
    have hlt : (n : ℚ) < 2 ^ (n.log2 + 1 : Int) := by exact_mod_cast Nat.lt_log2_self (n := n)
    have hlt' : (2 : ℚ) ^ i < 2 ^ (n.log2 + 1 + j : Int) := by
      rw [zpow_add₀ (by norm_num)]
      exact lt_of_le_of_lt h (mul_lt_mul_of_pos_right hlt hpos)
    have := (zpow_lt_zpow_iff_right₀ hbase).mp hlt'
    omega
  · intro h
    have hle : (2 : ℚ) ^ (n.log2 : Int) ≤ n := by exact_mod_cast Nat.log2_self_le hn
    calc (2 : ℚ) ^ i ≤ 2 ^ (n.log2 + j : Int) := zpow_le_zpow_right₀ hbase.le h
      _ = 2 ^ (n.log2 : Int) * 2 ^ j := zpow_add₀ (by norm_num) _ _
      _ ≤ n * 2 ^ j := mul_le_mul_of_nonneg_right hle hpos.le

theorem two_zpow_eq_iff {n : Nat} (hn : n ≠ 0) {i j : Int} :
    (n : ℚ) * 2 ^ j = 2 ^ i ↔ n.log2 + j = i ∧ n = 2 ^ n.log2 := by
  have hne : (2 : ℚ) ^ j ≠ 0 := zpow_ne_zero _ (by norm_num)
  have hsplit : (2 : ℚ) ^ (n.log2 + j : Int) = (2 ^ n.log2 : Nat) * 2 ^ j := by
    rw [zpow_add₀ (by norm_num), zpow_natCast]
    push_cast
    rfl
  constructor
  · intro h
    have hle : i ≤ n.log2 + j := (two_zpow_le_iff hn).mp h.ge
    have hge : n.log2 + j ≤ i := (zpow_le_zpow_iff_right₀ (by norm_num)).mp <|
      h ▸ (two_zpow_le_iff hn).mpr le_rfl
    obtain rfl : n.log2 + j = i := le_antisymm hge hle
    rw [hsplit] at h
    exact ⟨rfl, Nat.cast_injective (mul_right_cancel₀ hne h)⟩
  · rintro ⟨rfl, h⟩
    rw [hsplit, ← h]

/-! ### packed -/

variable {s : Bool} {e : BitVec k} {f : BitVec m}

theorem msb_packed : (BitVec.ofBool s ++ e ++ f).msb = s := by
  simp [BitVec.msb_append]

theorem exponent_packed : (BitVec.ofBool s ++ e ++ f).extractLsb' m k = e := by
  rw [BitVec.extractLsb'_append_eq_of_le (Nat.le_refl m), Nat.sub_self]
  exact BitVec.extractLsb'_append_eq_right

theorem mantissa_packed : (BitVec.ofBool s ++ e ++ f).extractLsb' 0 m = f :=
  BitVec.extractLsb'_append_eq_right

end Fields
end BinaryFloat

end Hdl
