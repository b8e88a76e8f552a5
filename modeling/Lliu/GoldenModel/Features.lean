import Lliu.FeatureExtractor.Ticks
import Lliu.GoldenModel

/-!
# Lliu.GoldenModel.Features

The features against their reference.  The extractor truncates a number to eight significant
bits; the reference first rounds it to the 24 of a float32.  The two differ exactly when that
rounding carries into the eight (`bf16_npFloat32_iff`), and so it is known when the extractor
puts out what the reference expects (`golden_agrees_iff`).
-/

namespace Lliu

open Hdl

namespace GoldenModel

/-! ## rounding -/

/-- Below the leading eight bits are seventeen ones. -/
def Carries (n : Nat) : Prop :=
  24 ≤ n.log2 ∧ 2 ^ (n.log2 - 7) - 2 ^ (n.log2 - 24) ≤ n % 2 ^ (n.log2 - 7)

instance decidableCarries (n : Nat) : Decidable (Carries n) :=
  inferInstanceAs (Decidable (_ ∧ _))

/-- A price of 1690.8287. -/
example : Carries 16908287 := by decide

/-- Numbers of 24 bits are not rounded. -/
theorem not_carries_of_lt {n : Nat} (h : n < 2 ^ 24) : ¬ Carries n := by
  rintro ⟨hlog, -⟩
  have hn : n ≠ 0 := by
    rintro rfl
    simp at hlog
  have := (Nat.log2_lt hn).mpr h
  omega

section Round

variable {n : Nat}

/-- The 24 significant bits before rounding. -/
def significand (n : Nat) : Nat := 2 ^ 23 * n / 2 ^ n.log2

theorem significand_bounds (hn : n ≠ 0) : 2 ^ 23 ≤ significand n ∧ significand n < 2 ^ 24 := by
  have hpos : 0 < 2 ^ n.log2 := Nat.two_pow_pos _
  have hle := Nat.log2_self_le hn
  have hlt : n < 2 ^ n.log2 * 2 := by
    rw [← Nat.pow_succ]
    exact Nat.lt_log2_self
  rw [significand]
  refine ⟨(Nat.le_div_iff_mul_le hpos).mpr (Nat.mul_le_mul_left _ hle),
    (Nat.div_lt_iff_lt_mul hpos).mpr ?_⟩
  omega

/-- Their first eight are the leading one and the mantissa of a bfloat16. -/
theorem significand_div (hn : n ≠ 0) : significand n / 2 ^ 16 = 2 ^ 7 + BinaryFloat.mantissa 7 n := by
  have hpos : 0 < 2 ^ n.log2 := Nat.two_pow_pos _
  have hlead : n % 2 ^ n.log2 + 2 ^ n.log2 = n := by
    have hlt : n < 2 ^ n.log2 * 2 := by
      rw [← Nat.pow_succ]
      exact Nat.lt_log2_self
    have hle := Nat.log2_self_le hn
    rw [Nat.mod_eq_sub_mod hle, Nat.mod_eq_of_lt (by omega), Nat.sub_add_cancel hle]
  have hmul : n * 2 ^ 7 = n % 2 ^ n.log2 * 2 ^ 7 + 2 ^ n.log2 * 2 ^ 7 := by
    rw [← Nat.add_mul, hlead]
  have hscale : 2 ^ 23 * n = n * 2 ^ 7 * 2 ^ 16 := by omega
  rw [significand, Nat.div_div_eq_div_mul, hscale, Nat.mul_div_mul_right _ _ (Nat.two_pow_pos 16), hmul,
    Nat.add_mul_div_left _ _ hpos, BinaryFloat.mantissa, Nat.add_comm]

/-- Rounding adds one or nothing. -/
theorem roundHalfEven_eq (n d : Nat) : roundHalfEven n d = n / d ∨ roundHalfEven n d = n / d + 1 := by
  rw [roundHalfEven]
  split
  · exact .inr rfl
  · exact .inl rfl

/-- The rest of a long number decides. -/
theorem roundHalfEven_long {k : Nat} (n : Nat) : roundHalfEven (2 ^ 23 * n) (2 ^ (k + 23)) =
    if 2 ^ k < 2 * (n % 2 ^ k) ∨ 2 * (n % 2 ^ k) = 2 ^ k ∧ n / 2 ^ k % 2 = 1 then n / 2 ^ k + 1
    else n / 2 ^ k := by
  have hpow : 2 ^ (k + 23) = 2 ^ 23 * 2 ^ k := by rw [Nat.pow_add, Nat.mul_comm]
  rw [roundHalfEven, hpow, Nat.mul_div_mul_left _ _ (Nat.two_pow_pos 23), Nat.mul_mod_mul_left]
  generalize n % 2 ^ k = r
  generalize 2 ^ k = h
  exact if_congr (by omega) rfl rfl

/-- All ones, and a rest of at least a half: then the rounding carries. -/
theorem ones_iff {k : Nat} (n : Nat) : 2 ^ (k + 17) - 2 ^ k ≤ n % 2 ^ (k + 17) ↔
    n / 2 ^ (k + 1) % 2 ^ 16 = 2 ^ 16 - 1 ∧ 2 ^ k ≤ n % 2 ^ (k + 1) := by
  have hpos : 0 < 2 ^ k := Nat.two_pow_pos k
  have hone : 2 ^ (k + 1) = 2 * 2 ^ k := by rw [Nat.pow_succ, Nat.mul_comm]
  have hsplit : 2 ^ (k + 17) = 2 ^ (k + 1) * 2 ^ 16 := by rw [← Nat.pow_add]
  have hr : n % 2 ^ (k + 1) < 2 ^ (k + 1) := Nat.mod_lt _ (Nat.two_pow_pos _)
  have hq : n / 2 ^ (k + 1) % 2 ^ 16 < 2 ^ 16 := Nat.mod_lt _ (Nat.two_pow_pos 16)
  rw [hsplit, Nat.mod_mul]
  generalize n % 2 ^ (k + 1) = r at *
  generalize n / 2 ^ (k + 1) % 2 ^ 16 = q at *
  rw [hone] at *
  generalize 2 ^ k = h at *
  constructor
  · intro hge
    have hlast : q = 2 ^ 16 - 1 := by
      by_contra hne
      have hmul : 2 * h * q ≤ 2 * h * (2 ^ 16 - 2) := Nat.mul_le_mul_left _ (by omega)
      omega
    subst hlast
    omega
  · rintro ⟨rfl, hle⟩
    omega

/-- **The rounding reaches the first eight bits** exactly when it carries. -/
theorem round_div_iff (n : Nat) :
    roundHalfEven (2 ^ 23 * n) (2 ^ n.log2) / 2 ^ 16 = significand n / 2 ^ 16 ↔ ¬ Carries n := by
  by_cases hlog : n.log2 < 24
  · refine iff_of_true ?_ fun h => absurd h.1 (by omega)
    -- the number is short, nothing is left over
    have hpow : 2 ^ 23 * n = 2 ^ n.log2 * (2 ^ (23 - n.log2) * n) := by
      rw [← Nat.mul_assoc, ← Nat.pow_add, Nat.add_sub_cancel' (by omega)]
    have hround : roundHalfEven (2 ^ 23 * n) (2 ^ n.log2) = significand n := by
      have hpos : 0 < 2 ^ n.log2 := Nat.two_pow_pos _
      rw [roundHalfEven, hpow, Nat.mul_mod_right, if_neg (by omega), significand, hpow]
    rw [hround]
  · obtain ⟨k, hk⟩ : ∃ k, n.log2 = k + 1 + 23 := ⟨n.log2 - 24, by omega⟩
    have hsig : significand n = n / 2 ^ (k + 1) := by
      rw [significand, hk, Nat.pow_add _ (k + 1), Nat.mul_comm (2 ^ (k + 1)),
        Nat.mul_div_mul_left _ _ (Nat.two_pow_pos 23)]
    have hcarries : Carries n ↔ n / 2 ^ (k + 1) % 2 ^ 16 = 2 ^ 16 - 1 ∧ 2 ^ k ≤ n % 2 ^ (k + 1) := by
      rw [Carries, hk, show k + 1 + 23 - 7 = k + 17 by omega, show k + 1 + 23 - 24 = k by omega, ones_iff]
      exact and_iff_right (by omega)
    have hone : 2 ^ (k + 1) = 2 * 2 ^ k := by rw [Nat.pow_succ, Nat.mul_comm]
    rw [hcarries, hk, roundHalfEven_long, hsig, hone]
    rw [← hone]
    generalize n / 2 ^ (k + 1) = q
    generalize n % 2 ^ (k + 1) = r
    rw [hone]
    split <;> omega

end Round

/-! ## patterns -/

section Patterns

variable {e : Int}

/-- The upper half of a float32 as a number. -/
theorem toNat_floatToBfloat16 (s : Bool) {y : Nat} (hy : y < 2 ^ 31) :
    (floatToBfloat16 (BitVec.ofBool s ++ BitVec.ofNat 31 y)).toNat = 2 ^ 15 * s.toNat + y / 2 ^ 16 := by
  have hword : (BitVec.ofBool s ++ BitVec.ofNat 31 y).toNat = 2 ^ 31 * s.toNat + y := by
    rw [BitVec.toNat_append, ← Nat.shiftLeft_add_eq_or_of_lt (BitVec.isLt _), BitVec.toNat_ofNat,
      Nat.mod_eq_of_lt hy, BitVec.toNat_ofBool, Nat.shiftLeft_eq, Nat.mul_comm]
  have hs := Bool.toNat_le s
  rw [floatToBfloat16, BitVec.extractLsb'_toNat, hword, Nat.shiftRight_eq_div_pow]
  omega

/-- The bfloat16 of the reference. -/
theorem toNat_reference (he : e ≠ 0) (hlt : e.natAbs < 2 ^ 32) :
    (floatToBfloat16 (npFloat32 e)).toNat = 2 ^ 15 * (decide (e < 0)).toNat +
      (2 ^ 7 * (126 + e.natAbs.log2) +
        roundHalfEven (2 ^ 23 * e.natAbs) (2 ^ e.natAbs.log2) / 2 ^ 16) := by
  have hn : e.natAbs ≠ 0 := Int.natAbs_ne_zero.mpr he
  have hlog : e.natAbs.log2 < 32 := (Nat.log2_lt hn).mpr hlt
  obtain ⟨-, hsig⟩ := significand_bounds hn
  have hround := roundHalfEven_eq (2 ^ 23 * e.natAbs) (2 ^ e.natAbs.log2)
  rw [← significand] at hround
  rw [npFloat32, if_neg he, toNat_floatToBfloat16 _ (by omega)]
  omega

/-- That of the extractor. -/
theorem toNat_toBf16 (he : e ≠ 0) (hlt : e.natAbs < 2 ^ 32) :
    (Desk.toBf16 e).toNat = 2 ^ 15 * (decide (e < 0)).toNat +
      (2 ^ 7 * (127 + e.natAbs.log2) + BinaryFloat.mantissa 7 e.natAbs) := by
  have hword : (BitVec.ofNat 32 e.natAbs).toNat = e.natAbs := by
    rw [BitVec.toNat_ofNat, Nat.mod_eq_of_lt hlt]
  have hmag : BitVec.ofNat 32 e.natAbs ≠ 0 := fun h => by
    have h0 := congrArg BitVec.toNat h
    rw [hword] at h0
    exact he (Int.natAbs_eq_zero.mp h0)
  have hexp := toNat_expVal hmag
  have hman := toNat_manVal hmag
  rw [hword] at hexp hman
  have hlow := BinaryFloat.mantissa_lt 7 e.natAbs
  have hzero : (e == 0) = false := beq_eq_false_iff_ne.mpr he
  rw [Desk.toBf16, magToBf16, hzero, if_neg Bool.false_ne_true]
  simp only [BitVec.toNat_append, BitVec.toNat_ofBool]
  rw [hexp, hman, ← Nat.shiftLeft_add_eq_or_of_lt (by omega), ← Nat.shiftLeft_add_eq_or_of_lt (by omega)]
  omega

/-- **The same bfloat16** unless the rounding carries. -/
theorem bf16_npFloat32_iff (hlt : e.natAbs < 2 ^ 32) :
    Desk.toBf16 e = floatToBfloat16 (npFloat32 e) ↔ ¬ Carries e.natAbs := by
  obtain rfl | he := eq_or_ne e 0
  · exact iff_of_true (by decide) (not_carries_of_lt (by decide))
  · have hn : e.natAbs ≠ 0 := Int.natAbs_ne_zero.mpr he
    have hlead := significand_div hn
    rw [← round_div_iff, ← BitVec.toNat_inj, toNat_reference he hlt, toNat_toBf16 he hlt]
    omega

section Differ

variable {e' : Int}

/-- Numbers of different signs are not taken for each other. -/
theorem ne_of_sign (he : e.natAbs < 2 ^ 32) (he' : e'.natAbs < 2 ^ 32)
    (h : e < 0 ∧ 0 < e' ∨ e' < 0 ∧ 0 < e) : Desk.toBf16 e ≠ floatToBfloat16 (npFloat32 e') := by
  have hn : e.natAbs ≠ 0 := by omega
  have hn' : e'.natAbs ≠ 0 := by omega
  have hlog : e.natAbs.log2 < 32 := (Nat.log2_lt hn).mpr he
  have hlog' : e'.natAbs.log2 < 32 := (Nat.log2_lt hn').mpr he'
  have hlow := BinaryFloat.mantissa_lt 7 e.natAbs
  have hsig := significand_bounds hn'
  have hround := roundHalfEven_eq (2 ^ 23 * e'.natAbs) (2 ^ e'.natAbs.log2)
  rw [← significand] at hround
  intro heq
  have hnat := congrArg BitVec.toNat heq
  rw [toNat_reference (by omega) he', toNat_toBf16 (by omega) he] at hnat
  obtain ⟨hneg, hpos⟩ | ⟨hneg, hpos⟩ := h
  · rw [decide_eq_true hneg, decide_eq_false (by omega), Bool.toNat_true, Bool.toNat_false] at hnat
    omega
  · rw [decide_eq_true hneg, decide_eq_false (by omega), Bool.toNat_true, Bool.toNat_false] at hnat
    omega

/-- Nor are those of 31 bits for longer ones. -/
theorem ne_of_long {p q : Nat} (hp : p < 2 ^ 31) (hq : 2 ^ 31 ≤ q) (hq' : q < 2 ^ 32) :
    Desk.toBf16 p ≠ floatToBfloat16 (npFloat32 q) := by
  have hlog : q.log2 = 31 := (Nat.log2_eq_iff (by omega)).mpr ⟨hq, hq'⟩
  have hsig := significand_bounds (n := q) (by omega)
  have hround := roundHalfEven_eq (2 ^ 23 * q) (2 ^ q.log2)
  rw [← significand] at hround
  intro heq
  have hnat := congrArg BitVec.toNat heq
  rw [toNat_reference (by omega) (by rwa [Int.natAbs_natCast]), Int.natAbs_natCast,
    decide_eq_false (by omega), Bool.toNat_false] at hnat
  obtain rfl | hp0 := Nat.eq_zero_or_pos p
  · rw [show Desk.toBf16 (0 : Nat) = 0 by decide] at hnat
    change 0 = _ at hnat
    omega
  · have hplog : p.log2 < 31 := (Nat.log2_lt (Nat.ne_of_gt hp0)).mpr hp
    have hlow := BinaryFloat.mantissa_lt 7 p
    rw [toNat_toBf16 (by omega) (by rw [Int.natAbs_natCast]; omega), Int.natAbs_natCast,
      decide_eq_false (by omega), Bool.toNat_false] at hnat
    omega

/-- Only zero is zero. -/
theorem toBf16_eq_zero_iff (he : e.natAbs < 2 ^ 32) :
    Desk.toBf16 e = floatToBfloat16 (npFloat32 0) ↔ e = 0 := by
  constructor
  · intro heq
    by_contra hne
    have hnat := congrArg BitVec.toNat heq
    rw [toNat_toBf16 hne he, show floatToBfloat16 (npFloat32 0) = 0 by decide] at hnat
    change _ = 0 at hnat
    omega
  · rintro rfl
    decide

end Differ

end Patterns

/-! ## messages -/

/-- The model after the messages `old`. -/
def after (old : List Tick) : State :=
  old.foldr (fun x s => (extractFeatures s x.price.toNat x.side.toNat).1) init

theorem lastPrice_after (old : List Tick) : (after old).lastPrice = Tick.lastPrice old := by
  cases old <;> rfl

/-- The vector it expects for the next one. -/
def expected (old : List Tick) (x : Tick) (k : Fin featureVecLen) : Bfloat16T :=
  floatToBfloat16 ((extractFeatures (after old) x.price.toNat x.side.toNat).2 k)

/-- When it expects what the extractor puts out: the price and its change fit and are not rounded
up, and the order flow happens to be zero. -/
structure Expects (old : List Tick) (x : Tick) : Prop where
  delta : (x.price.toNat - Tick.lastPrice old : Int).bmod (2 ^ 32) = x.price.toNat - Tick.lastPrice old
  deltaCarry : ¬ Carries (x.price.toNat - Tick.lastPrice old : Int).natAbs
  flow : Tick.feature old x 2 = 0
  price : x.price.toNat < 2 ^ 31
  priceCarry : ¬ Carries x.price.toNat

section Messages

variable {old : List Tick} {x : Tick}

theorem lastPrice_lt (old : List Tick) : Tick.lastPrice old < 2 ^ 32 := by
  cases old with
  | nil => decide
  | cons x old => exact x.price.isLt

/-- The change of price. -/
theorem delta_iff (old : List Tick) (x : Tick) :
    Desk.toBf16 (Tick.feature old x 0) = expected old x 0 ↔
    (x.price.toNat - Tick.lastPrice old : Int).bmod (2 ^ 32) = x.price.toNat - Tick.lastPrice old ∧
      ¬ Carries (x.price.toNat - Tick.lastPrice old : Int).natAbs := by
  have hprice := x.price.isLt
  have hlast := lastPrice_lt old
  have hexpected : expected old x 0 = floatToBfloat16 (npFloat32 (x.price.toNat - Tick.lastPrice old)) := by
    rw [← lastPrice_after]
    rfl
  change Desk.toBf16 ((x.price.toNat - Tick.lastPrice old : Int).bmod (2 ^ 32)) = _ ↔ _
  rw [hexpected]
  generalize hd : (x.price.toNat - Tick.lastPrice old : Int) = d
  have habs : d.natAbs < 2 ^ 32 := by omega
  by_cases hfit : d.bmod (2 ^ 32) = d
  · rw [hfit, bf16_npFloat32_iff habs]
    exact (and_iff_right rfl).symm
  · -- the sign bit has changed
    refine iff_of_false (ne_of_sign ?_ habs ?_) fun h => hfit h.1
    · rw [Int.bmod] at hfit ⊢
      omega
    · rw [Int.bmod] at hfit ⊢
      omega

/-- The price. -/
theorem price_iff (old : List Tick) (x : Tick) :
    Desk.toBf16 (Tick.feature old x 3) = expected old x 3 ↔
    x.price.toNat < 2 ^ 31 ∧ ¬ Carries x.price.toNat := by
  have hprice := x.price.isLt
  change Desk.toBf16 ((x.price.toNat % 2 ^ 31 : Nat) : Int) = floatToBfloat16 (npFloat32 x.price.toNat) ↔ _
  by_cases hfit : x.price.toNat < 2 ^ 31
  · rw [Nat.mod_eq_of_lt hfit, bf16_npFloat32_iff (by rwa [Int.natAbs_natCast]), Int.natAbs_natCast]
    exact (and_iff_right hfit).symm
  · refine iff_of_false (ne_of_long (Nat.mod_lt _ (by decide)) (by omega) hprice) fun h => hfit h.1

/-- The side is always what is expected. -/
theorem side_eq (old : List Tick) (x : Tick) : Desk.toBf16 (Tick.feature old x 1) = expected old x 1 := by
  have hexpected : expected old x 1 = floatToBfloat16 (npFloat32 (if x.side.toNat = 1 then 1 else -1)) := rfl
  rw [hexpected]
  change Desk.toBf16 (if x.side = true then 1 else -1) = _
  cases x.side with
  | true => exact (bf16_npFloat32_iff (by decide)).mpr (not_carries_of_lt (by decide))
  | false => exact (bf16_npFloat32_iff (by decide)).mpr (not_carries_of_lt (by decide))

/-- The order flow is expected to be zero. -/
theorem flow_iff (old : List Tick) (x : Tick) :
    Desk.toBf16 (Tick.feature old x 2) = expected old x 2 ↔ Tick.feature old x 2 = 0 := by
  refine toBf16_eq_zero_iff ?_
  change ((Tick.netBuys old).bmod (2 ^ 16) + if x.side then 1 else -1).natAbs < 2 ^ 32
  rw [Int.bmod]
  split <;> omega

theorem expects_iff (old : List Tick) (x : Tick) :
    (∀ k, Desk.toBf16 (Tick.feature old x k) = expected old x k) ↔ Expects old x := by
  constructor
  · intro h
    obtain ⟨hdelta, hcarry⟩ := (delta_iff old x).mp (h 0)
    obtain ⟨hprice, hcarry'⟩ := (price_iff old x).mp (h 3)
    exact ⟨hdelta, hcarry, (flow_iff old x).mp (h 2), hprice, hcarry'⟩
  · intro h k
    match k with
    | 0 => exact (delta_iff old x).mpr ⟨h.delta, h.deltaCarry⟩
    | 1 => exact side_eq old x
    | 2 => exact (flow_iff old x).mpr h.flow
    | 3 => exact (price_iff old x).mpr ⟨h.price, h.priceCarry⟩

end Messages

/-! ## runs -/

section Run

variable {i : Nat → FeatureExtractorIn}

/-- The messages before cycle `n`, the newest first. -/
def seen (i : Nat → FeatureExtractorIn) : Nat → List Tick
  | 0 => []
  | n + 1 => FeatureExtractor.next (seen i n) (i n)

theorem remembers_seen (i : Nat → FeatureExtractorIn) (n : Nat) :
    FeatureExtractor.Remembers (FeatureExtractor.trace i n) (seen i n) :=
  run_invariant (P := fun n s => FeatureExtractor.Remembers s (seen i n)) FeatureExtractor.remembers_reset
    (fun n h => h.step (i n)) n

/-- **The extractor and its reference**: when the vector of a message is the one expected. -/
theorem golden_agrees_iff (i : Nat → FeatureExtractorIn) {t : Nat} (hv : (i t).fieldsValid = true) :
    (∀ k, (FeatureExtractor.trace i (t + 3)).features k = expected (seen i t) ⟨(i t).price, (i t).side⟩ k) ↔
    Expects (seen i t) ⟨(i t).price, (i t).side⟩ := by
  obtain ⟨hfeat, -⟩ := FeatureExtractor.features_of_fieldsValid (s := FeatureExtractor.trace i t) hv
    (i (t + 1)) (i (t + 2))
  rw [← expects_iff]
  refine forall_congr' fun k => ?_
  have hk : (FeatureExtractor.trace i (t + 3)).features k =
      Desk.toBf16 (Tick.feature (seen i t) ⟨(i t).price, (i t).side⟩ k) :=
    (congrFun hfeat k).trans ((remembers_seen i t).vector (i t) k)
  rw [hk]

/-- A buy at 1000, and a sell at 1500 in the next cycle. -/
def buyThenSell (n : Nat) : FeatureExtractorIn :=
  { price := if n = 0 then 1000 else 1500
    side := n = 0
    fieldsValid := n < 2 }

/-- The vector of the sell is the one expected. -/
theorem buyThenSell_agrees : Expects [⟨1000, true⟩] ⟨1500, false⟩ ∧
    ∀ k, (FeatureExtractor.trace buyThenSell 4).features k = expected [⟨1000, true⟩] ⟨1500, false⟩ k := by
  have hexpects : Expects [⟨1000, true⟩] ⟨1500, false⟩ :=
    ⟨by decide, not_carries_of_lt (by decide), by decide, by decide, not_carries_of_lt (by decide)⟩
  exact ⟨hexpects, (golden_agrees_iff buyThenSell (t := 1) rfl).mpr hexpects⟩

end Run

end GoldenModel

end Lliu
