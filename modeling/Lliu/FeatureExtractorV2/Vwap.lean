import Lliu.FeatureExtractorV2.History

/-!
# Lliu.FeatureExtractorV2.Vwap

Feature 30 against its definition.  The products in the window are those of the inputs
in the cycle before each pulse, cut to 27 and 18 bits, while the volumes are the
messages' own.  So in a stream in which the inputs change with the pulse the product of
a message is that of the message before it, and feature 30 is right throughout only if
these are always the same (`vwapOwn_iff`).
-/

namespace Lliu

open Hdl

namespace FeatureExtractorV2

variable {i : Nat → FeatureExtractorV2In} {t : Nat}

/-- The fields of a message stay at the inputs for the cycle after its pulse. -/
def Held (i : Nat → FeatureExtractorV2In) : Prop :=
  ∀ t, (i t).fieldsValid = true → (i (t + 1)).price = (i t).price ∧
    (i (t + 1)).shares = (i t).shares ∧ (i (t + 1)).side = (i t).side ∧
    (i (t + 1)).symId = (i t).symId

/-! ## the position of the leading one -/

/-- Among the low `n` bits. -/
theorem foldl_leading (v : BitVec 27) (n : Nat) (hn : n ≤ 27) :
    ((List.range n).foldl (fun pos k => if v.getLsbD k then BitVec.ofNat 5 k else pos) 0).toNat =
      Nat.log2 (v.toNat % 2 ^ n) := by
  induction n with
  | zero => simp [Nat.mod_one]
  | succ n ih =>
      have hsplit : v.toNat % 2 ^ (n + 1) = v.toNat % 2 ^ n + 2 ^ n * (v.toNat / 2 ^ n % 2) :=
        Nat.mod_pow_succ
      have hbit : v.getLsbD n = decide (v.toNat / 2 ^ n % 2 = 1) := Nat.testBit_eq_decide_div_mod_eq
      have hlow : v.toNat % 2 ^ n < 2 ^ n := Nat.mod_lt _ (Nat.two_pow_pos n)
      rw [List.range_succ, List.foldl_append, List.foldl_cons, List.foldl_nil]
      by_cases hset : v.toNat / 2 ^ n % 2 = 1
      · -- the bit is the leading one
        rw [if_pos (by rw [hbit, decide_eq_true hset]), hsplit, hset, BitVec.toNat_ofNat]
        have hlog : (v.toNat % 2 ^ n + 2 ^ n * 1).log2 = n :=
          (Nat.log2_eq_iff (by omega)).mpr ⟨by omega, by rw [Nat.pow_succ]; omega⟩
        rw [hlog]
        exact Nat.mod_eq_of_lt (by omega)
      · have hzero : v.toNat / 2 ^ n % 2 = 0 := by omega
        rw [if_neg (by rw [hbit, decide_eq_false hset]; decide), hsplit, hzero, ih (by omega),
          Nat.mul_zero, Nat.add_zero]

theorem toNat_msbPos27 (v : BitVec 27) : (msbPos27 v).toNat = Nat.log2 v.toNat := by
  have hlead := foldl_leading v 27 (Nat.le_refl _)
  rwa [Nat.mod_eq_of_lt v.isLt] at hlead

/-! ## the reference -/

/-- Price times shares of a message. -/
def ownProduct (m : FeatureExtractorV2In) : Nat := m.price.toNat * (m.shares.toNat % 2 ^ 24)

/-- The sum of the products of the last eight messages, up to that of cycle `t`. -/
def exactPxVol (i : Nat → FeatureExtractorV2In) (t : Nat) : Nat :=
  windowSum 8 ((pulses i (t + 1)).map fun u => ownProduct (i u))

/-- The sum of their shares. -/
def exactVol (i : Nat → FeatureExtractorV2In) (t : Nat) : Nat :=
  windowSum 8 ((pulses i (t + 1)).map fun u => (i u).shares.toNat % 2 ^ 24)

/-- For the message of cycle `t`, `px_vol_sum` is the sum of the products, and feature 30 is
that sum shifted by the position of the leading one of the volume. -/
def VwapOwn (i : Nat → FeatureExtractorV2In) (t : Nat) : Prop :=
  (trace i (t + 3)).s1.pxVolSum.toNat = exactPxVol i t ∧
    ((trace i (t + 4)).s2 30).mag.toNat = exactPxVol i t >>> Nat.log2 (exactVol i t)

/-- The quotient has room in the 32 bits of a magnitude. -/
def VwapFits (i : Nat → FeatureExtractorV2In) (t : Nat) : Prop :=
  exactPxVol i t >>> Nat.log2 (exactVol i t) < 2 ^ 32

/-! ## what is computed -/

theorem mem_pulses {n u : Nat} (h : u ∈ pulses i n) : u < n ∧ (i u).fieldsValid = true := by
  induction n with
  | zero => simp [pulses] at h
  | succ n ih =>
      rw [pulses] at h
      split at h
      · next hv =>
          obtain rfl | h := List.mem_cons.mp h
          · exact ⟨Nat.lt_succ_self _, hv⟩
          · exact ⟨Nat.lt_succ_of_lt (ih h).1, (ih h).2⟩
      · exact ⟨Nat.lt_succ_of_lt (ih h).1, (ih h).2⟩

/-- The messages up to one of them. -/
theorem eq_pulses_of_suffix {n : Nat} {us : List Nat} (h : us <:+ pulses i n) :
    us = [] ∨ ∃ u, u < n ∧ (i u).fieldsValid = true ∧ us = pulses i (u + 1) := by
  induction n with
  | zero => exact .inl (List.suffix_nil.mp h)
  | succ n ih =>
      by_cases hv : (i n).fieldsValid = true
      · have hcons : pulses i (n + 1) = n :: pulses i n := if_pos hv
        rw [hcons] at h
        obtain rfl | h := List.suffix_cons_iff.mp h
        · exact .inr ⟨n, Nat.lt_succ_self n, hv, hcons.symm⟩
        · exact (ih h).imp_right fun ⟨u, hu, heq⟩ => ⟨u, Nat.lt_succ_of_lt hu, heq⟩
      · rw [pulses, if_neg hv] at h
        exact (ih h).imp_right fun ⟨u, hu, heq⟩ => ⟨u, Nat.lt_succ_of_lt hu, heq⟩

/-- The sum in stage 1 is that of the inputs before the pulses. -/
theorem toNat_pxVolSum (t : Nat) : (trace i (t + 3)).s1.pxVolSum.toNat =
    windowSum 8 ((pulses i (t + 1)).map (staleProduct i)) := by
  have hr := remembers_trace (i := i) (t + 1)
  rw [(s1_sums (t + 3)).2.2.1, hr.pxVolSum, List.map_map]
  simp only [Function.comp_def, toNat_msgPxvol_taken]

/-- The volume in stage 1 is the messages' own. -/
theorem toNat_volSum (hheld : Held i) (t : Nat) :
    (trace i (t + 3)).s1.volSum.toNat = exactVol i t := by
  have hr := remembers_trace (i := i) (t + 1)
  rw [(s1_sums (t + 3)).2.2.2, hr.toNat_volSum.2, List.map_map, exactVol]
  refine windowSum_congr fun u hu => ?_
  have hv := (mem_pulses (List.mem_of_mem_take hu)).2
  have hshares : (taken i u).sharesS05 = (i (u + 1)).shares.setWidth 24 := rfl
  rw [Function.comp_apply, hshares, BitVec.toNat_setWidth, (hheld u hv).2.1]

/-- Stage 2 takes what stage 1 has of the message. -/
theorem s2_of_pulse (hv : (i t).fieldsValid = true) :
    (trace i (t + 4)).s2 = (trace i (t + 3)).s1.signMag := by
  have hvalid : (trace i (t + 3)).validD1 = true := hv
  exact if_pos hvalid

/-- Without shares there are no products. -/
theorem exactPxVol_le (i : Nat → FeatureExtractorV2In) (t : Nat) :
    exactPxVol i t ≤ 2 ^ 32 * exactVol i t :=
  windowSum_map_le (fun u _ => Nat.mul_le_mul_right _ (Nat.le_of_lt (i u).price.isLt)) 8

/-- Feature 30 in terms of the sum and the volume. -/
theorem toNat_mag_vwap (hheld : Held i) (hv : (i t).fieldsValid = true) :
    ((trace i (t + 4)).s2 30).mag.toNat =
      if exactVol i t = 0 then 0
      else (trace i (t + 3)).s1.pxVolSum.toNat >>> Nat.log2 (exactVol i t) % 2 ^ 32 := by
  have hvol := toNat_volSum hheld t
  rw [s2_of_pulse hv]
  change (SignMag.vwap _ _).mag.toNat = _
  have hzero : (trace i (t + 3)).s1.volSum = 0 ↔ exactVol i t = 0 := by
    rw [← hvol, BitVec.toNat_eq]
    rfl
  simp only [SignMag.vwap, hzero]
  split
  · rfl
  · rw [BitVec.toNat_setWidth, BitVec.ushiftRight_eq', BitVec.toNat_ushiftRight,
      toNat_msbPos27, hvol]

/-- For one message. -/
theorem vwapOwn_of_pulse (hheld : Held i) (hv : (i t).fieldsValid = true) :
    VwapOwn i t ↔
      windowSum 8 ((pulses i (t + 1)).map (staleProduct i)) = exactPxVol i t ∧ VwapFits i t := by
  rw [VwapOwn, toNat_pxVolSum, and_congr_right_iff]
  intro hsum
  rw [toNat_mag_vwap hheld hv, toNat_pxVolSum, hsum, VwapFits]
  split
  · next hvol =>
      have hle := exactPxVol_le i t
      have hnone : exactPxVol i t = 0 := by rw [hvol] at hle; omega
      simp [hnone]
  · rw [Nat.mod_eq_iff_lt (by decide)]

/-- **Feature 30**: in a stream whose fields are held for the cycle after the pulse, it is
right for all messages if and only if the product of each is that of the inputs in the
cycle before, cut to 27 and 18 bits, and the quotients have room. -/
theorem vwapOwn_iff (i : Nat → FeatureExtractorV2In) (hheld : Held i) :
    (∀ t, (i t).fieldsValid = true → VwapOwn i t) ↔
      ∀ t, (i t).fieldsValid = true → ownProduct (i t) = staleProduct i t ∧ VwapFits i t := by
  constructor
  · intro h t hv
    have hown : ∀ u ∈ pulses i (t + 1), staleProduct i u = ownProduct (i u) := by
      refine eq_of_windowSums (d := 7) fun us hus => ?_
      obtain rfl | ⟨u, -, hu, rfl⟩ := eq_pulses_of_suffix hus
      · rfl
      · exact ((vwapOwn_of_pulse hheld hu).mp (h u hu)).1
    have hmem : t ∈ pulses i (t + 1) := by rw [pulses, if_pos hv]; exact List.mem_cons_self ..
    exact ⟨(hown t hmem).symm, ((vwapOwn_of_pulse hheld hv).mp (h t hv)).2⟩
  · intro h t hv
    refine (vwapOwn_of_pulse hheld hv).mpr ⟨windowSum_congr fun u hu => ?_, (h t hv).2⟩
    exact (h u (mem_pulses (List.mem_of_mem_take hu)).2).1.symm

/-! ## one message -/

/-- A buy of 10 at 1000 in cycle 1; before it the inputs are at `price` and `shares`, after it
they stay. -/
def oneMessage (price shares : BitVec 32) (n : Nat) : FeatureExtractorV2In where
  price := if n = 0 then price else 1000
  shares := if n = 0 then shares else 10
  side := true
  symId := 0
  fieldsValid := n == 1
  bboBidPrice := 0
  bboAskPrice := 0
  bboBidSize := 0
  bboAskSize := 0
  l2BidPrice := fun _ => 0
  l2BidSize := fun _ => 0
  l2AskPrice := fun _ => 0
  l2AskSize := fun _ => 0

theorem held_oneMessage (price shares : BitVec 32) : Held (oneMessage price shares) := by
  intro t hv
  obtain rfl : t = 1 := by simpa [oneMessage] using hv
  exact ⟨rfl, rfl, rfl, rfl⟩

/-- When its fields come with the pulse, its product is not in the sum. -/
theorem not_vwapOwn_oneMessage : Held (oneMessage 0 0) ∧ (oneMessage 0 0 1).fieldsValid = true ∧
    ¬ VwapOwn (oneMessage 0 0) 1 := by
  refine ⟨held_oneMessage 0 0, rfl, fun h => ?_⟩
  have hsum := h.1
  revert hsum
  decide +kernel

/-- When they are at the inputs before, it is. -/
theorem vwapOwn_oneMessage : VwapOwn (oneMessage 1000 10) 1 := by
  refine (vwapOwn_iff (oneMessage 1000 10) (held_oneMessage 1000 10)).mpr (fun t hv => ?_) 1 rfl
  obtain rfl : t = 1 := by simpa [oneMessage] using hv
  exact ⟨by decide +kernel, by unfold VwapFits; decide +kernel⟩

end FeatureExtractorV2

end Lliu
