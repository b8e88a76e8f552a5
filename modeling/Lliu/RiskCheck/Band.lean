import Lliu.RiskCheck.Verdicts

/-!
# Lliu.RiskCheck.Band

The price band in exact numbers.  The product of reference price and basis points is
exact on the operands that are used, 27 and 14 bits; it is then divided by `2^13`, not
by 10000, so a price may pass that is up to 22% further from the reference than
configured (`passes_inBand_iff`).
-/

namespace Lliu

namespace RiskCheck

open Hdl

variable {p : SymId → BitVec 24} {i : Nat → RiskCheckIn}

/-- `|price - ref_price|`. -/
def deviation (price refPrice : BitVec 32) : Nat := ((price.toNat : Int) - refPrice.toNat).natAbs

/-- The band as configured: the deviation is at most `band_bps` in 10000 of the reference. -/
def InBand (price refPrice bandBps : BitVec 32) : Prop :=
  deviation price refPrice * 10000 ≤ bandBps.toNat * refPrice.toNat

/-- The product that the band is formed of. -/
def bandProduct (refPrice bandBps : BitVec 32) : Nat :=
  (refPrice.toNat % 2 ^ 27) * (bandBps.toNat % 2 ^ 14)

instance (price refPrice bandBps : BitVec 32) : Decidable (InBand price refPrice bandBps) :=
  inferInstanceAs (Decidable (_ ≤ _))

/-! ## the comparison -/

theorem toNat_priceDiff (i : RiskCheckIn) :
    (priceDiff i).toNat = deviation i.price i.refPrice := by
  rw [priceDiff, deviation]
  split
  · next hle =>
      have hle' := BitVec.le_def.mp hle
      rw [BitVec.toNat_sub_of_le hle]
      omega
  · next hlt =>
      have hle := BitVec.le_of_lt (BitVec.not_le.mp hlt)
      have hle' := BitVec.le_def.mp hle
      rw [BitVec.toNat_sub_of_le hle]
      omega

theorem bandProduct_lt (refPrice bandBps : BitVec 32) : bandProduct refPrice bandBps < 2 ^ 41 := by
  have href : refPrice.toNat % 2 ^ 27 < 2 ^ 27 := Nat.mod_lt _ (by decide)
  have hbps : bandBps.toNat % 2 ^ 14 < 2 ^ 14 := Nat.mod_lt _ (by decide)
  calc bandProduct refPrice bandBps < 2 ^ 27 * 2 ^ 14 := Nat.mul_lt_mul'' href hbps
    _ = 2 ^ 41 := by decide

/-- The threshold is an eight-thousandth of the product, nothing of it is cut off. -/
theorem toNat_bandThresh (i : RiskCheckIn) :
    (bandThresh i).toNat = bandProduct i.refPrice i.bandBps / 8192 := by
  have hlt := bandProduct_lt i.refPrice i.bandBps
  have hprod : ((i.refPrice.setWidth 27).setWidth 48 * (i.bandBps.setWidth 14).setWidth 48).toNat =
      bandProduct i.refPrice i.bandBps := by
    have hwide : ∀ {w} (x : BitVec w), w ≤ 48 → (x.setWidth 48).toNat = x.toNat := fun x hw =>
      BitVec.toNat_setWidth_of_le hw
    rw [BitVec.toNat_mul, hwide _ (by decide), hwide _ (by decide), BitVec.toNat_setWidth,
      BitVec.toNat_setWidth]
    exact Nat.mod_eq_of_lt (Nat.lt_trans hlt (by decide))
  rw [bandThresh, BitVec.extractLsb'_toNat, hprod, Nat.shiftRight_eq_div_pow]
  exact Nat.mod_eq_of_lt (by omega)

/-- The band check lets a price through if `2^13` times its deviation is at most the product. -/
theorem priceDiff_le_iff (i : RiskCheckIn) : priceDiff i ≤ bandThresh i ↔
    8192 * deviation i.price i.refPrice ≤ bandProduct i.refPrice i.bandBps := by
  rw [BitVec.le_def, toNat_priceDiff, toNat_bandThresh, Nat.le_div_iff_mul_le (by decide),
    Nat.mul_comm]

/-! ## the orders that pass -/

/-- What passes is within the band of the code. -/
theorem le_of_riskPass {n : Nat} (h : (trace p i (n + 6)).riskPass = true) :
    8192 * deviation (i n).price (i n).refPrice ≤ bandProduct (i n).refPrice (i n).bandBps := by
  have hv : (i n).scoreValid = true := by
    by_contra hne
    rw [riskPass_of_not_scoreValid (Bool.eq_false_iff.mpr hne)] at h
    cases h
  have hpass := congrArg Prod.fst (outputs_add (p := p) (i := i) n)
  rw [h] at hpass
  obtain ⟨⟨-, -, hband, -⟩, -⟩ := (fst_verdict_checks hv _ _).mp hpass.symm
  exact (priceDiff_le_iff _).mp hband

/-- An order of no shares, which only the band may stop. -/
def emptyOrder (price refPrice bandBps : BitVec 32) : RiskCheckIn where
  scoreValid := true
  side := true
  price := price
  symbolId := 0
  proposedShares := 0
  txOverflow := false
  bandBps := bandBps
  maxQty := 0
  posLimit := 0
  killSw := false
  refPrice := refPrice

/-- It passes if it is within the band of the code. -/
theorem riskPass_emptyOrder {price refPrice bandBps : BitVec 32}
    (h : 8192 * deviation price refPrice ≤ bandProduct refPrice bandBps) :
    (trace (fun _ => 0) (fun _ => emptyOrder price refPrice bandBps) 6).riskPass = true := by
  have hout := congrArg Prod.fst
    (outputs_add (p := fun _ => 0) (i := fun _ => emptyOrder price refPrice bandBps) 0)
  refine hout.trans ((fst_verdict_checks rfl _ _).mpr ⟨⟨rfl, rfl, ?_, Nat.le_refl 0⟩, ?_⟩)
  · exact (priceDiff_le_iff _).mpr h
  · have hpos : posRead (fun _ => 0) (fun _ => emptyOrder price refPrice bandBps) 0 = 0 := rfl
    rw [hpos]
    exact Nat.le_refl 0

/-- **Price band**: whatever passes with these prices is within the configured band if and
only if the deviation is so, or is more than an eight-thousandth of the product. -/
theorem passes_inBand_iff (price refPrice bandBps : BitVec 32) :
    (∀ (p : SymId → BitVec 24) (i : Nat → RiskCheckIn) (n : Nat), (i n).price = price →
      (i n).refPrice = refPrice → (i n).bandBps = bandBps →
        (trace p i (n + 6)).riskPass = true → InBand price refPrice bandBps) ↔
    InBand price refPrice bandBps ∨
      bandProduct refPrice bandBps < 8192 * deviation price refPrice := by
  constructor
  · intro h
    by_cases hlt : bandProduct refPrice bandBps < 8192 * deviation price refPrice
    · exact .inr hlt
    · have hpass := riskPass_emptyOrder (Nat.not_lt.mp hlt)
      exact .inl (h _ (fun _ => emptyOrder price refPrice bandBps) 0 rfl rfl rfl hpass)
  · rintro (hin | hlt) p i n rfl rfl rfl hpass
    · exact hin
    · exact absurd (le_of_riskPass hpass) (Nat.not_le.mpr hlt)

/-- At 200 basis points of 10000 the price 10243 passes. -/
theorem passes_out_of_band :
    ¬ ∀ (p : SymId → BitVec 24) (i : Nat → RiskCheckIn) (n : Nat),
      (trace p i (n + 6)).riskPass = true → InBand (i n).price (i n).refPrice (i n).bandBps := by
  intro h
  have hpass : (trace (fun _ => 0) (fun _ => emptyOrder 10243 10000 200) 6).riskPass = true :=
    riskPass_emptyOrder (by decide)
  exact absurd (h _ _ 0 hpass) (by decide)

end RiskCheck

end Lliu
