import Lliu.MagToBf16

/-!
# Lliu.FeatureExtractor

`feature_extractor.sv`: the four features of the first version.  The integers are
registered in the cycle after `fields_valid`, signs and magnitudes in the next, and the
vector is out in the third.
-/

namespace Lliu

/-- `FEATURE_VEC_LEN`. -/
abbrev featureVecLen : Nat := 4

/-- The inputs of `feature_extractor`. -/
structure FeatureExtractorIn where
  price : BitVec 32
  side : Bool
  fieldsValid : Bool

/-- The integers of stage 1. -/
structure FeatInts where
  priceDelta : BitVec 32
  sideEncInt : BitVec 32
  flowVal : BitVec 32
  priceNorm : BitVec 32

/-- The registers of `feature_extractor`. -/
structure FeatureExtractor where
  lastPrice : BitVec 32
  orderFlow : BitVec 16
  ints : FeatInts
  validD1 : Bool
  r2 : Fin featureVecLen → SignMag
  validD2 : Bool
  features : Fin featureVecLen → Bfloat16T
  featuresValid : Bool

/-- Stage 1, of a message and what is remembered of those before. -/
def FeatInts.of (lastPrice : BitVec 32) (orderFlow : BitVec 16) (price : BitVec 32) (side : Bool) :
    FeatInts where
  priceDelta := (price.setWidth 33 - lastPrice.setWidth 33).setWidth 32
  sideEncInt := if side then 1 else -1
  flowVal := if side then orderFlow.signExtend 32 + 1 else orderFlow.signExtend 32 - 1
  priceNorm := (price.setWidth 31).setWidth 32

/-- Stage 2a: the side is never zero, the price never negative. -/
def FeatInts.signMag (r : FeatInts) (k : Fin featureVecLen) : SignMag :=
  match k with
  | 0 => .signed r.priceDelta
  | 1 => { SignMag.signed r.sideEncInt with zero := false }
  | 2 => .signed r.flowVal
  | 3 => .unsigned r.priceNorm

namespace FeatureExtractor

/-- The registers after reset. -/
def reset : FeatureExtractor where
  lastPrice := 0
  orderFlow := 0
  ints := { priceDelta := 0, sideEncInt := 0, flowVal := 0, priceNorm := 0 }
  validD1 := false
  r2 := fun _ => { mag := 0, sgn := false, zero := false }
  validD2 := false
  features := fun _ => 0
  featuresValid := false

/-- One clock edge. -/
def step (s : FeatureExtractor) (i : FeatureExtractorIn) : FeatureExtractor where
  lastPrice := if i.fieldsValid then i.price else s.lastPrice
  orderFlow :=
    if i.fieldsValid then if i.side then s.orderFlow + 1 else s.orderFlow - 1 else s.orderFlow
  ints := if i.fieldsValid then .of s.lastPrice s.orderFlow i.price i.side else s.ints
  validD1 := i.fieldsValid
  r2 := if s.validD1 then s.ints.signMag else s.r2
  validD2 := s.validD1
  features := if s.validD2 then fun k => (s.r2 k).toBf16 else s.features
  featuresValid := s.validD2

/-- The vector of the message at the inputs. -/
def vector (s : FeatureExtractor) (i : FeatureExtractorIn) : Fin featureVecLen → Bfloat16T :=
  fun k => ((FeatInts.of s.lastPrice s.orderFlow i.price i.side).signMag k).toBf16

/-- It is out three cycles later. -/
theorem features_of_fieldsValid {s : FeatureExtractor} {i : FeatureExtractorIn}
    (h : i.fieldsValid = true) (i₁ i₂ : FeatureExtractorIn) :
    (((s.step i).step i₁).step i₂).features = s.vector i ∧
      (((s.step i).step i₁).step i₂).featuresValid = true := by
  have h1 : (s.step i).ints = .of s.lastPrice s.orderFlow i.price i.side := if_pos h
  have h2 : ((s.step i).step i₁).r2 = (FeatInts.of s.lastPrice s.orderFlow i.price i.side).signMag :=
    (if_pos h).trans (by rw [h1])
  exact ⟨(if_pos h).trans (by rw [h2]; rfl), h⟩

/-- The outputs change only with `features_valid`. -/
theorem features_step {s : FeatureExtractor} {i : FeatureExtractorIn}
    (h : (s.step i).featuresValid = false) : (s.step i).features = s.features := by
  have hvalid : s.validD2 = false := h
  exact if_neg (by rw [hvalid]; decide)

end FeatureExtractor

end Lliu
