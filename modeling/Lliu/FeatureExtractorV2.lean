import Mathlib.Logic.Function.Basic
import Lliu.MagToBf16

/-!
# Lliu.FeatureExtractorV2

`feature_extractor_v2.sv`: the 32 features of a message.

Stage 0.5 registers every input in every cycle.  `fv_s075` is two cycles behind
`fields_valid`, so stage 1 takes the inputs of the cycle *after* the pulse
together with the product of the inputs of the cycle *before* it.  Then follow the sign and
magnitude (stage 2), the leading zeros of the low half (stage 2.5), the low half
in bfloat16 and the leading zeros of the high half (stage 3), and the outputs
(stage 4), seven cycles after the pulse.
-/

namespace Lliu

/-- For the positions in the vector. -/
@[instance]
theorem neZero_vecLen : NeZero 32 := ⟨by decide⟩

/-- The inputs of `feature_extractor_v2`. -/
structure FeatureExtractorV2In where
  price : BitVec 32
  shares : BitVec 32
  side : Bool
  symId : SymId
  fieldsValid : Bool
  bboBidPrice : BitVec 32
  bboAskPrice : BitVec 32
  bboBidSize : BitVec 24
  bboAskSize : BitVec 24
  l2BidPrice : Fin 4 → BitVec 32
  l2BidSize : Fin 4 → BitVec 24
  l2AskPrice : Fin 4 → BitVec 32
  l2AskSize : Fin 4 → BitVec 24

/-- The registers of stage 0.5. -/
structure FeatStage05 where
  priceD : BitVec 27
  sharesD : BitVec 18
  msgPxvolS05 : BitVec 48
  msgPxvolS075 : BitVec 48
  fvS05 : Bool
  fvS075 : Bool
  priceS05 : BitVec 32
  sharesS05 : BitVec 24
  sideS05 : Bool
  symIdS05 : SymId
  bboBidPxS05 : BitVec 32
  bboAskPxS05 : BitVec 32
  bboBidSzS05 : BitVec 24
  bboAskSzS05 : BitVec 24
  l2BidPxS05 : Fin 4 → BitVec 32
  l2BidSzS05 : Fin 4 → BitVec 24
  l2AskPxS05 : Fin 4 → BitVec 32
  l2AskSzS05 : Fin 4 → BitVec 24

/-- The state that outlives a message: last prices, the order flow counter, and
the rolling windows with their sums. -/
structure FeatHistory where
  lastPriceLut : SymId → BitVec 32
  orderFlowCnt : BitVec 16
  buyVolWin : Fin 8 → BitVec 24
  sellVolWin : Fin 8 → BitVec 24
  pxVolWin : Fin 8 → BitVec 56
  msgLcntWin : Fin 8 → BitVec 16
  buyVolSum : BitVec 27
  sellVolSum : BitVec 27
  pxVolSum : BitVec 59

/-- The registers of stage 1. -/
structure FeatStage1 where
  feat : Fin 12 → BitVec 32
  l2BidPx : Fin 4 → BitVec 32
  l2AskPx : Fin 4 → BitVec 32
  l2BidSz : Fin 4 → BitVec 32
  l2AskSz : Fin 4 → BitVec 32
  buyVolSum : BitVec 27
  sellVolSum : BitVec 27
  pxVolSum : BitVec 59
  volSum : BitVec 27
  msgDelta : BitVec 16

/-- A feature with the leading zeros of its magnitude counted. -/
structure NormMag extends SignMag where
  lz : BitVec 5
  deriving DecidableEq, Repr

/-- The registers of `feature_extractor_v2`. -/
structure FeatureExtractorV2 where
  s05 : FeatStage05
  localCnt : BitVec 16
  hist : FeatHistory
  s1 : FeatStage1
  validD1 : Bool
  s2 : Fin 32 → SignMag
  validD2 : Bool
  s25Lo : Fin 16 → NormMag
  s25Hi : Fin 16 → SignMag
  validD25 : Bool
  s3FeatLo : Fin 16 → Bfloat16T
  s3Hi : Fin 16 → NormMag
  validD3 : Bool
  features : Nat → Bfloat16T
  featuresValid : Bool

/-! ## bfloat16 conversion -/

/-- The count as it is registered, in five bits. -/
def SignMag.norm (x : SignMag) : NormMag := { x with lz := BitVec.ofNat 5 (leadingZeros x.mag) }

/-- The exponent and mantissa from a counted magnitude. -/
def NormMag.bf16 (x : NormMag) : Bfloat16T :=
  if x.zero then 0
  else
    let expV : BitVec 8 := 158#8 - x.lz.setWidth 8
    let manV : BitVec 7 := ((x.mag <<< (x.lz.setWidth 6 + 1#6)) >>> 25).setWidth 7
    BitVec.ofBool x.sgn ++ expV ++ manV

/-- `msb_pos27`: the position of the most significant set bit. -/
def msbPos27 (v : BitVec 27) : BitVec 5 :=
  (List.range 27).foldl (fun pos k => if v.getLsbD k then BitVec.ofNat 5 k else pos) 0

/-! ## stage 0.5 -/

/-- The registers of stage 0.5 after a clock edge. -/
def FeatStage05.step (s : FeatStage05) (i : FeatureExtractorV2In) : FeatStage05 where
  priceD := i.price.setWidth 27
  sharesD := i.shares.setWidth 18
  msgPxvolS05 := s.priceD.setWidth 48 * s.sharesD.setWidth 48
  msgPxvolS075 := s.msgPxvolS05
  fvS05 := i.fieldsValid
  fvS075 := s.fvS05
  priceS05 := i.price
  sharesS05 := i.shares.setWidth 24
  sideS05 := i.side
  symIdS05 := i.symId
  bboBidPxS05 := i.bboBidPrice
  bboAskPxS05 := i.bboAskPrice
  bboBidSzS05 := i.bboBidSize
  bboAskSzS05 := i.bboAskSize
  l2BidPxS05 := i.l2BidPrice
  l2BidSzS05 := i.l2BidSize
  l2AskPxS05 := i.l2AskPrice
  l2AskSzS05 := i.l2AskSize

/-! ## stage 1 -/

/-- A window with the newest entry shifted in. -/
def shiftWin (win : Fin 8 → α) (x : α) : Fin 8 → α := fun k =>
  if h : k.val = 0 then x else win ⟨k.val - 1, by omega⟩

/-- The buy volume of the message. -/
def FeatStage05.buyVol (r : FeatStage05) : BitVec 24 := if r.sideS05 then r.sharesS05 else 0

/-- The sell volume of the message. -/
def FeatStage05.sellVol (r : FeatStage05) : BitVec 24 := if r.sideS05 then 0 else r.sharesS05

/-- `msg_pxvol`. -/
def FeatStage05.msgPxvol (r : FeatStage05) : BitVec 56 := r.msgPxvolS075.setWidth 56

/-- The history after the message in stage 0.5. -/
def FeatHistory.push (h : FeatHistory) (r : FeatStage05) (localCnt : BitVec 16) : FeatHistory where
  lastPriceLut := Function.update h.lastPriceLut r.symIdS05 r.priceS05
  orderFlowCnt := if r.sideS05 then h.orderFlowCnt + 1 else h.orderFlowCnt - 1
  buyVolWin := shiftWin h.buyVolWin r.buyVol
  sellVolWin := shiftWin h.sellVolWin r.sellVol
  pxVolWin := shiftWin h.pxVolWin r.msgPxvol
  msgLcntWin := shiftWin h.msgLcntWin localCnt
  buyVolSum := h.buyVolSum + r.buyVol.setWidth 27 - (h.buyVolWin 7).setWidth 27
  sellVolSum := h.sellVolSum + r.sellVol.setWidth 27 - (h.sellVolWin 7).setWidth 27
  pxVolSum := h.pxVolSum + r.msgPxvol.setWidth 59 - (h.pxVolWin 7).setWidth 59

/-- Features 0 to 11 as 32-bit integers. -/
def FeatHistory.intFeature (h : FeatHistory) (r : FeatStage05) (k : Fin 12) : BitVec 32 :=
  match k with
  | 0 => (r.priceS05.setWidth 33 - (h.lastPriceLut r.symIdS05).setWidth 33).setWidth 32
  | 1 => if r.sideS05 then 1 else -1
  | 2 =>
      if r.sideS05 then h.orderFlowCnt.signExtend 32 + 1 else h.orderFlowCnt.signExtend 32 - 1
  | 3 => (r.priceS05.setWidth 31).setWidth 32
  | 4 => r.bboBidPxS05
  | 5 => r.bboAskPxS05
  | 6 => r.bboBidSzS05.setWidth 32
  | 7 => r.bboAskSzS05.setWidth 32
  | 8 => if r.bboBidPxS05 ≤ r.bboAskPxS05 then r.bboAskPxS05 - r.bboBidPxS05 else 0
  | 9 => (r.bboAskPxS05 + r.bboBidPxS05) >>> 1
  | 10 => r.sharesS05.setWidth 32 - r.bboBidSzS05.setWidth 32
  | 11 => r.sharesS05.setWidth 32 - r.bboAskSzS05.setWidth 32

/-- The registers of stage 1 for the message in stage 0.5. -/
def FeatHistory.stage1 (h : FeatHistory) (r : FeatStage05) (localCnt : BitVec 16) : FeatStage1 :=
  let h' := h.push r localCnt
  { feat := h.intFeature r
    l2BidPx := r.l2BidPxS05
    l2AskPx := r.l2AskPxS05
    l2BidSz := fun k => (r.l2BidSzS05 k).setWidth 32
    l2AskSz := fun k => (r.l2AskSzS05 k).setWidth 32
    buyVolSum := h'.buyVolSum
    sellVolSum := h'.sellVolSum
    pxVolSum := h'.pxVolSum
    volSum := h'.buyVolSum + h'.sellVolSum
    msgDelta := localCnt - h.msgLcntWin 7 }

/-! ## stage 2 -/

/-- Feature 1 is never zero, and of magnitude one. -/
def SignMag.sideFeature (x : BitVec 32) : SignMag where
  mag := 1
  sgn := x.msb
  zero := false

/-- Feature 30: the volume-weighted price, divided by a power of two. -/
def SignMag.vwap (pxVolSum : BitVec 59) (volSum : BitVec 27) : SignMag where
  mag := if volSum = 0 then 0 else (pxVolSum >>> msbPos27 volSum).setWidth 32
  sgn := false
  zero := volSum == 0

/-- The 32 features by sign and magnitude. -/
def FeatStage1.signMag (s : FeatStage1) (k : Fin 32) : SignMag :=
  if h : k.val < 12 then
    let x := s.feat ⟨k.val, h⟩
    if k = 1 then .sideFeature x
    else if k = 0 ∨ k = 2 ∨ k = 10 ∨ k = 11 then .signed x
    else .unsigned x
  else if k.val < 16 then .unsigned (s.l2BidPx (Fin.ofNat 4 k.val))
  else if k.val < 20 then .unsigned (s.l2AskPx (Fin.ofNat 4 k.val))
  else if k.val < 24 then .unsigned (s.l2BidSz (Fin.ofNat 4 k.val))
  else if k.val < 28 then .unsigned (s.l2AskSz (Fin.ofNat 4 k.val))
  else if k = 28 then .unsigned (s.buyVolSum.setWidth 32)
  else if k = 29 then .unsigned (s.sellVolSum.setWidth 32)
  else if k = 30 then .vwap s.pxVolSum s.volSum
  else .unsigned (s.msgDelta.setWidth 32)

/-! ## the clock edge -/

namespace FeatureExtractorV2

/-- Features `0 .. 15`. -/
def lowHalf (f : Fin 32 → α) (k : Fin 16) : α := f ⟨k.val, by omega⟩

/-- Features `16 .. 31`. -/
def highHalf (f : Fin 32 → α) (k : Fin 16) : α := f ⟨k.val + 16, by omega⟩

/-- The output registers: the low half latched, the high half assembled. -/
def outputs (lo : Fin 16 → Bfloat16T) (hi : Fin 16 → NormMag) (old : Nat → Bfloat16T) :
    Nat → Bfloat16T := fun k =>
  if h : k < 16 then lo ⟨k, h⟩
  else if h : k - 16 < 16 then (hi ⟨k - 16, h⟩).bf16
  else old k

/-- One clock edge. -/
def step (s : FeatureExtractorV2) (i : FeatureExtractorV2In) : FeatureExtractorV2 where
  s05 := s.s05.step i
  localCnt := s.localCnt + 1
  hist := if s.s05.fvS075 then s.hist.push s.s05 s.localCnt else s.hist
  s1 := if s.s05.fvS075 then s.hist.stage1 s.s05 s.localCnt else s.s1
  validD1 := s.s05.fvS075
  s2 := if s.validD1 then s.s1.signMag else s.s2
  validD2 := s.validD1
  s25Lo := if s.validD2 then fun k => (lowHalf s.s2 k).norm else s.s25Lo
  s25Hi := if s.validD2 then highHalf s.s2 else s.s25Hi
  validD25 := s.validD2
  s3FeatLo := if s.validD25 then fun k => (s.s25Lo k).bf16 else s.s3FeatLo
  s3Hi := if s.validD25 then fun k => (s.s25Hi k).norm else s.s3Hi
  validD3 := s.validD25
  features := if s.validD3 then outputs s.s3FeatLo s.s3Hi s.features else s.features
  featuresValid := s.validD3

/-- A zero feature. -/
def zeroMag : SignMag where
  mag := 0
  sgn := false
  zero := true

/-- The registers after reset. -/
def reset : FeatureExtractorV2 where
  s05 :=
    { priceD := 0
      sharesD := 0
      msgPxvolS05 := 0
      msgPxvolS075 := 0
      fvS05 := false
      fvS075 := false
      priceS05 := 0
      sharesS05 := 0
      sideS05 := false
      symIdS05 := 0
      bboBidPxS05 := 0
      bboAskPxS05 := 0
      bboBidSzS05 := 0
      bboAskSzS05 := 0
      l2BidPxS05 := fun _ => 0
      l2BidSzS05 := fun _ => 0
      l2AskPxS05 := fun _ => 0
      l2AskSzS05 := fun _ => 0 }
  localCnt := 0
  hist :=
    { lastPriceLut := fun _ => 0
      orderFlowCnt := 0
      buyVolWin := fun _ => 0
      sellVolWin := fun _ => 0
      pxVolWin := fun _ => 0
      msgLcntWin := fun _ => 0
      buyVolSum := 0
      sellVolSum := 0
      pxVolSum := 0 }
  s1 :=
    { feat := fun _ => 0
      l2BidPx := fun _ => 0
      l2AskPx := fun _ => 0
      l2BidSz := fun _ => 0
      l2AskSz := fun _ => 0
      buyVolSum := 0
      sellVolSum := 0
      pxVolSum := 0
      volSum := 0
      msgDelta := 0 }
  validD1 := false
  s2 := fun _ => zeroMag
  validD2 := false
  s25Lo := fun _ => { zeroMag with lz := 0 }
  s25Hi := fun _ => zeroMag
  validD25 := false
  s3FeatLo := fun _ => 0
  s3Hi := fun _ => { zeroMag with lz := 0 }
  validD3 := false
  features := fun _ => 0
  featuresValid := false

/-! ## the vector of a message -/

/-- The vector for the message in stage 0.5; `old` are the outputs beyond 32. -/
def vectorOf (h : FeatHistory) (r : FeatStage05) (localCnt : BitVec 16) (old : Nat → Bfloat16T) :
    Nat → Bfloat16T :=
  let v := (h.stage1 r localCnt).signMag
  outputs (fun k => (lowHalf v k).norm.bf16) (fun k => (highHalf v k).norm) old

/-- What stage 2 holds is out three cycles later. -/
theorem outputs_of_validD2 {s : FeatureExtractorV2} (h : s.validD2 = true)
    (i₀ i₁ i₂ : FeatureExtractorV2In) : (((s.step i₀).step i₁).step i₂).features =
      outputs (fun k => (lowHalf s.s2 k).norm.bf16) (fun k => (highHalf s.s2 k).norm)
        ((s.step i₀).step i₁).features := by
  have h25 : (s.step i₀).s25Lo = (fun k => (lowHalf s.s2 k).norm) ∧
      (s.step i₀).s25Hi = highHalf s.s2 := ⟨if_pos h, if_pos h⟩
  have h3 : ((s.step i₀).step i₁).s3FeatLo = (fun k => (lowHalf s.s2 k).norm.bf16) ∧
      ((s.step i₀).step i₁).s3Hi = fun k => (highHalf s.s2 k).norm :=
    ⟨(if_pos h).trans (by rw [h25.1]), (if_pos h).trans (by rw [h25.2])⟩
  exact (if_pos h).trans (by rw [h3.1, h3.2])

/-- The vector is out five cycles after the message was in stage 0.5. -/
theorem features_of_fvS075 {s : FeatureExtractorV2} (h : s.s05.fvS075 = true)
    (i₀ i₁ i₂ i₃ i₄ : FeatureExtractorV2In) :
    (((((s.step i₀).step i₁).step i₂).step i₃).step i₄).features =
      vectorOf s.hist s.s05 s.localCnt ((((s.step i₀).step i₁).step i₂).step i₃).features := by
  have h1 : (s.step i₀).s1 = s.hist.stage1 s.s05 s.localCnt := if_pos h
  have h2 : ((s.step i₀).step i₁).s2 = (s.hist.stage1 s.s05 s.localCnt).signMag :=
    (if_pos h).trans (by rw [h1])
  have hvalid : ((s.step i₀).step i₁).validD2 = true := h
  rw [outputs_of_validD2 hvalid, h2]
  rfl

end FeatureExtractorV2

end Lliu
