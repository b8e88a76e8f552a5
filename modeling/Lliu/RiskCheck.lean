import Mathlib.Logic.Function.Basic
import Lliu.Pkg

/-!
# Lliu.RiskCheck

`risk_check.sv`: the price band, fat finger and position limit checks of a
proposed order.  The proposal passes three registered stages (`h`, `hh`, `hhh`)
while the band threshold is multiplied out, reads the position of its symbol
(`p1`), adds it (`p2`) and is decided; the verdict is out six cycles after
`score_valid`.

`pos_mem` has no reset in the source; the model starts from zero positions.
The registers `price_h` and `ref_price_h`, which nothing reads, are left out.
-/

namespace Lliu

/-- The inputs of `risk_check`. -/
structure RiskCheckIn where
  scoreValid : Bool
  side : Bool
  price : BitVec 32
  symbolId : SymId
  proposedShares : BitVec 24
  txOverflow : Bool
  bandBps : BitVec 32
  maxQty : BitVec 32
  posLimit : BitVec 24
  killSw : Bool
  refPrice : BitVec 32

/-- The registers that every stage up to `p1` passes on. -/
structure RiskStage where
  scoreValid : Bool
  side : Bool
  symbolId : SymId
  proposedShares : BitVec 24
  blockFat : Bool
  killSw : Bool
  txOverflow : Bool
  deriving DecidableEq, Repr

/-- The registers of stage `p2`. -/
structure RiskStage2 where
  newNetR : BitVec 25
  scoreValidP2 : Bool
  symbolIdP2 : SymId
  blockBandP2 : Bool
  blockFatP2 : Bool
  killSwP2 : Bool
  txOverflowP2 : Bool
  deriving DecidableEq, Repr

/-- `block_reason`. -/
inductive BlockReason where
  | none | priceBand | fatFinger | posLimit
  deriving DecidableEq, Repr

/-- The registers of `risk_check`. -/
structure RiskCheck where
  refPriceD : BitVec 27
  bandBpsD : BitVec 14
  priceDiffH : BitVec 32
  h : RiskStage
  bandThreshR : BitVec 48
  priceDiffHh : BitVec 32
  hh : RiskStage
  bandThresh32R : BitVec 32
  priceDiffHhh : BitVec 32
  hhh : RiskStage
  p1 : RiskStage
  blockBandP1 : Bool
  posMem : SymId → BitVec 24
  posRdData : BitVec 24
  p2 : RiskStage2
  riskPass : Bool
  riskBlocked : Bool
  blockReason : BlockReason
  posWrEnR : Bool
  posWrAddrR : SymId
  posWrDataR : BitVec 24

/-- A stage that holds no proposal. -/
def RiskStage.zero : RiskStage where
  scoreValid := false
  side := false
  symbolId := 0
  proposedShares := 0
  blockFat := false
  killSw := false
  txOverflow := false

namespace RiskCheck

/-- The registers after reset, with zero positions. -/
def reset : RiskCheck where
  refPriceD := 0
  bandBpsD := 0
  priceDiffH := 0
  h := RiskStage.zero
  bandThreshR := 0
  priceDiffHh := 0
  hh := RiskStage.zero
  bandThresh32R := 0
  priceDiffHhh := 0
  hhh := RiskStage.zero
  p1 := RiskStage.zero
  blockBandP1 := false
  posMem := fun _ => 0
  posRdData := 0
  p2 :=
    { newNetR := 0
      scoreValidP2 := false
      symbolIdP2 := 0
      blockBandP2 := false
      blockFatP2 := false
      killSwP2 := false
      txOverflowP2 := false }
  riskPass := false
  riskBlocked := false
  blockReason := .none
  posWrEnR := false
  posWrAddrR := 0
  posWrDataR := 0

/-! ## combinational signals -/

/-- `block_fat_c0`. -/
def blockFatC0 (i : RiskCheckIn) : Bool :=
  i.scoreValid && i.maxQty.ult (i.proposedShares.setWidth 32)

/-- `|price - ref_price|`. -/
def priceDiff (i : RiskCheckIn) : BitVec 32 :=
  if i.refPrice ≤ i.price then i.price - i.refPrice else i.refPrice - i.price

/-- `block_band_c05`. -/
def blockBandC05 (s : RiskCheck) : Bool :=
  s.hhh.scoreValid && s.bandThresh32R.ult s.priceDiffHhh

/-- `new_net`: the net position with the proposal. -/
def newNet (s : RiskCheck) : BitVec 25 :=
  if s.p1.side then s.posRdData.signExtend 25 + s.p1.proposedShares.setWidth 25
  else s.posRdData.signExtend 25 - s.p1.proposedShares.setWidth 25

/-- `new_net_abs`. -/
def newNetAbs (r : RiskStage2) : BitVec 24 :=
  if r.newNetR.msb then ~~~(r.newNetR.setWidth 24) + 1 else r.newNetR.setWidth 24

/-- `block_pos_c1`. -/
def blockPosC1 (r : RiskStage2) (posLimit : BitVec 24) : Bool :=
  r.scoreValidP2 && posLimit.ult (newNetAbs r)

/-- `pass_c1` and `reason_c1`. -/
def verdict (r : RiskStage2) (posLimit : BitVec 24) : Bool × BlockReason :=
  if !r.scoreValidP2 then (false, .none)
  else if r.killSwP2 || r.txOverflowP2 then (false, .none)
  else if r.blockBandP2 then (false, .priceBand)
  else if r.blockFatP2 then (false, .fatFinger)
  else if blockPosC1 r posLimit then (false, .posLimit)
  else (true, .none)

/-! ## the clock edge -/

/-- The proposal as it enters stage `h`. -/
def stageIn (i : RiskCheckIn) : RiskStage where
  scoreValid := i.scoreValid
  side := i.side
  symbolId := i.symbolId
  proposedShares := i.proposedShares
  blockFat := blockFatC0 i
  killSw := i.killSw
  txOverflow := i.txOverflow

/-- One clock edge. -/
def step (s : RiskCheck) (i : RiskCheckIn) : RiskCheck where
  refPriceD := i.refPrice.setWidth 27
  bandBpsD := i.bandBps.setWidth 14
  priceDiffH := priceDiff i
  h := stageIn i
  bandThreshR := s.refPriceD.setWidth 48 * s.bandBpsD.setWidth 48
  priceDiffHh := s.priceDiffH
  hh := s.h
  bandThresh32R := s.bandThreshR.extractLsb' 13 32
  priceDiffHhh := s.priceDiffHh
  hhh := s.hh
  p1 := s.hhh
  blockBandP1 := s.blockBandC05
  posMem := if s.posWrEnR then Function.update s.posMem s.posWrAddrR s.posWrDataR else s.posMem
  posRdData := s.posMem s.hhh.symbolId
  p2 :=
    { newNetR := s.newNet
      scoreValidP2 := s.p1.scoreValid
      symbolIdP2 := s.p1.symbolId
      blockBandP2 := s.blockBandP1
      blockFatP2 := s.p1.blockFat
      killSwP2 := s.p1.killSw
      txOverflowP2 := s.p1.txOverflow }
  riskPass := (verdict s.p2 i.posLimit).1
  riskBlocked := s.p2.scoreValidP2 && !(verdict s.p2 i.posLimit).1
  blockReason := (verdict s.p2 i.posLimit).2
  posWrEnR := (verdict s.p2 i.posLimit).1
  posWrAddrR := s.p2.symbolIdP2
  posWrDataR := s.p2.newNetR.setWidth 24

/-! ## the checks of a proposal -/

/-- What the checks give for a proposal, at position `pos`. -/
def checks (i : RiskCheckIn) (pos : BitVec 24) : RiskStage2 where
  newNetR :=
    if i.side then pos.signExtend 25 + i.proposedShares.setWidth 25
    else pos.signExtend 25 - i.proposedShares.setWidth 25
  scoreValidP2 := i.scoreValid
  symbolIdP2 := i.symbolId
  blockBandP2 := i.scoreValid &&
    (((i.refPrice.setWidth 27).setWidth 48 * (i.bandBps.setWidth 14).setWidth 48).extractLsb' 13 32).ult
      (priceDiff i)
  blockFatP2 := blockFatC0 i
  killSwP2 := i.killSw
  txOverflowP2 := i.txOverflow

/-- A proposal is checked as it came in; the position is read in its fourth cycle. -/
theorem p2_step (s : RiskCheck) (i₀ i₁ i₂ i₃ i₄ : RiskCheckIn) :
    (((((s.step i₀).step i₁).step i₂).step i₃).step i₄).p2 =
      checks i₀ ((((s.step i₀).step i₁).step i₂).posMem i₀.symbolId) := rfl

end RiskCheck

end Lliu
