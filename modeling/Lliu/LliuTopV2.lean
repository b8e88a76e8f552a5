import Lliu.FeatureExtractorV2
import Lliu.ItchParserV2
import Lliu.LatencyHistogram
import Lliu.LliuCore
import Lliu.OrderBook
import Lliu.OuchEngine
import Lliu.PtpCore
import Lliu.RiskCheck
import Lliu.SnapshotMux
import Lliu.StrategyArbiter
import Lliu.SymbolFilter

/-!
# Lliu.LliuTopV2

`lliu_top_v2.sv`: the top level.  ITCH messages pass the parser to the order
book and the symbol filter; those on the watchlist reach the feature extractor,
whose vector the eight cores score.  The best score goes to the risk check with
the order fields held since the message reached the extractor, and what passes
to the OUCH engine.

* `Axil` holds the registers of the AXI4-Lite write channel and decode,
  `AxilRead` those of the read channel.
* `LliuTopV2` is the whole register state and `LliuTopV2.step` its clock edge.
  Every instance `u` has its inputs in a definition of its own.
-/

namespace Lliu

/-- The inputs of `lliu_top_v2`; the write strobes are not used. -/
structure LliuTopV2In where
  sAxisTdata : BitVec 64
  sAxisTvalid : Bool
  sAxisTlast : Bool
  mAxisTready : Bool
  sAxilAwaddr : BitVec 12
  sAxilAwvalid : Bool
  sAxilWdata : BitVec 32
  sAxilWvalid : Bool
  sAxilBready : Bool
  sAxilAraddr : BitVec 12
  sAxilArvalid : Bool
  sAxilRready : Bool
  snapReq : Bool
  snapReady : Bool

/-! ## the AXI4-Lite write channel -/

/-- The registers of the AXI4-Lite write channel and of its decode. -/
structure Axil where
  awCap : Bool
  wCap : Bool
  wrAddrR : BitVec 12
  wrDataR : BitVec 32
  sAxilBvalid : Bool
  bandBpsR : BitVec 32
  maxQtyR : BitVec 32
  scoreThreshR : Float32T
  killSwR : Bool
  axilClear : Bool
  riskBlockedLatch : Bool
  camIdxLoR : BitVec 8
  camIdxHiR : BitVec 2
  camDatLoR : BitVec 32
  camDatHiR : BitVec 32
  camWrValid : Bool
  camWrData : BitVec 64
  camWrIndex : BitVec (symFilterIdxW + 1)
  camWrEnBit : Bool
  tmplAddrStg : BitVec 9
  tmplLoStg : BitVec 32
  tmplWrEn : Bool
  tmplWrAddr : BitVec 9
  tmplWrData : BitVec 64
  wgtWrEnAr : Fin numCores → Bool
  wgtWrAddrAr : Fin numCores → BitVec 5
  wgtWrDataAr : Fin numCores → Bfloat16T
  coreSharesAr : Fin numCores → BitVec 24

namespace Axil

/-- The registers after reset. -/
def reset : Axil where
  awCap := false
  wCap := false
  wrAddrR := 0
  wrDataR := 0
  sAxilBvalid := false
  bandBpsR := 200
  maxQtyR := 10000
  scoreThreshR := 0
  killSwR := false
  axilClear := false
  riskBlockedLatch := false
  camIdxLoR := 0
  camIdxHiR := 0
  camDatLoR := 0
  camDatHiR := 0
  camWrValid := false
  camWrData := 0
  camWrIndex := 0
  camWrEnBit := false
  tmplAddrStg := 0
  tmplLoStg := 0
  tmplWrEn := false
  tmplWrAddr := 0
  tmplWrData := 0
  wgtWrEnAr := fun _ => false
  wgtWrAddrAr := fun _ => 0
  wgtWrDataAr := fun _ => 0
  coreSharesAr := fun _ => 100

/-- A captured write is ready to be applied. -/
def fire (s : Axil) : Bool := s.awCap && s.wCap && !s.sAxilBvalid

/-- `risk_status_rd`: a read of the risk status is taken. -/
def riskStatusRd (i : LliuTopV2In) (rvalid : Bool) : Bool :=
  i.sAxilArvalid && !rvalid && i.sAxilAraddr == 0x410#12

/-- The pulses fall, the handshakes are captured, and the latch of blocked
orders is updated. -/
def advance (s : Axil) (i : LliuTopV2In) (riskStatusRd riskBlocked : Bool) : Axil :=
  { s with
    camWrValid := false
    tmplWrEn := false
    axilClear := false
    wgtWrEnAr := fun _ => false
    riskBlockedLatch := riskBlocked || (s.riskBlockedLatch && !riskStatusRd)
    awCap := s.awCap || i.sAxilAwvalid
    wrAddrR := if i.sAxilAwvalid && !s.awCap then i.sAxilAwaddr else s.wrAddrR
    wCap := s.wCap || i.sAxilWvalid
    wrDataR := if i.sAxilWvalid && !s.wCap then i.sAxilWdata else s.wrDataR
    sAxilBvalid := s.sAxilBvalid && !i.sAxilBready }

/-- The core addressed by a weight write. -/
def wgtCore (addr : BitVec 12) : Fin numCores := Fin.ofNat _ (addr.extractLsb' 7 3).toNat

/-- A weight write. -/
def writeWeight (s : Axil) (d : Axil) : Axil :=
  { d with
    wgtWrEnAr := Function.update d.wgtWrEnAr (wgtCore s.wrAddrR) true
    wgtWrAddrAr := Function.update d.wgtWrAddrAr (wgtCore s.wrAddrR) (s.wrAddrR.extractLsb' 2 5)
    wgtWrDataAr := Function.update d.wgtWrDataAr (wgtCore s.wrAddrR) (s.wrDataR.setWidth 16) }

/-- `CAM_CTRL` with its valid bit set. -/
def camFire (s : Axil) : Bool := s.wrAddrR == 0x020#12 && s.wrDataR.getLsbD 0

/-- A register write; the share counts of the cores are at `0xC00 + 4 k`. -/
def writeReg (s : Axil) (d : Axil) : Axil :=
  let a := s.wrAddrR
  let w := s.wrDataR
  { d with
    camIdxLoR := if a = 0x014#12 then w.setWidth 8 else d.camIdxLoR
    camDatLoR := if a = 0x018#12 then w else d.camDatLoR
    camDatHiR := if a = 0x01C#12 then w else d.camDatHiR
    camWrValid := s.camFire
    camWrIndex := if s.camFire then (s.camIdxHiR ++ s.camIdxLoR).setWidth _ else d.camWrIndex
    camWrData := if s.camFire then s.camDatHiR ++ s.camDatLoR else d.camWrData
    camWrEnBit := if s.camFire then w.getLsbD 1 else d.camWrEnBit
    camIdxHiR := if a = 0x038#12 then w.setWidth 2 else d.camIdxHiR
    bandBpsR := if a = 0x400#12 then w else d.bandBpsR
    maxQtyR := if a = 0x404#12 then w else d.maxQtyR
    scoreThreshR := if a = 0x408#12 then w else d.scoreThreshR
    killSwR := if a = 0x40C#12 ∧ w.getLsbD 0 = true then true else d.killSwR
    axilClear := if a = 0x584#12 then w.getLsbD 0 else d.axilClear
    coreSharesAr := fun k =>
      if a = 0xC00#12 + BitVec.ofNat 12 (4 * k.val) then w.setWidth 24 else d.coreSharesAr k
    tmplAddrStg := if a = 0xE00#12 then w.setWidth 9 else d.tmplAddrStg
    tmplLoStg := if a = 0xE04#12 then w else d.tmplLoStg
    tmplWrEn := a == 0xE08#12
    tmplWrAddr := if a = 0xE08#12 then s.tmplAddrStg else d.tmplWrAddr
    tmplWrData := if a = 0xE08#12 then w ++ s.tmplLoStg else d.tmplWrData }

/-- One clock edge. -/
def step (s : Axil) (i : LliuTopV2In) (riskStatusRd riskBlocked : Bool) : Axil :=
  let d := s.advance i riskStatusRd riskBlocked
  if s.fire then
    let d' := { d with awCap := false, wCap := false, sAxilBvalid := true }
    if s.wrAddrR.extractLsb' 10 2 = 2#2 then s.writeWeight d' else s.writeReg d'
  else d

end Axil

/-! ## the state -/

/-- A stage of the delay line beside the symbol filter. -/
structure DelayedFields where
  fieldsValid : Bool
  price : BitVec 32
  shares : BitVec 32
  side : Bool
  symId : SymId
  deriving DecidableEq, Repr

/-- The order fields that go with a score. -/
@[ext]
structure OrderFields where
  price : BitVec 32
  side : Bool
  symId : SymId
  deriving DecidableEq, Repr

/-- The registers of the AXI4-Lite read channel. -/
structure AxilRead where
  sAxilArready : Bool
  sAxilRvalid : Bool
  sAxilRdata : BitVec 32
  deriving DecidableEq, Repr

/-- The registers of `lliu_top_v2`. -/
structure LliuTopV2 where
  uPtp : PtpCore
  uParser : ItchParserV2
  uTapRxLast : TimestampTap
  uTapFieldsValid : TimestampTap
  uOb : OrderBook
  uSymFilter : SymbolFilter
  d1 : DelayedFields
  d2 : DelayedFields
  d3 : DelayedFields
  uFeatExt : FeatureExtractorV2
  uTapFeat : TimestampTap
  uCore : Fin numCores → LliuCore
  uTapResult : TimestampTap
  uArb : StrategyArbiter
  held : OrderFields
  heldRefR : BitVec 32
  uRisk : RiskCheck
  uTapRiskPass : TimestampTap
  uOuch : OuchEngine
  uTapOuchLast : TimestampTap
  uHist : LatencyHistogram
  uSnap : SnapshotMux
  inFlight : Bool
  axil : Axil
  axilRead : AxilRead

namespace LliuTopV2

/-- `VEC_LEN`. -/
abbrev vecLen : Nat := 32

/-- `HIDDEN`. -/
abbrev hidden : Nat := 32

/-! ## wires -/

/-- `core_features_valid`. -/
def coreFeaturesValid (s : LliuTopV2) : Bool := s.uFeatExt.featuresValid

/-- `pipeline_hold`. -/
def pipelineHold (s : LliuTopV2) : Bool := s.coreFeaturesValid || s.inFlight

/-- `s_axis_tready`. -/
def sAxisTready (s : LliuTopV2) : Bool := s.uParser.sAxisTready s.pipelineHold

/-- `watchlist_hit`. -/
def watchlistHit (s : LliuTopV2) : Bool := s.uSymFilter.watchlistHit

/-- `feat_ext_fv`: a message of the watchlist reaches the feature extractor. -/
def featExtFv (s : LliuTopV2) : Bool := s.d3.fieldsValid && s.watchlistHit

/-- `risk_proposed_shares`. -/
def riskProposedShares (s : LliuTopV2) : BitVec 24 :=
  s.axil.coreSharesAr (Fin.ofNat _ s.uArb.bestCoreId.toNat)

/-- The fields the hold registers are loaded from. -/
def d1Fields (s : LliuTopV2) : OrderFields := ⟨s.d1.price, s.d1.side, s.d1.symId⟩

/-- The message at the parser's outputs. -/
def parserMsg (s : LliuTopV2) : BookMsg where
  msgType := s.uParser.msgType
  orderRef := s.uParser.orderRef
  newOrderRef := s.uParser.newOrderRef
  price := s.uParser.price
  shares := s.uParser.shares
  side := s.uParser.side
  symId := s.uParser.symId

/-! ## the inputs of the instances -/

/-- The inputs of `u_parser`. -/
def parserIn (s : LliuTopV2) (i : LliuTopV2In) : ItchParserV2In where
  sAxisTdata := i.sAxisTdata
  sAxisTvalid := i.sAxisTvalid
  sAxisTlast := i.sAxisTlast
  pipelineHold := s.pipelineHold

/-- The inputs of `u_ob`. -/
def obIn (s : LliuTopV2) : OrderBookIn where
  msg := s.parserMsg
  fieldsValid := s.uParser.fieldsValid
  bboQuerySym := s.uParser.symId

/-- The inputs of `u_sym_filter`. -/
def symFilterIn (s : LliuTopV2) : SymbolFilterIn where
  stock := s.uParser.stock
  stockValid := s.uParser.fieldsValid
  camWrIndex := s.axil.camWrIndex
  camWrData := s.axil.camWrData
  camWrValid := s.axil.camWrValid
  camWrEnBit := s.axil.camWrEnBit

/-- The inputs of `u_feat_ext`. -/
def featExtIn (s : LliuTopV2) : FeatureExtractorV2In where
  price := s.d3.price
  shares := s.d3.shares
  side := s.d3.side
  symId := s.d3.symId
  fieldsValid := s.featExtFv
  bboBidPrice := s.uOb.bboBidPrice
  bboAskPrice := s.uOb.bboAskPrice
  bboBidSize := s.uOb.bboBidSize
  bboAskSize := s.uOb.bboAskSize
  l2BidPrice := s.uOb.l2BidPrice
  l2BidSize := s.uOb.l2BidSize
  l2AskPrice := s.uOb.l2AskPrice
  l2AskSize := s.uOb.l2AskSize

/-- The inputs of core `k`. -/
def coreIn (s : LliuTopV2) (k : Fin numCores) : LliuCoreIn where
  features := s.uFeatExt.features
  featuresValid := s.coreFeaturesValid
  wgtWrAddr := (s.axil.wgtWrAddrAr k).toNat
  wgtWrData := s.axil.wgtWrDataAr k
  wgtWrEn := s.axil.wgtWrEnAr k

/-- The inputs of `u_arb`. -/
def arbIn (s : LliuTopV2) : StrategyArbiterIn where
  coreScores := fun k => (s.uCore k).result
  coreValids := fun k => (s.uCore k).resultValid
  coreSides := fun _ => false
  scoreThresh := s.axil.scoreThreshR

/-- The inputs of `u_risk`. -/
def riskIn (s : LliuTopV2) : RiskCheckIn where
  scoreValid := s.uArb.bestValid
  side := s.held.side
  price := s.held.price
  symbolId := s.held.symId
  proposedShares := s.riskProposedShares
  txOverflow := s.uOuch.txOverflow
  bandBps := s.axil.bandBpsR
  maxQty := s.axil.maxQtyR
  posLimit := 1000
  killSw := s.axil.killSwR
  refPrice := s.heldRefR

/-- The inputs of `u_ouch`. -/
def ouchIn (s : LliuTopV2) (i : LliuTopV2In) : OuchEngineIn where
  riskPass := s.uRisk.riskPass
  side := s.held.side
  price := s.held.price
  symbolId := s.held.symId.setWidth 7
  proposedShares := s.riskProposedShares
  tmplWrAddr := s.axil.tmplWrAddr
  tmplWrData := s.axil.tmplWrData
  tmplWrEn := s.axil.tmplWrEn
  mAxisTready := i.mAxisTready

/-- The inputs of `u_hist`. -/
def histIn (s : LliuTopV2) : LatencyHistogramIn where
  tStart := s.uTapRxLast.timestampOut
  tStartValid := s.uTapRxLast.timestampValid
  tEnd := s.uTapRiskPass.timestampOut
  tEndValid := s.uTapRiskPass.timestampValid
  axilClear := s.axil.axilClear

/-- The inputs of `u_snap`. -/
def snapIn (s : LliuTopV2) (i : LliuTopV2In) : SnapshotMuxIn where
  bboValid := s.uOb.bboValid
  bboSymId := s.uOb.bboSymId
  bboBidPrice := s.uOb.bboBidPrice
  bboAskPrice := s.uOb.bboAskPrice
  bboBidSize := s.uOb.bboBidSize
  bboAskSize := s.uOb.bboAskSize
  snapReq := i.snapReq
  snapReady := i.snapReady

/-! ## the clock edge -/

/-- The delay line takes the parser's outputs. -/
def delayIn (s : LliuTopV2) : DelayedFields where
  fieldsValid := s.uParser.fieldsValid
  price := s.uParser.price
  shares := s.uParser.shares
  side := s.uParser.side
  symId := s.uParser.symId

/-- The data of a read. -/
def readData (s : LliuTopV2) (addr : BitVec 12) : BitVec 32 :=
  if addr = 0x410#12 then 0#30 ++ BitVec.ofBool s.axil.killSwR ++ BitVec.ofBool s.axil.riskBlockedLatch
  else if addr = 0x048#12 then s.uOb.book.collisionCount
  else if addr = 0x580#12 then s.uHist.overflowR
  else if addr.extractLsb' 7 5 = 0b00101#5 then s.uHist.histBins (addr.extractLsb' 2 5)
  else 0

/-- The read channel after a clock edge. -/
def stepRead (s : LliuTopV2) (i : LliuTopV2In) : AxilRead :=
  if i.sAxilArvalid && !s.axilRead.sAxilRvalid then
    { sAxilArready := true, sAxilRvalid := true, sAxilRdata := s.readData i.sAxilAraddr }
  else
    { s.axilRead with
      sAxilArready := false
      sAxilRvalid := s.axilRead.sAxilRvalid && !i.sAxilRready }

/-- One clock edge. -/
def step (s : LliuTopV2) (i : LliuTopV2In) : LliuTopV2 where
  uPtp := s.uPtp.step
  uParser := s.uParser.step (s.parserIn i)
  uTapRxLast := s.uTapRxLast.step s.uPtp (i.sAxisTvalid && s.sAxisTready && i.sAxisTlast)
  uTapFieldsValid := s.uTapFieldsValid.step s.uPtp s.uParser.fieldsValid
  uOb := s.uOb.step s.obIn
  uSymFilter := s.uSymFilter.step s.symFilterIn
  d1 := s.delayIn
  d2 := s.d1
  d3 := s.d2
  uFeatExt := s.uFeatExt.step s.featExtIn
  uTapFeat := s.uTapFeat.step s.uPtp s.coreFeaturesValid
  uCore := fun k => (s.uCore k).step vecLen hidden (s.coreIn k)
  uTapResult := s.uTapResult.step s.uPtp (s.uCore 0).resultValid
  uArb := s.uArb.step s.arbIn
  held := if s.featExtFv then s.d1Fields else s.held
  heldRefR := if s.featExtFv then (s.uOb.bboBidPrice >>> 1) + (s.uOb.bboAskPrice >>> 1) else s.heldRefR
  uRisk := s.uRisk.step s.riskIn
  uTapRiskPass := s.uTapRiskPass.step s.uPtp s.uRisk.riskPass
  uOuch := s.uOuch.step (s.ouchIn i)
  uTapOuchLast := s.uTapOuchLast.step s.uPtp
    (s.uOuch.mAxisTvalid && i.mAxisTready && s.uOuch.mAxisTlast)
  uHist := s.uHist.step s.histIn
  uSnap := s.uSnap.step (s.snapIn i)
  inFlight := s.coreFeaturesValid || (s.inFlight && !(s.uCore 0).resultValid)
  axil := s.axil.step i (Axil.riskStatusRd i s.axilRead.sAxilRvalid) s.uRisk.riskBlocked
  axilRead := s.stepRead i

/-- A cleared stage of the delay line. -/
def noFields : DelayedFields where
  fieldsValid := false
  price := 0
  shares := 0
  side := false
  symId := 0

/-- The registers after reset. -/
def reset : LliuTopV2 where
  uPtp := PtpCore.reset
  uParser := ItchParserV2.reset
  uTapRxLast := TimestampTap.reset
  uTapFieldsValid := TimestampTap.reset
  uOb := OrderBook.reset
  uSymFilter := SymbolFilter.reset
  d1 := noFields
  d2 := noFields
  d3 := noFields
  uFeatExt := FeatureExtractorV2.reset
  uTapFeat := TimestampTap.reset
  uCore := fun _ => LliuCore.reset
  uTapResult := TimestampTap.reset
  uArb := StrategyArbiter.reset
  held := ⟨0, false, 0⟩
  heldRefR := 0
  uRisk := RiskCheck.reset
  uTapRiskPass := TimestampTap.reset
  uOuch := OuchEngine.reset
  uTapOuchLast := TimestampTap.reset
  uHist := LatencyHistogram.reset
  uSnap := SnapshotMux.reset
  inFlight := false
  axil := Axil.reset
  axilRead := ⟨false, false, 0⟩

end LliuTopV2

end Lliu
