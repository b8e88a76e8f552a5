import Lliu.Axi4LiteSlave
import Lliu.FeatureExtractor
import Lliu.ItchParser
import Lliu.LliuCore

/-!
# Lliu.LliuTop

`lliu_top.sv`, the first version: parser, feature extractor, sequencer, dot product
engine and output buffer in a row, with the control plane beside them.

The sequencer starts the engine with `features_valid` and feeds it the four elements,
from the outputs of the feature extractor and each with the weight read a cycle before.
`pipeline_hold` stops the parser while it does so, but not before, while a message is in
the feature extractor, and not after, while the engine drains; and the engine hears a
`start` only when it is idle.

The soft reset of the control plane clears everything but the weights, the message
buffer and the control plane itself.
-/

namespace Lliu

/-- The states of the sequencer of `lliu_top`. -/
inductive TopSeqState where
  | seqIdle | seqPreload | seqFeed
  deriving DecidableEq, Repr

/-- The inputs of `lliu_top`.  Of `axil` the status and the result are driven inside; the
counters are not connected. -/
structure LliuTopIn where
  sAxisTdata : BitVec 64
  sAxisTvalid : Bool
  sAxisTlast : Bool
  axil : Axi4LiteSlaveIn

/-- The registers of `lliu_top`. -/
structure LliuTop where
  uParser : ItchParser
  uFeatExtract : FeatureExtractor
  seqState : TopSeqState
  seqIdx : BitVec 3
  dpStart : Bool
  dpFeatureValid : Bool
  dpFeatureIn : Bfloat16T
  uWeightMem : WeightMem
  uDpEngine : DotProductEngine
  uOutBuf : OutputBuffer
  uAxil : Axi4LiteSlave

namespace LliuTop

/-- The registers after reset, with the contents of the message buffer and the weights. -/
def reset (msgBuf : BitVec 7 → BitVec 8) (w : Nat → Bfloat16T) : LliuTop where
  uParser := .reset msgBuf
  uFeatExtract := .reset
  seqState := .seqIdle
  seqIdx := 0
  dpStart := false
  dpFeatureValid := false
  dpFeatureIn := 0
  uWeightMem := { mem := w, rdData := 0 }
  uDpEngine := .reset
  uOutBuf := .reset
  uAxil := .reset

/-! ## combinational signals -/

/-- `sys_rst`, with the external reset low. -/
def sysRst (s : LliuTop) : Bool := s.uAxil.ctrlSoftReset

/-- `feat_valid`. -/
def featValid (s : LliuTop) : Bool := s.uFeatExtract.featuresValid

/-- `pipeline_hold`. -/
def pipelineHold (s : LliuTop) : Bool := s.featValid || s.seqState != .seqIdle

/-- `parser_fields_valid`. -/
def parserFieldsValid (s : LliuTop) : Bool := s.uParser.uFieldExtract.fieldsValid

/-- `dp_result_valid`. -/
def dpResultValid (s : LliuTop) : Bool := s.uDpEngine.resultValid

/-- `dp_result`. -/
def dpResult (s : LliuTop) : Float32T := s.uDpEngine.result

/-- `status_busy`. -/
def statusBusy (s : LliuTop) : Bool := s.seqState != .seqIdle

/-- What the parser sees. -/
def parserIn (s : LliuTop) (i : LliuTopIn) : ItchParserIn where
  sAxisTdata := i.sAxisTdata
  sAxisTvalid := i.sAxisTvalid
  sAxisTlast := i.sAxisTlast
  pipelineHold := s.pipelineHold

/-- What the feature extractor sees. -/
def featIn (s : LliuTop) : FeatureExtractorIn where
  price := s.uParser.uFieldExtract.price
  side := s.uParser.uFieldExtract.side
  fieldsValid := s.parserFieldsValid

/-- What the weight memory sees. -/
def weightIn (s : LliuTop) : WeightMemIn where
  wrAddr := s.uAxil.wgtAddrReg.toNat
  wrData := s.uAxil.wgtWrData
  wrEn := s.uAxil.wgtWrEn
  rdAddr := (s.seqIdx.setWidth 2).toNat

/-- What the engine sees. -/
def dpeIn (s : LliuTop) : DpeIn where
  featureIn := s.dpFeatureIn
  featureValid := s.dpFeatureValid
  weightIn := s.uWeightMem.rdData
  start := s.dpStart

/-- What the control plane sees. -/
def axilIn (s : LliuTop) (i : LliuTopIn) : Axi4LiteSlaveIn :=
  { i.axil with
    statusResultReady := s.uOutBuf.resultReadyReg
    statusBusy := s.statusBusy
    resultData := s.uOutBuf.resultOut }

/-! ## the clock edge -/

/-- The instances, and the defaults of the sequencer. -/
def advance (s : LliuTop) (i : LliuTopIn) : LliuTop :=
  { s with
    uParser := s.uParser.step (s.parserIn i)
    uFeatExtract := s.uFeatExtract.step s.featIn
    dpStart := false
    dpFeatureValid := false
    uWeightMem := s.uWeightMem.step s.weightIn
    uDpEngine := s.uDpEngine.step featureVecLen s.dpeIn
    uOutBuf := s.uOutBuf.step s.dpResult s.dpResultValid
    uAxil := s.uAxil.step (s.axilIn i) }

/-- `SEQ_IDLE`: start the engine with a vector. -/
def stepIdle (s : LliuTop) (d : LliuTop) : LliuTop :=
  if s.featValid then { d with dpStart := true, seqIdx := 0, seqState := .seqPreload } else d

/-- `SEQ_FEED`: register one element for the engine. -/
def stepFeed (s : LliuTop) (d : LliuTop) : LliuTop :=
  let d' :=
    { d with
      dpFeatureIn := s.uFeatExtract.features (s.seqIdx.setWidth 2).toFin
      dpFeatureValid := true }
  if s.seqIdx = BitVec.ofNat 3 featureVecLen - 1 then { d' with seqState := .seqIdle }
  else { d' with seqIdx := s.seqIdx + 1 }

/-- A soft reset.  The weight memory and the control plane go on. -/
def softReset (s : LliuTop) (i : LliuTopIn) : LliuTop :=
  { reset s.uParser.msgBuf (s.uWeightMem.step s.weightIn).mem with
    uAxil := s.uAxil.step (s.axilIn i) }

/-- One clock edge. -/
def step (s : LliuTop) (i : LliuTopIn) : LliuTop :=
  if s.sysRst then s.softReset i
  else
    match s.seqState with
    | .seqIdle => s.stepIdle (s.advance i)
    | .seqPreload => { s.advance i with seqState := .seqFeed }
    | .seqFeed => s.stepFeed (s.advance i)

/-! ## one step -/

section Step

variable {s : LliuTop} (i : LliuTopIn)

/-- The instances run beside the sequencer. -/
theorem instances_step (h : s.sysRst = false) :
    (s.step i).uParser = s.uParser.step (s.parserIn i) ∧
    (s.step i).uFeatExtract = s.uFeatExtract.step s.featIn ∧
    (s.step i).uWeightMem = s.uWeightMem.step s.weightIn ∧
    (s.step i).uDpEngine = s.uDpEngine.step featureVecLen s.dpeIn := by
  rw [step, if_neg (by rw [h]; decide)]
  cases s.seqState with
  | seqIdle =>
      simp only [stepIdle]
      split <;> exact ⟨rfl, rfl, rfl, rfl⟩
  | seqPreload => exact ⟨rfl, rfl, rfl, rfl⟩
  | seqFeed =>
      simp only [stepFeed]
      split <;> exact ⟨rfl, rfl, rfl, rfl⟩

/-- A soft reset clears them, the weights apart. -/
theorem instances_step_ite (s : LliuTop) :
    (s.step i).uParser =
      (if s.sysRst then .reset s.uParser.msgBuf else s.uParser.step (s.parserIn i)) ∧
    (s.step i).uFeatExtract = (if s.sysRst then .reset else s.uFeatExtract.step s.featIn) ∧
    (s.step i).uDpEngine =
      (if s.sysRst then .reset else s.uDpEngine.step featureVecLen s.dpeIn) := by
  cases hr : s.sysRst with
  | true =>
      rw [step, if_pos hr]
      exact ⟨rfl, rfl, rfl⟩
  | false =>
      obtain ⟨hparser, hfeat, -, hengine⟩ := instances_step i hr
      exact ⟨hparser, hfeat, hengine⟩

theorem step_seqIdle (hr : s.sysRst = false) (h : s.seqState = .seqIdle) :
    s.step i = s.stepIdle (s.advance i) := by
  simp [step, hr, h]

theorem step_seqPreload (hr : s.sysRst = false) (h : s.seqState = .seqPreload) :
    s.step i = { s.advance i with seqState := .seqFeed } := by
  simp [step, hr, h]

theorem step_seqFeed (hr : s.sysRst = false) (h : s.seqState = .seqFeed) :
    s.step i = s.stepFeed (s.advance i) := by
  simp [step, hr, h]

end Step

end LliuTop

end Lliu
