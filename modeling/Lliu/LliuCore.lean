import Mathlib.Logic.Function.Basic
import Lliu.DotProductEngine

/-!
# Lliu.LliuCore

`lliu_core.sv` with its `weight_mem.sv` and `output_buffer.sv`: one inference
core.  A sequencer latches the feature vector and feeds it to the dot product
engine, one element per cycle, each together with the weight read a cycle
before; it takes no other vector until the engine's result is valid.

The weight memory has no reset in the source; the model starts from zeroed
weights.
-/

namespace Lliu

/-! ## weight_mem -/

/-- The inputs of `weight_mem`. -/
structure WeightMemIn where
  wrAddr : Nat
  wrData : Bfloat16T
  wrEn : Bool
  rdAddr : Nat

/-- The memory and read register of `weight_mem`. -/
structure WeightMem where
  mem : Nat → Bfloat16T
  rdData : Bfloat16T

namespace WeightMem

/-- The registers after reset, with zeroed weights. -/
def reset : WeightMem where
  mem := fun _ => 0
  rdData := 0

/-- One clock edge. -/
def step (s : WeightMem) (i : WeightMemIn) : WeightMem where
  mem := if i.wrEn then Function.update s.mem i.wrAddr i.wrData else s.mem
  rdData := s.mem i.rdAddr

end WeightMem

/-! ## output_buffer -/

/-- The registers of `output_buffer`. -/
structure OutputBuffer where
  resultOut : Float32T
  resultReadyReg : Bool

namespace OutputBuffer

/-- The registers after reset. -/
def reset : OutputBuffer where
  resultOut := 0
  resultReadyReg := false

/-- One clock edge. -/
def step (s : OutputBuffer) (resultIn : Float32T) (resultValid : Bool) : OutputBuffer :=
  if resultValid then { resultOut := resultIn, resultReadyReg := true } else s

end OutputBuffer

/-! ## lliu_core -/

/-- The states of the sequencer. -/
inductive SeqState where
  | seqIdle | seqPreload | seqFeed | seqWait
  deriving DecidableEq, Repr

/-- The inputs of `lliu_core`. -/
structure LliuCoreIn where
  features : Nat → Bfloat16T
  featuresValid : Bool
  wgtWrAddr : Nat
  wgtWrData : Bfloat16T
  wgtWrEn : Bool

/-- The registers of `lliu_core`.  `seqIdx` has `$clog2(VEC_LEN+1)` bits. -/
structure LliuCore where
  featLatch : Nat → Bfloat16T
  seqState : SeqState
  seqIdx : Nat
  dpStart : Bool
  dpFeatureValid : Bool
  dpFeatureIn : Bfloat16T
  uWeightMem : WeightMem
  uDpe : DotProductEngine
  uOutBuf : OutputBuffer

namespace LliuCore

/-- The registers after reset. -/
def reset : LliuCore where
  featLatch := fun _ => 0
  seqState := .seqIdle
  seqIdx := 0
  dpStart := false
  dpFeatureValid := false
  dpFeatureIn := 0
  uWeightMem := WeightMem.reset
  uDpe := DotProductEngine.reset
  uOutBuf := OutputBuffer.reset

/-- `result`. -/
def result (s : LliuCore) : Float32T := s.uDpe.result

/-- `result_valid`. -/
def resultValid (s : LliuCore) : Bool := s.uDpe.resultValid

/-- `seq_idx_narrow`: the low `$clog2(HIDDEN)` bits. -/
def seqIdxNarrow (hidden : Nat) (s : LliuCore) : Nat := s.seqIdx % 2 ^ Nat.clog 2 hidden

/-- What the engine sees. -/
def dpeIn (s : LliuCore) : DpeIn where
  featureIn := s.dpFeatureIn
  featureValid := s.dpFeatureValid
  weightIn := s.uWeightMem.rdData
  start := s.dpStart

/-- The instances and the defaults of the sequencer block. -/
def advance (vecLen hidden : Nat) (s : LliuCore) (i : LliuCoreIn) : LliuCore :=
  { s with
    dpStart := false
    dpFeatureValid := false
    uWeightMem := s.uWeightMem.step
      { wrAddr := i.wgtWrAddr, wrData := i.wgtWrData, wrEn := i.wgtWrEn,
        rdAddr := s.seqIdxNarrow hidden }
    uDpe := s.uDpe.step vecLen s.dpeIn
    uOutBuf := s.uOutBuf.step s.result s.resultValid }

/-- `SEQ_IDLE`: latch a feature vector and start the engine. -/
def stepIdle (vecLen : Nat) (i : LliuCoreIn) (d : LliuCore) : LliuCore :=
  if i.featuresValid then
    { d with
      featLatch := fun k => if k < vecLen then i.features k else d.featLatch k
      dpStart := true
      seqIdx := 0
      seqState := .seqPreload }
  else d

/-- `SEQ_FEED`: register one element for the engine. -/
def stepFeed (vecLen hidden : Nat) (s : LliuCore) (d : LliuCore) : LliuCore :=
  let d' := { d with dpFeatureIn := s.featLatch (s.seqIdxNarrow hidden), dpFeatureValid := true }
  if s.seqIdx = (vecLen - 1) % 2 ^ DotProductEngine.elemWidth vecLen then
    { d' with seqIdx := 0, seqState := .seqWait }
  else { d' with seqIdx := (s.seqIdx + 1) % 2 ^ DotProductEngine.elemWidth vecLen }

/-- One clock edge of a core for vectors of length `vecLen` and `hidden`
weights. -/
def step (vecLen hidden : Nat) (s : LliuCore) (i : LliuCoreIn) : LliuCore :=
  let d := s.advance vecLen hidden i
  match s.seqState with
  | .seqIdle => stepIdle vecLen i d
  | .seqPreload => { d with seqState := .seqFeed }
  | .seqFeed => s.stepFeed vecLen hidden d
  | .seqWait => if s.resultValid then { d with seqState := .seqIdle } else d

end LliuCore

end Lliu
