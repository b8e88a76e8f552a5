import Mathlib.Data.Nat.Log
import Lliu.Bfloat16Mul
import Lliu.Fp32Acc

/-!
# Lliu.DotProductEngine

`dot_product_engine.sv`: the pipelined dot product of `VEC_LEN` bfloat16
feature/weight pairs.  One multiplier feeds five round-robin accumulators
(element `i` goes to accumulator `i % 5`); after the last element has drained,
a sixth accumulator merges the five partial sums on a fixed schedule.
-/

namespace Lliu

/-- The engine's FSM states. -/
inductive DpeState where
  | sIdle | sStream | sDrain | sDone
  deriving DecidableEq, Repr

/-- The inputs of `dot_product_engine`. -/
structure DpeIn where
  featureIn : Bfloat16T
  featureValid : Bool
  weightIn : Bfloat16T
  start : Bool
  deriving DecidableEq, Repr

/-- The registers of `dot_product_engine`.  `macElem` and the pipelined element
numbers have `$clog2(VEC_LEN+1)` bits, `macDrain` three and `drainCnt` five. -/
structure DotProductEngine where
  state : DpeState
  macElem : Nat
  macDrain : Nat
  macLastFed : Bool
  drainCnt : Nat
  accClear : Bool
  mergeClear : Bool
  macPipeElem0 : Nat
  macPipeElem1 : Nat
  macPipeValid0 : Bool
  macPipeValid1 : Bool
  uMul : Bfloat16Mul
  acc : Fin 5 → Fp32Acc
  mergeAddendR : Float32T
  mergeEnR : Bool
  uMerge : Fp32Acc

namespace DotProductEngine

/-! ## merge timing parameters -/

/-- `NUM_ACCS_USED`. -/
def numAccsUsed (vecLen : Nat) : Nat := if 5 ≤ vecLen then 5 else vecLen

/-- `MERGE_STEP`. -/
def mergeStep : Nat := 4

/-- `DRAIN_LAST_EN`. -/
def drainLastEn (vecLen : Nat) : Nat := (numAccsUsed vecLen - 1) * mergeStep

/-- `DRAIN_EXIT_VAL`. -/
def drainExitVal (vecLen : Nat) : Nat := (drainLastEn vecLen % 2 ^ 5 + 5) % 2 ^ 5

/-- `$clog2(VEC_LEN+1)`, the width of the element counters. -/
def elemWidth (vecLen : Nat) : Nat := Nat.clog 2 (vecLen + 1)

/-! ## combinational signals -/

/-- Whether this cycle dispatches a pair to the multiplier. -/
def dispatch (s : DotProductEngine) (i : DpeIn) : Bool :=
  s.state == .sStream && !s.macLastFed && i.featureValid

/-- `mul_a`, the feature operand of the multiplier. -/
def mulA (s : DotProductEngine) (i : DpeIn) : Bfloat16T :=
  if s.dispatch i then i.featureIn else 0x0000#16

/-- `mul_b`, the weight operand of the multiplier. -/
def mulB (s : DotProductEngine) (i : DpeIn) : Bfloat16T :=
  if s.dispatch i then i.weightIn else 0x0000#16

/-- `acc_en_r`: the product at the multiplier's output belongs to
accumulator `k`. -/
def accEnR (s : DotProductEngine) (k : Fin 5) : Bool :=
  s.macPipeValid1 && s.macPipeElem1 % 5 == k.val

/-- `acc_out`. -/
def accOut (s : DotProductEngine) (k : Fin 5) : Float32T := (s.acc k).accOut

/-- `merge_addend`: the partial sum selected by the drain counter. -/
def mergeAddend (vecLen : Nat) (s : DotProductEngine) : Float32T :=
  if 5 ≤ numAccsUsed vecLen ∧ s.drainCnt = 16 then s.accOut 4
  else if s.drainCnt = 12 then s.accOut 3
  else if s.drainCnt = 8 then s.accOut 2
  else if s.drainCnt = 4 then s.accOut 1
  else if s.drainCnt = 0 then s.accOut 0
  else 0x00000000#32

/-- `merge_en`. -/
def mergeEn (vecLen : Nat) (s : DotProductEngine) : Bool :=
  s.state == .sDrain &&
    (s.drainCnt == 0 || s.drainCnt == 4 || s.drainCnt == 8 || s.drainCnt == 12 ||
      (decide (5 ≤ numAccsUsed vecLen) && s.drainCnt == 16))

/-- `result_valid`. -/
def resultValid (s : DotProductEngine) : Bool := s.state == .sDone

/-- `result`. -/
def result (s : DotProductEngine) : Float32T := s.uMerge.accOut

/-! ## the clock edge -/

/-- The registers after reset. -/
def reset : DotProductEngine where
  state := .sIdle
  macElem := 0
  macDrain := 0
  macLastFed := false
  drainCnt := 0
  accClear := false
  mergeClear := false
  macPipeElem0 := 0
  macPipeElem1 := 0
  macPipeValid0 := false
  macPipeValid1 := false
  uMul := Bfloat16Mul.reset
  acc := fun _ => Fp32Acc.reset
  mergeAddendR := 0
  mergeEnR := false
  uMerge := Fp32Acc.reset

/-- The datapath and the defaults of the FSM block: clears deasserted, the
multiplier pipeline advanced with a bubble. -/
def advance (vecLen : Nat) (s : DotProductEngine) (i : DpeIn) : DotProductEngine :=
  { s with
    accClear := false
    mergeClear := false
    macPipeElem1 := s.macPipeElem0
    macPipeValid1 := s.macPipeValid0
    macPipeElem0 := 0
    macPipeValid0 := false
    uMul := s.uMul.step (s.mulA i) (s.mulB i)
    acc := fun k => (s.acc k).step
      { addend := s.uMul.result, accEn := s.accEnR k, accClear := s.accClear }
    mergeAddendR := s.mergeAddend vecLen
    mergeEnR := s.mergeEn vecLen
    uMerge := s.uMerge.step
      { addend := s.mergeAddendR, accEn := s.mergeEnR, accClear := s.mergeClear } }

/-- `S_IDLE`: wait for `start`, then clear the accumulators. -/
def stepIdle (i : DpeIn) (d : DotProductEngine) : DotProductEngine :=
  if i.start then
    { d with
      macLastFed := false
      macElem := 0
      macDrain := 0
      accClear := true
      mergeClear := true
      state := .sStream }
  else { d with macLastFed := false }

/-- `S_STREAM`: dispatch a pair on each `feature_valid`, then drain. -/
def stepStream (vecLen : Nat) (s : DotProductEngine) (i : DpeIn) (d : DotProductEngine) :
    DotProductEngine :=
  if !s.macLastFed then
    if i.featureValid then
      if s.macElem = vecLen % 2 ^ elemWidth vecLen - 1 then
        { d with macPipeElem0 := s.macElem, macPipeValid0 := true, macLastFed := true, macDrain := 0 }
      else
        { d with
          macPipeElem0 := s.macElem
          macPipeValid0 := true
          macElem := (s.macElem + 1) % 2 ^ elemWidth vecLen }
    else d
  else
    if s.macDrain = 5 then { d with drainCnt := 0, state := .sDrain }
    else { d with macDrain := (s.macDrain + 1) % 2 ^ 3 }

/-- `S_DRAIN`: run the merge schedule. -/
def stepDrain (vecLen : Nat) (s : DotProductEngine) (d : DotProductEngine) : DotProductEngine :=
  { d with
    drainCnt := (s.drainCnt + 1) % 2 ^ 5
    state := if s.drainCnt = drainExitVal vecLen then .sDone else .sDrain }

/-- One clock edge of the engine for vectors of length `vecLen`. -/
def step (vecLen : Nat) (s : DotProductEngine) (i : DpeIn) : DotProductEngine :=
  let d := s.advance vecLen i
  match s.state with
  | .sIdle => stepIdle i d
  | .sStream => s.stepStream vecLen i d
  | .sDrain => s.stepDrain vecLen d
  | .sDone => { d with state := .sIdle }

end DotProductEngine

end Lliu
