import Lliu.LliuCore.Inference

/-!
# Lliu.LliuCore.Control

The control part of a core: the sequencer and the engine's FSM with their counters
and enables.  No data goes into it, so two cores that see the same `features_valid`
stay in the same control state.
-/

namespace Lliu

namespace DotProductEngine

/-- The control registers of the engine. -/
structure Control where
  state : DpeState
  macElem : Nat
  macDrain : Nat
  macLastFed : Bool
  drainCnt : Nat
  accClear : Bool
  mergeClear : Bool
  macPipeElem0 : Nat
  macPipeElem1 : Nat
  macPipeValid0 : Bool
  macPipeValid1 : Bool
  mergeEnR : Bool
  deriving DecidableEq, Repr

/-- The control state. -/
def control (s : DotProductEngine) : Control where
  state := s.state
  macElem := s.macElem
  macDrain := s.macDrain
  macLastFed := s.macLastFed
  drainCnt := s.drainCnt
  accClear := s.accClear
  mergeClear := s.mergeClear
  macPipeElem0 := s.macPipeElem0
  macPipeElem1 := s.macPipeElem1
  macPipeValid0 := s.macPipeValid0
  macPipeValid1 := s.macPipeValid1
  mergeEnR := s.mergeEnR

variable {vecLen : Nat} {s s' : DotProductEngine} {i i' : DpeIn}

theorem control_stepIdle (i : DpeIn) (d : DotProductEngine) : (stepIdle i d).control =
    if i.start then
      { d.control with
        macLastFed := false
        macElem := 0
        macDrain := 0
        accClear := true
        mergeClear := true
        state := .sStream }
    else { d.control with macLastFed := false } := by
  rw [stepIdle]
  split <;> rfl

theorem control_stepStream (s : DotProductEngine) (i : DpeIn) (d : DotProductEngine) :
    (s.stepStream vecLen i d).control =
      if !s.macLastFed then
        if i.featureValid then
          if s.macElem = vecLen % 2 ^ elemWidth vecLen - 1 then
            { d.control with
              macPipeElem0 := s.macElem
              macPipeValid0 := true
              macLastFed := true
              macDrain := 0 }
          else
            { d.control with
              macPipeElem0 := s.macElem
              macPipeValid0 := true
              macElem := (s.macElem + 1) % 2 ^ elemWidth vecLen }
        else d.control
      else
        if s.macDrain = 5 then { d.control with drainCnt := 0, state := .sDrain }
        else { d.control with macDrain := (s.macDrain + 1) % 2 ^ 3 } := by
  rw [stepStream]
  split
  · split
    · split <;> rfl
    · rfl
  · split <;> rfl

theorem control_stepDrain (s d : DotProductEngine) : (s.stepDrain vecLen d).control =
    { d.control with
      drainCnt := (s.drainCnt + 1) % 2 ^ 5
      state := if s.drainCnt = drainExitVal vecLen then .sDone else .sDrain } := rfl

/-- The next control state depends on the control state, `start` and `feature_valid`. -/
theorem control_step (h : s.control = s'.control) (hstart : i.start = i'.start)
    (hvalid : i.featureValid = i'.featureValid) :
    (s.step vecLen i).control = (s'.step vecLen i').control := by
  have hfields := h
  simp only [control, Control.mk.injEq] at hfields
  obtain ⟨hstate, helem, hdrain, hlast, hcnt, -, -, he0, -, hv0, -, -⟩ := hfields
  have hadv : (s.advance vecLen i).control = (s'.advance vecLen i').control := by
    simp only [control, advance, mergeEn, hstate, helem, hdrain, hlast, hcnt, he0, hv0]
  rw [step, step, hstate]
  cases s'.state with
  | sIdle => simp only [control_stepIdle, hadv, hstart]
  | sStream => simp only [control_stepStream, hadv, hvalid, helem, hdrain, hlast]
  | sDrain => simp only [control_stepDrain, hadv, hcnt]
  | sDone => exact congrArg (fun c : Control => { c with state := .sIdle }) hadv

end DotProductEngine

namespace LliuCore

/-- The control registers of a core. -/
structure Control where
  seqState : SeqState
  seqIdx : Nat
  dpStart : Bool
  dpFeatureValid : Bool
  uDpe : DotProductEngine.Control
  deriving DecidableEq, Repr

/-- The control state. -/
def control (s : LliuCore) : Control where
  seqState := s.seqState
  seqIdx := s.seqIdx
  dpStart := s.dpStart
  dpFeatureValid := s.dpFeatureValid
  uDpe := s.uDpe.control

variable {vecLen hidden : Nat} {s s' : LliuCore} {i i' : LliuCoreIn}

theorem control_stepIdle (i : LliuCoreIn) (d : LliuCore) : (stepIdle vecLen i d).control =
    if i.featuresValid then
      { d.control with dpStart := true, seqIdx := 0, seqState := .seqPreload }
    else d.control := by
  rw [stepIdle]
  split <;> rfl

theorem control_stepFeed (s d : LliuCore) : (s.stepFeed vecLen hidden d).control =
    if s.seqIdx = (vecLen - 1) % 2 ^ DotProductEngine.elemWidth vecLen then
      { d.control with dpFeatureValid := true, seqIdx := 0, seqState := .seqWait }
    else
      { d.control with
        dpFeatureValid := true
        seqIdx := (s.seqIdx + 1) % 2 ^ DotProductEngine.elemWidth vecLen } := by
  rw [stepFeed]
  split <;> rfl

/-- **Control**: the next control state depends on the control state and
`features_valid`. -/
theorem control_step (h : s.control = s'.control) (hvalid : i.featuresValid = i'.featuresValid) :
    (s.step vecLen hidden i).control = (s'.step vecLen hidden i').control := by
  have hfields := h
  simp only [control, Control.mk.injEq] at hfields
  obtain ⟨hstate, hidx, hstart, hfed, hdpe⟩ := hfields
  have hresult : s.resultValid = s'.resultValid :=
    congrArg (fun c : DotProductEngine.Control => c.state == .sDone) hdpe
  have hadv : (s.advance vecLen hidden i).control = (s'.advance vecLen hidden i').control := by
    have hnext : (s.uDpe.step vecLen s.dpeIn).control = (s'.uDpe.step vecLen s'.dpeIn).control :=
      DotProductEngine.control_step hdpe hstart hfed
    simp only [control, advance, hstate, hidx, hnext]
  rw [step, step, hstate]
  cases s'.seqState with
  | seqIdle => simp only [control_stepIdle, hadv, hvalid]
  | seqPreload => exact congrArg (fun c : Control => { c with seqState := .seqFeed }) hadv
  | seqFeed => simp only [control_stepFeed, hadv, hidx]
  | seqWait =>
      simp only [hresult]
      split
      · exact congrArg (fun c : Control => { c with seqState := .seqIdle }) hadv
      · exact hadv

end LliuCore

end Lliu
