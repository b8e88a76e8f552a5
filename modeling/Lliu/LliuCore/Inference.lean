import Lliu.LliuCore
import Lliu.DotProductEngine.Result

/-!
# Lliu.LliuCore.Inference

One inference of a core.  A vector taken in cycle `0` is fed to the engine in
the cycles `3 .. vecLen + 2`, and the result is valid in cycle `latency vecLen`
and in none before; whatever `features` and `features_valid` do meanwhile, the
core takes no other vector, and it is idle again in the cycle after.
-/

namespace Lliu

namespace LliuCore

open Hdl DotProductEngine

/-- The cycles from taking a vector to the result. -/
def latency (vecLen : Nat) : Nat := resultCycle vecLen vecLen + 2

/-- The core waits for a vector, and its engine is idle. -/
structure Idle (s : LliuCore) : Prop where
  seqState : s.seqState = .seqIdle
  dpStart : s.dpStart = false
  uDpe : s.uDpe.state = .sIdle

theorem idle_reset : Idle reset := ⟨rfl, rfl, rfl⟩

/-! ## one step in each state -/

section Step

variable {vecLen hidden : Nat} (s : LliuCore) (i : LliuCoreIn)

/-- The engine runs beside the sequencer. -/
theorem uDpe_step : (s.step vecLen hidden i).uDpe = s.uDpe.step vecLen s.dpeIn := by
  rw [step]
  cases s.seqState with
  | seqIdle =>
      simp only [stepIdle]
      split <;> rfl
  | seqPreload => rfl
  | seqFeed =>
      simp only [stepFeed]
      split <;> rfl
  | seqWait =>
      simp only
      split <;> rfl

/-- The weight addressed by the sequencer is read. -/
theorem rdData_step :
    (s.step vecLen hidden i).uWeightMem.rdData = s.uWeightMem.mem (s.seqIdxNarrow hidden) := by
  rw [step]
  cases s.seqState with
  | seqIdle =>
      simp only [stepIdle]
      split <;> rfl
  | seqPreload => rfl
  | seqFeed =>
      simp only [stepFeed]
      split <;> rfl
  | seqWait =>
      simp only
      split <;> rfl

variable {s i}

theorem Idle.step (h : Idle s) (hv : i.featuresValid = false) : Idle (s.step vecLen hidden i) where
  seqState := by simp [LliuCore.step, stepIdle, h.seqState, hv, advance]
  dpStart := by simp [LliuCore.step, stepIdle, h.seqState, hv, advance]
  uDpe := by simp [uDpe_step, DotProductEngine.step, DotProductEngine.stepIdle, h.uDpe,
    DotProductEngine.advance, dpeIn, h.dpStart]

/-- An idle core takes a vector. -/
theorem Idle.take (h : Idle s) (hv : i.featuresValid = true) :
    (s.step vecLen hidden i).seqState = .seqPreload ∧ (s.step vecLen hidden i).seqIdx = 0 ∧
    (s.step vecLen hidden i).dpStart = true ∧
    (s.step vecLen hidden i).uDpe.state = .sIdle ∧
    ∀ k, k < vecLen → (s.step vecLen hidden i).featLatch k = i.features k := by
  refine ⟨?_, ?_, ?_, ?_, fun k hk => ?_⟩
  · simp [LliuCore.step, stepIdle, h.seqState, hv]
  · simp [LliuCore.step, stepIdle, h.seqState, hv]
  · simp [LliuCore.step, stepIdle, h.seqState, hv]
  · simp [uDpe_step, DotProductEngine.step, DotProductEngine.stepIdle, h.uDpe,
      DotProductEngine.advance, dpeIn, h.dpStart]
  · simp [LliuCore.step, stepIdle, h.seqState, hv, hk]

end Step

/-! ## the sequencer over one inference -/

section Inference

variable {vecLen hidden : Nat} {s : LliuCore} {i : Nat → LliuCoreIn}

/-- The run of a core. -/
def coreRun (vecLen hidden : Nat) (s : LliuCore) (i : Nat → LliuCoreIn) : Nat → LliuCore :=
  run (step vecLen hidden) s i

theorem coreRun_succ (n : Nat) :
    coreRun vecLen hidden s i (n + 1) = (coreRun vecLen hidden s i n).step vecLen hidden (i n) := rfl

/-- In cycle `1` the vector is latched, and the engine is started. -/
theorem coreRun_one (h : Idle s) (hv : (i 0).featuresValid = true) :
    (coreRun vecLen hidden s i 1).seqState = .seqPreload ∧
    (coreRun vecLen hidden s i 1).seqIdx = 0 ∧
    (coreRun vecLen hidden s i 1).dpeIn.start = true ∧
    (coreRun vecLen hidden s i 1).uDpe.state = .sIdle ∧
    ∀ k, k < vecLen → (coreRun vecLen hidden s i 1).featLatch k = (i 0).features k :=
  h.take hv

/-- Element `n` is registered for the engine in feed cycle `n`. -/
theorem coreRun_feed (h : Idle s) (hv : (i 0).featuresValid = true) (hle : vecLen ≤ hidden)
    (n : Nat) (hn : n < vecLen) :
    (coreRun vecLen hidden s i (n + 2)).seqState = .seqFeed ∧
    (coreRun vecLen hidden s i (n + 2)).seqIdx = n ∧
    (∀ k, k < vecLen → (coreRun vecLen hidden s i (n + 2)).featLatch k = (i 0).features k) ∧
    (coreRun vecLen hidden s i (n + 2)).dpFeatureValid = decide (1 ≤ n) ∧
    (1 ≤ n → (coreRun vecLen hidden s i (n + 2)).dpFeatureIn = (i 0).features (n - 1)) := by
  induction n with
  | zero =>
      obtain ⟨hst, hidx, -, -, hlatch⟩ := @coreRun_one vecLen hidden _ _ h hv
      rw [coreRun_succ]
      refine ⟨?_, ?_, fun k hk => ?_, ?_, by omega⟩
      · simp [step, hst]
      · rw [step, hst]
        exact hidx
      · rw [step, hst]
        exact hlatch k hk
      · rw [step, hst]
        rfl
  | succ n ih =>
      obtain ⟨hst, hidx, hlatch, -, -⟩ := ih (by omega)
      have hw := lt_two_pow_elemWidth vecLen
      have hne : n ≠ (vecLen - 1) % 2 ^ elemWidth vecLen := by
        rw [Nat.mod_eq_of_lt (by omega)]; omega
      have hnext : (n + 1) % 2 ^ elemWidth vecLen = n + 1 := Nat.mod_eq_of_lt (by omega)
      have hnarrow : n % 2 ^ Nat.clog 2 hidden = n :=
        Nat.mod_eq_of_lt (lt_of_lt_of_le (by omega) (Nat.le_pow_clog (by decide) hidden))
      rw [show n + 1 + 2 = n + 2 + 1 by omega, coreRun_succ]
      refine ⟨?_, ?_, fun k hk => ?_, ?_, fun _ => ?_⟩
      · simp [step, hst, stepFeed, hidx, hne, advance]
      · simp [step, hst, stepFeed, hidx, hne, hnext]
      · simp [step, hst, stepFeed, hidx, hne, advance, hlatch k hk]
      · simp [step, hst, stepFeed, hidx, hne]
      · simp [step, hst, stepFeed, hidx, hne, seqIdxNarrow, hnarrow, hlatch n (by omega)]

/-- The last element is at the engine in the first cycle of `SEQ_WAIT`. -/
theorem coreRun_fed (h : Idle s) (hv : (i 0).featuresValid = true) (hV : 1 ≤ vecLen)
    (hle : vecLen ≤ hidden) :
    (coreRun vecLen hidden s i (vecLen + 2)).seqState = .seqWait ∧
    (coreRun vecLen hidden s i (vecLen + 2)).dpFeatureValid = true ∧
    (coreRun vecLen hidden s i (vecLen + 2)).dpFeatureIn = (i 0).features (vecLen - 1) := by
  obtain ⟨hst, hidx, hlatch, -, -⟩ := coreRun_feed h hv hle (vecLen - 1) (by omega)
  have heq : vecLen - 1 = (vecLen - 1) % 2 ^ elemWidth vecLen :=
    (Nat.mod_eq_of_lt (by have := lt_two_pow_elemWidth vecLen; omega)).symm
  have hnarrow : (vecLen - 1) % 2 ^ Nat.clog 2 hidden = vecLen - 1 :=
    Nat.mod_eq_of_lt (lt_of_lt_of_le (by omega) (Nat.le_pow_clog (by decide) hidden))
  rw [show vecLen + 2 = vecLen - 1 + 2 + 1 by omega, coreRun_succ]
  refine ⟨?_, ?_, ?_⟩
  · simp [step, hst, stepFeed, hidx, ← heq]
  · simp [step, hst, stepFeed, hidx, ← heq]
  · simp [step, hst, stepFeed, hidx, ← heq, seqIdxNarrow, hnarrow, hlatch (vecLen - 1) (by omega)]

/-- What the engine sees from the cycle after `dp_start` on. -/
def fedStream (vecLen hidden : Nat) (s : LliuCore) (i : Nat → LliuCoreIn) (n : Nat) : DpeIn :=
  (coreRun vecLen hidden s i (n + 2)).dpeIn

/-- The engine is in its inference. -/
theorem uDpe_coreRun (n : Nat) :
    (coreRun vecLen hidden s i (n + 2)).uDpe =
      inference vecLen (coreRun vecLen hidden s i 1).uDpe (coreRun vecLen hidden s i 1).dpeIn
        (fedStream vecLen hidden s i) n := by
  induction n with
  | zero =>
      rw [coreRun_succ, uDpe_step]
      rfl
  | succ n ih =>
      rw [show n + 1 + 2 = n + 2 + 1 by omega, coreRun_succ, uDpe_step, ih, inference, run_succ]
      rfl

/-- `feature_valid` is high at the engine in feed cycles `1 .. vecLen`. -/
theorem featureValid_fedStream (h : Idle s) (hv : (i 0).featuresValid = true) (hV : 1 ≤ vecLen)
    (hle : vecLen ≤ hidden) (n : Nat) (hn : n ≤ vecLen) :
    (fedStream vecLen hidden s i n).featureValid = decide (1 ≤ n) := by
  rw [fedStream, dpeIn]
  by_cases hlt : n < vecLen
  · exact (coreRun_feed h hv hle n hlt).2.2.2.1
  · obtain rfl : n = vecLen := by omega
    simp [(coreRun_fed h hv hV hle).2.1, hV]

/-- Element `k` of the vector with the weight read for it. -/
def fedPair (vecLen hidden : Nat) (s : LliuCore) (i : Nat → LliuCoreIn) (k : Nat) :
    Bfloat16T × Bfloat16T :=
  ((i 0).features k, (coreRun vecLen hidden s i (k + 2)).uWeightMem.mem k)

/-- Feed cycle `k + 1` presents element `k` with its weight. -/
theorem pair_fedStream (h : Idle s) (hv : (i 0).featuresValid = true) (hV : 1 ≤ vecLen)
    (hle : vecLen ≤ hidden) (k : Nat) (hk : k < vecLen) :
    ((fedStream vecLen hidden s i (k + 1)).featureIn,
      (fedStream vecLen hidden s i (k + 1)).weightIn) = fedPair vecLen hidden s i k := by
  have hidx := (coreRun_feed h hv hle k hk).2.1
  have hnarrow : k % 2 ^ Nat.clog 2 hidden = k :=
    Nat.mod_eq_of_lt (lt_of_lt_of_le (by omega) (Nat.le_pow_clog (by decide) hidden))
  have hweight : (fedStream vecLen hidden s i (k + 1)).weightIn = (fedPair vecLen hidden s i k).2 := by
    rw [fedStream, dpeIn, show k + 1 + 2 = k + 2 + 1 by omega]
    simp only [coreRun_succ (k + 2), rdData_step, seqIdxNarrow, hidx, hnarrow, fedPair]
  have hfeature : (fedStream vecLen hidden s i (k + 1)).featureIn = (i 0).features k := by
    by_cases hlt : k + 1 < vecLen
    · exact (coreRun_feed h hv hle (k + 1) hlt).2.2.2.2 (by omega)
    · obtain rfl : vecLen = k + 1 := by omega
      exact (coreRun_fed h hv hV hle).2.2
  rw [hfeature, hweight]
  rfl

/-- The engine is fed exactly the vector, in order. -/
theorem fedPairs_fedStream (h : Idle s) (hv : (i 0).featuresValid = true) (hV : 1 ≤ vecLen)
    (hle : vecLen ≤ hidden) (n : Nat) (hn : n ≤ vecLen) :
    fedPairs (fedStream vecLen hidden s i) (n + 1) =
      (List.range n).map (fedPair vecLen hidden s i) := by
  induction n with
  | zero => simp [fedPairs, featureValid_fedStream h hv hV hle 0 (by omega)]
  | succ n ih =>
      rw [fedPairs, featureValid_fedStream h hv hV hle (n + 1) hn, if_pos (by simp), ih (by omega),
        List.range_succ, List.map_append, pair_fedStream h hv hV hle n (by omega)]
      rfl

/-- The last element arrives in feed cycle `vecLen`. -/
theorem lastPairAt_fedStream (h : Idle s) (hv : (i 0).featuresValid = true) (hV : 1 ≤ vecLen)
    (hle : vecLen ≤ hidden) : LastPairAt vecLen (fedStream vecLen hidden s i) vecLen := by
  constructor
  · obtain ⟨m, rfl⟩ : ∃ m, vecLen = m + 1 := ⟨vecLen - 1, by omega⟩
    rw [fedPairs_fedStream h hv hV hle m (by omega), List.length_map, List.length_range]
  · rw [featureValid_fedStream h hv hV hle vecLen (le_refl _), decide_eq_true hV]

/-- The sequencer waits until the result. -/
theorem coreRun_wait (h : Idle s) (hv : (i 0).featuresValid = true) (hV : 1 ≤ vecLen)
    (hle : vecLen ≤ hidden) (n : Nat) (hn : vecLen ≤ n) (hn' : n ≤ resultCycle vecLen vecLen) :
    (coreRun vecLen hidden s i (n + 2)).seqState = .seqWait := by
  obtain ⟨-, -, hstart, hidle, -⟩ := @coreRun_one vecLen hidden _ _ h hv
  induction n, hn using Nat.le_induction with
  | base => exact (coreRun_fed h hv hV hle).1
  | succ n hge ih =>
      have hnot : (coreRun vecLen hidden s i (n + 2)).resultValid = false := by
        rw [resultValid, uDpe_coreRun]
        rw [resultValid_inference hidle hstart (lastPairAt_fedStream h hv hV hle) n (by omega)]
        exact decide_eq_false (by omega)
      rw [show n + 1 + 2 = n + 2 + 1 by omega, coreRun_succ, step, ih (by omega)]
      simp only [hnot, Bool.false_eq_true, if_false]
      exact ih (by omega)

/-- **Result timing**: the result is valid `latency` cycles after the vector is
taken, and in no cycle between. -/
theorem resultValid_coreRun (h : Idle s) (hv : (i 0).featuresValid = true) (hV : 1 ≤ vecLen)
    (hle : vecLen ≤ hidden) (n : Nat) (hn : n ≤ latency vecLen) :
    (coreRun vecLen hidden s i n).resultValid = decide (n = latency vecLen) := by
  obtain ⟨-, -, hstart, hidle, -⟩ := @coreRun_one vecLen hidden _ _ h hv
  match n with
  | 0 =>
      have hzero : (coreRun vecLen hidden s i 0).uDpe.state = .sIdle := h.uDpe
      simp [resultValid, DotProductEngine.resultValid, hzero, latency]
  | 1 => simp [resultValid, DotProductEngine.resultValid, hidle, latency]
  | n + 2 =>
      have hn' : n ≤ resultCycle vecLen vecLen := by rw [latency] at hn; omega
      rw [resultValid, uDpe_coreRun,
        resultValid_inference hidle hstart (lastPairAt_fedStream h hv hV hle) n hn', latency]
      simp

/-- The core takes no other vector before the result. -/
theorem seqState_coreRun (h : Idle s) (hv : (i 0).featuresValid = true) (hV : 1 ≤ vecLen)
    (hle : vecLen ≤ hidden) (n : Nat) (h1 : 1 ≤ n) (hn : n ≤ latency vecLen) :
    (coreRun vecLen hidden s i n).seqState ≠ .seqIdle := by
  match n, h1 with
  | 1, _ =>
      rw [(@coreRun_one vecLen hidden _ _ h hv).1]
      decide
  | n + 2, _ =>
      by_cases hlt : n < vecLen
      · rw [(coreRun_feed h hv hle n hlt).1]
        decide
      · rw [coreRun_wait h hv hV hle n (by omega) (by rw [latency] at hn; omega)]
        decide

/-- After the result the core is idle again. -/
theorem idle_coreRun (h : Idle s) (hv : (i 0).featuresValid = true) (hV : 1 ≤ vecLen)
    (hle : vecLen ≤ hidden) : Idle (coreRun vecLen hidden s i (latency vecLen + 1)) := by
  have hwait := coreRun_wait (i := i) h hv hV hle (resultCycle vecLen vecLen)
    (by rw [resultCycle]; omega) (le_refl _)
  have hvalid : (coreRun vecLen hidden s i (resultCycle vecLen vecLen + 2)).resultValid = true := by
    rw [resultValid_coreRun h hv hV hle _ (by rw [latency])]
    exact decide_eq_true rfl
  have hdone : (coreRun vecLen hidden s i (resultCycle vecLen vecLen + 2)).uDpe.state = .sDone := by
    simpa [resultValid, DotProductEngine.resultValid] using hvalid
  rw [latency, coreRun_succ]
  refine ⟨?_, ?_, ?_⟩
  · simp [step, hwait, hvalid]
  · simp [step, hwait, hvalid, advance]
  · simp [uDpe_step, DotProductEngine.step, hdone]

/-- **Score**: the result is that of the engine for the vector taken and the
weights read. -/
theorem result_coreRun (h : Idle s) (hv : (i 0).featuresValid = true) (hV : 1 ≤ vecLen)
    (hle : vecLen ≤ hidden) :
    (coreRun vecLen hidden s i (latency vecLen)).result =
      mergeOver (retainedAccs vecLen) ((List.range vecLen).map (fedPair vecLen hidden s i)) := by
  obtain ⟨-, -, hstart, hidle, -⟩ := @coreRun_one vecLen hidden _ _ h hv
  rw [latency, result, uDpe_coreRun,
    result_inference hidle hstart (lastPairAt_fedStream h hv hV hle),
    fedPairs_fedStream h hv hV hle vecLen (le_refl _)]

end Inference

end LliuCore

end Lliu
