import Lliu.DotProductEngine.Result
import Lliu.LliuTop

/-!
# Lliu.LliuTop.Inference

One inference of the first version.  A vector that finds the sequencer idle and the
engine able to hear `start` in the next cycle has its result 31 cycles later, provided
that no other vector comes before; that of its last cycle may be one.
-/

namespace Lliu

namespace LliuTop

open Hdl DotProductEngine

/-- The cycles from `feat_valid` to the result. -/
def latency : Nat := 31

/-- A vector is taken: the sequencer is idle, and so is the engine in the next cycle. -/
structure Free (s : LliuTop) : Prop where
  seqState : s.seqState = .seqIdle
  dpStart : s.dpStart = false
  uDpEngine : s.uDpEngine.state = .sIdle ∨ s.uDpEngine.state = .sDone

/-- The run from `s` takes a vector in its first cycle, and no other and no reset
interfere. -/
structure Undisturbed (s : LliuTop) (i : Nat → LliuTopIn) : Prop where
  free : Free s
  taken : s.featValid = true
  sysRst : ∀ n < latency, (run step s i n).sysRst = false
  alone : ∀ n, 1 ≤ n → n < latency → (run step s i n).featValid = false

section Inference

variable {s : LliuTop} {i : Nat → LliuTopIn}

/-- In cycle 1 the engine is started. -/
theorem run_one (h : Undisturbed s i) :
    (run step s i 1).seqState = .seqPreload ∧ (run step s i 1).seqIdx = 0 ∧
    (run step s i 1).dpStart = true ∧ (run step s i 1).uDpEngine.state = .sIdle := by
  have hr := h.sysRst 0 (by decide)
  have hengine := (instances_step (i 0) hr).2.2.2
  have hstep : run step s i 1 = s.stepIdle (s.advance (i 0)) := step_seqIdle _ hr h.free.seqState
  have htaken := h.taken
  refine ⟨?_, ?_, ?_, ?_⟩
  · simp [hstep, stepIdle, htaken]
  · simp [hstep, stepIdle, htaken]
  · simp [hstep, stepIdle, htaken]
  · rw [run_zero] at hengine
    rw [run_succ, run_zero, hengine]
    obtain hidle | hdone := h.free.uDpEngine
    · simp [DotProductEngine.step, DotProductEngine.stepIdle, DotProductEngine.advance, hidle, dpeIn,
        h.free.dpStart]
    · simp [DotProductEngine.step, hdone]

/-- The vector stays at the outputs of the feature extractor. -/
theorem features_run (h : Undisturbed s i) (n : Nat) (hn : n < latency) :
    (run step s i n).uFeatExtract.features = s.uFeatExtract.features := by
  induction n with
  | zero => rfl
  | succ n ih =>
      have hfeat := (instances_step (i n) (h.sysRst n (by omega))).2.1
      have halone := h.alone (n + 1) (by omega) hn
      rw [featValid, run_succ, hfeat] at halone
      rw [run_succ, hfeat, FeatureExtractor.features_step halone, ih (by omega)]

/-- The number of an element. -/
theorem seqIdx_eq {k : Nat} (hk : k < 4) :
    ((BitVec.ofNat 3 k).setWidth 2).toFin = ⟨k, hk⟩ ∧
    ((BitVec.ofNat 3 k).setWidth 2).toNat = k ∧
    (BitVec.ofNat 3 k = BitVec.ofNat 3 featureVecLen - 1 ↔ k = 3) := by
  have hall : ∀ k : Fin 4, ((BitVec.ofNat 3 k).setWidth 2).toFin = k ∧
      ((BitVec.ofNat 3 k).setWidth 2).toNat = k.val ∧
      (BitVec.ofNat 3 k = BitVec.ofNat 3 featureVecLen - 1 ↔ k.val = 3) := by
    decide
  exact hall ⟨k, hk⟩

/-- In cycle `k + 2` element `k` is registered, and the one before is at the engine. -/
theorem run_feed (h : Undisturbed s i) (k : Nat) (hk : k < 4) :
    (run step s i (k + 2)).seqState = .seqFeed ∧
    (run step s i (k + 2)).seqIdx = BitVec.ofNat 3 k ∧
    (run step s i (k + 2)).dpStart = false ∧
    (run step s i (k + 2)).dpFeatureValid = decide (1 ≤ k) ∧
    ∀ j : Fin featureVecLen, j.val + 1 = k →
      (run step s i (k + 2)).dpFeatureIn = s.uFeatExtract.features j := by
  induction k with
  | zero =>
      obtain ⟨hstate, hidx, -, -⟩ := run_one h
      have hstep := step_seqPreload (i 1) (h.sysRst 1 (by decide)) hstate
      rw [run_succ, hstep]
      exact ⟨rfl, hidx, rfl, rfl, fun j hj => absurd hj (by omega)⟩
  | succ k ih =>
      obtain ⟨hstate, hidx, -, -, -⟩ := ih (by omega)
      obtain ⟨hfin, -, hlast⟩ := seqIdx_eq (k := k) (by omega)
      have hfeat := features_run h (k + 2) (by rw [latency]; omega)
      have hstep := step_seqFeed (i (k + 2)) (h.sysRst (k + 2) (by rw [latency]; omega)) hstate
      have hmore : ¬ BitVec.ofNat 3 k = BitVec.ofNat 3 featureVecLen - 1 := by
        rw [hlast]
        omega
      rw [show k + 1 + 2 = k + 2 + 1 by omega, run_succ, hstep, stepFeed, hidx, if_neg hmore,
        hfin, hfeat]
      refine ⟨hstate, (BitVec.ofNat_add k 1).symm, rfl, by simp, fun j hj => ?_⟩
      have hj' : j = ⟨k, by omega⟩ := Fin.ext (Nat.succ.inj hj)
      exact congrArg s.uFeatExtract.features hj'.symm

/-- In cycle 6 the last element is at the engine, and the sequencer is idle. -/
theorem run_fed (h : Undisturbed s i) :
    (run step s i 6).seqState = .seqIdle ∧
    (run step s i 6).dpStart = false ∧
    (run step s i 6).dpFeatureValid = true ∧
    (run step s i 6).dpFeatureIn = s.uFeatExtract.features 3 := by
  obtain ⟨hstate, hidx, -, -, -⟩ := run_feed h 3 (by decide)
  obtain ⟨hfin, -, hlast⟩ := seqIdx_eq (k := 3) (by decide)
  have hfeat := features_run h 5 (by decide)
  have hstep := step_seqFeed (i 5) (h.sysRst 5 (by decide)) hstate
  rw [run_succ, hstep, stepFeed, hidx, if_pos (hlast.mpr rfl), hfin, hfeat]
  exact ⟨rfl, rfl, rfl, rfl⟩

/-- The sequencer stays idle. -/
theorem seqState_run (h : Undisturbed s i) (n : Nat) (h6 : 6 ≤ n) (hn : n ≤ latency) :
    (run step s i n).seqState = .seqIdle := by
  induction n, h6 using Nat.le_induction with
  | base => exact (run_fed h).1
  | succ n h6 ih =>
      have hstate := ih (by omega)
      have halone := h.alone n (by omega) hn
      rw [run_succ, step_seqIdle (i n) (h.sysRst n hn) hstate, stepIdle,
        if_neg (by rw [halone]; decide)]
      exact hstate

/-- An idle sequencer without a vector starts nothing. -/
theorem dpStart_run (h : Undisturbed s i) (n : Nat) (h6 : 6 ≤ n) (hn : n < latency) :
    (run step s i (n + 1)).dpStart = false := by
  have halone := h.alone n (by omega) hn
  rw [run_succ, step_seqIdle (i n) (h.sysRst n hn) (seqState_run h n h6 (by omega)), stepIdle,
    if_neg (by rw [halone]; decide)]
  rfl

/-! ## the engine -/

/-- What the engine sees from the cycle after `dp_start` on. -/
def fedStream (s : LliuTop) (i : Nat → LliuTopIn) (n : Nat) : DpeIn := (run step s i (n + 2)).dpeIn

/-- It is in its inference. -/
theorem uDpEngine_run (h : Undisturbed s i) (n : Nat) (hn : n + 2 ≤ latency) :
    (run step s i (n + 2)).uDpEngine = inference featureVecLen (run step s i 1).uDpEngine
      (run step s i 1).dpeIn (fedStream s i) n := by
  induction n with
  | zero => exact (instances_step (i 1) (h.sysRst 1 (by decide))).2.2.2
  | succ n ih =>
      have hengine := (instances_step (i (n + 2)) (h.sysRst (n + 2) (by omega))).2.2.2
      rw [show n + 1 + 2 = n + 2 + 1 by omega, run_succ, hengine, ih (by omega), inference, run_succ]
      rfl

/-- Element `k` of the vector with the weight read for it. -/
def fedPair (s : LliuTop) (i : Nat → LliuTopIn) (k : Fin featureVecLen) : Bfloat16T × Bfloat16T :=
  (s.uFeatExtract.features k, (run step s i (k + 2)).uWeightMem.mem k)

/-- Cycle `k + 3` presents element `k`. -/
theorem fedStream_succ (h : Undisturbed s i) (k : Fin featureVecLen) :
    (fedStream s i (k + 1)).featureValid = true ∧
    ((fedStream s i (k + 1)).featureIn, (fedStream s i (k + 1)).weightIn) = fedPair s i k := by
  have hk : k.val < 4 := k.isLt
  have hidx := (run_feed h k hk).2.1
  have hweight : (fedStream s i (k + 1)).weightIn = (run step s i (k + 2)).uWeightMem.mem k := by
    have hmem := (instances_step (i (k + 2)) (h.sysRst (k + 2) (by rw [latency]; omega))).2.2.1
    have hrd : (fedStream s i (k + 1)).weightIn =
        ((run step s i (k + 2)).step (i (k + 2))).uWeightMem.rdData := rfl
    rw [hrd, hmem, WeightMem.step, weightIn, hidx, (seqIdx_eq hk).2.1]
  rw [hweight, fedPair]
  by_cases hlast : k.val + 1 < 4
  · obtain ⟨-, -, -, hvalid, hin⟩ := run_feed h (k + 1) hlast
    exact ⟨hvalid.trans (decide_eq_true (by omega)), by rw [← hin k rfl]; rfl⟩
  · obtain rfl : k = 3 := Fin.ext (show k.val = 3 by omega)
    obtain ⟨-, -, hvalid, hin⟩ := run_fed h
    exact ⟨hvalid, by rw [← hin]; rfl⟩

/-- The engine is fed the vector, in order. -/
theorem fedPairs_fedStream (h : Undisturbed s i) (n : Nat) (hn : n ≤ 4) :
    fedPairs (fedStream s i) (n + 1) =
      ((List.finRange featureVecLen).take n).map (fedPair s i) := by
  induction n with
  | zero =>
      have hnone : (fedStream s i 0).featureValid = false := (run_feed h 0 (by decide)).2.2.2.1
      simp [fedPairs, hnone]
  | succ n ih =>
      obtain ⟨hvalid, hpair⟩ := fedStream_succ h ⟨n, hn⟩
      have hget : (List.finRange featureVecLen)[n]? = some ⟨n, hn⟩ := by
        simp [show n < 4 from hn]
      rw [fedPairs, if_pos hvalid, ih (by omega), hpair, List.take_add_one, hget, List.map_append]
      rfl

/-- The last element arrives in feed cycle 4. -/
theorem lastPairAt_fedStream (h : Undisturbed s i) :
    LastPairAt featureVecLen (fedStream s i) featureVecLen := by
  refine ⟨?_, (fedStream_succ h 3).1⟩
  have hpairs := fedPairs_fedStream h 3 (by decide)
  rw [show featureVecLen = 3 + 1 from rfl, hpairs]
  rfl

theorem resultCycle_eq : resultCycle featureVecLen featureVecLen + 2 = latency := by decide

/-- **Result timing**: the result is valid 31 cycles after the vector was taken, and in no
cycle between. -/
theorem dpResultValid_run (h : Undisturbed s i) (n : Nat) (h1 : 1 ≤ n) (hn : n ≤ latency) :
    (run step s i n).dpResultValid = decide (n = latency) := by
  obtain ⟨-, -, hstart, hidle⟩ := run_one h
  have hcycle := resultCycle_eq
  match n, h1 with
  | 1, _ => simp [dpResultValid, DotProductEngine.resultValid, hidle, latency]
  | n + 2, _ =>
      rw [dpResultValid, uDpEngine_run h n hn,
        resultValid_inference hidle hstart (lastPairAt_fedStream h) n (by omega)]
      exact decide_eq_decide.mpr (by omega)

/-- **Result**: it is that of the engine for the vector taken and the weights read. -/
theorem dpResult_run (h : Undisturbed s i) : (run step s i latency).dpResult =
    mergeOver (retainedAccs featureVecLen)
      ((List.finRange featureVecLen).map (fedPair s i)) := by
  obtain ⟨-, -, hstart, hidle⟩ := run_one h
  have hpairs := fedPairs_fedStream h 4 (Nat.le_refl _)
  rw [← resultCycle_eq, dpResult, uDpEngine_run h _ (Nat.le_of_eq resultCycle_eq),
    result_inference hidle hstart (lastPairAt_fedStream h), hpairs]
  rfl

/-- In the cycle of the result the next vector may be taken. -/
theorem free_run (h : Undisturbed s i) : Free (run step s i latency) := by
  have hstate := seqState_run h latency (by decide) (Nat.le_refl _)
  have hstart := dpStart_run h 30 (by decide) (by decide)
  have hdone := dpResultValid_run h latency (by decide) (Nat.le_refl _)
  exact ⟨hstate, hstart, .inr (by simpa [dpResultValid, DotProductEngine.resultValid] using hdone)⟩

end Inference

end LliuTop

end Lliu
