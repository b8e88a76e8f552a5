import Lliu.DotProductEngine

/-!
# Lliu.DotProductEngine.Timing

The engine's control over one inference.  Cycle `0` is the cycle after `start`;
the stream `i` may leave any number of idle cycles between `feature_valid`
pulses.  If the last of the `vecLen` pairs arrives in cycle `t`, then

* up to `t` the engine streams and has counted exactly the pairs seen so far;
* the six cycles after `t` drain the multiplier;
* the drain counter then runs `0 .. DRAIN_EXIT_VAL`, and `result_valid` is high
  in the cycle after, `resultCycle vecLen t`, and in none before.
-/

namespace Lliu

namespace DotProductEngine

open Hdl

/-! ## the pairs fed -/

/-- The pairs presented with `feature_valid` in the cycles before `n`. -/
def fedPairs (i : Nat → DpeIn) : Nat → List (Bfloat16T × Bfloat16T)
  | 0 => []
  | n + 1 =>
      if (i n).featureValid then fedPairs i n ++ [((i n).featureIn, (i n).weightIn)]
      else fedPairs i n

/-- The last of `vecLen` pairs arrives in cycle `t`. -/
def LastPairAt (vecLen : Nat) (i : Nat → DpeIn) (t : Nat) : Prop :=
  (fedPairs i t).length + 1 = vecLen ∧ (i t).featureValid = true

/-- The run of the engine from the cycle after `start`. -/
def inference (vecLen : Nat) (s : DotProductEngine) (i0 : DpeIn) (i : Nat → DpeIn) :
    Nat → DotProductEngine :=
  run (step vecLen) (s.step vecLen i0) i

/-- The cycle in which the result is valid. -/
def resultCycle (vecLen t : Nat) : Nat := t + drainExitVal vecLen + 8

section Counts

variable {i : Nat → DpeIn}

theorem length_fedPairs_succ (n : Nat) :
    (fedPairs i (n + 1)).length =
      (fedPairs i n).length + if (i n).featureValid then 1 else 0 := by
  rw [fedPairs]
  split <;> simp

theorem length_fedPairs_mono {m n : Nat} (h : m ≤ n) :
    (fedPairs i m).length ≤ (fedPairs i n).length := by
  induction n, h using Nat.le_induction with
  | base => exact le_refl _
  | succ n _ ih =>
      rw [length_fedPairs_succ]
      omega

/-- At most one pair arrives per cycle. -/
theorem length_fedPairs_le_add (m k : Nat) :
    (fedPairs i (m + k)).length ≤ (fedPairs i m).length + k := by
  induction k with
  | zero => exact le_refl _
  | succ k ih =>
      rw [← Nat.add_assoc, length_fedPairs_succ]
      split <;> omega

end Counts

/-! ## arithmetic of the schedule -/

theorem numAccsUsed_le (vecLen : Nat) : numAccsUsed vecLen ≤ 5 := by
  rw [numAccsUsed]; split <;> omega

theorem numAccsUsed_pos {vecLen : Nat} (h : 1 ≤ vecLen) : 1 ≤ numAccsUsed vecLen := by
  rw [numAccsUsed]; split <;> omega

/-- `DRAIN_EXIT_VAL` never overflows its five bits. -/
theorem drainExitVal_eq (vecLen : Nat) :
    drainExitVal vecLen = (numAccsUsed vecLen - 1) * 4 + 5 := by
  have h := numAccsUsed_le vecLen
  rw [drainExitVal, drainLastEn, mergeStep, Nat.mod_eq_of_lt (by omega), Nat.mod_eq_of_lt (by omega)]

theorem drainExitVal_le (vecLen : Nat) : drainExitVal vecLen ≤ 21 := by
  have h := numAccsUsed_le vecLen
  rw [drainExitVal_eq]
  omega

/-- The element counter has room for every element number. -/
theorem lt_two_pow_elemWidth (vecLen : Nat) : vecLen < 2 ^ elemWidth vecLen :=
  Nat.lt_of_lt_of_le (Nat.lt_succ_self _) (Nat.le_pow_clog (by decide) _)

/-! ## one step in each state -/

section Step

variable {vecLen : Nat} (s : DotProductEngine) (i : DpeIn)

/-- The multiplier pipeline carries the dispatched element number. -/
theorem macPipe_step :
    (s.step vecLen i).macPipeValid0 = s.dispatch i ∧
    (s.dispatch i = true → (s.step vecLen i).macPipeElem0 = s.macElem) ∧
    (s.step vecLen i).macPipeValid1 = s.macPipeValid0 ∧
    (s.step vecLen i).macPipeElem1 = s.macPipeElem0 := by
  rcases s with ⟨state, _, _, fed, _, _, _, _, _, _, _, _, _, _, _, _⟩
  cases state <;> cases fed <;> cases hv : i.featureValid <;>
    simp [step, stepIdle, stepStream, stepDrain, advance, dispatch, hv] <;> split <;> simp

/-- The datapath registers are loaded in every state. -/
theorem datapath_step :
    (s.step vecLen i).uMul = s.uMul.step (s.mulA i) (s.mulB i) ∧
    (∀ k, (s.step vecLen i).acc k = (s.acc k).step
      { addend := s.uMul.result, accEn := s.accEnR k, accClear := s.accClear }) ∧
    (s.step vecLen i).mergeAddendR = s.mergeAddend vecLen ∧
    (s.step vecLen i).mergeEnR = s.mergeEn vecLen ∧
    (s.step vecLen i).uMerge = s.uMerge.step
      { addend := s.mergeAddendR, accEn := s.mergeEnR, accClear := s.mergeClear } := by
  rcases s with ⟨state, _, _, fed, _, _, _, _, _, _, _, _, _, _, _, _⟩
  cases state <;> cases fed <;> cases hv : i.featureValid <;>
    simp [step, stepIdle, stepStream, stepDrain, advance, hv] <;> split <;> simp

/-- Only `S_IDLE` clears the accumulators. -/
theorem clear_step (h : s.state ≠ .sIdle) :
    (s.step vecLen i).accClear = false ∧ (s.step vecLen i).mergeClear = false := by
  rcases s with ⟨state, _, _, fed, _, _, _, _, _, _, _, _, _, _, _, _⟩
  cases state <;> cases fed <;> cases hv : i.featureValid <;>
    simp_all [step, stepStream, stepDrain, advance] <;> split <;> simp

/-- `start` in `S_IDLE` clears everything and begins streaming. -/
theorem start_step (h : s.state = .sIdle) (hi : i.start = true) :
    (s.step vecLen i).state = .sStream ∧ (s.step vecLen i).macLastFed = false ∧
    (s.step vecLen i).macElem = 0 ∧ (s.step vecLen i).macPipeValid0 = false ∧
    (s.step vecLen i).mergeEnR = false ∧
    (s.step vecLen i).accClear = true ∧ (s.step vecLen i).mergeClear = true := by
  simp [step, stepIdle, advance, mergeEn, h, hi]

end Step

/-! ## the way to a result -/

/-- The fewest cycles to the next result; `start` and the pairs may come later than
needed. -/
def untilDone (vecLen : Nat) (s : DotProductEngine) : Nat :=
  match s.state with
  | .sIdle => vecLen + drainExitVal vecLen + 8
  | .sStream =>
      if s.macLastFed then 6 - s.macDrain + drainExitVal vecLen + 1
      else vecLen - s.macElem + drainExitVal vecLen + 7
  | .sDrain => drainExitVal vecLen + 1 - s.drainCnt
  | .sDone => 0

section UntilDone

variable {vecLen : Nat} {s : DotProductEngine}

theorem untilDone_of_done (h : s.resultValid = true) : untilDone vecLen s = 0 := by
  have hstate : s.state = .sDone := by simpa [resultValid] using h
  simp [untilDone, hstate]

theorem untilDone_of_idle (h : s.state = .sIdle) :
    untilDone vecLen s = vecLen + drainExitVal vecLen + 8 := by
  simp [untilDone, h]

/-- No state is further from a result than idle ones. -/
theorem untilDone_le (vecLen : Nat) (s : DotProductEngine) :
    untilDone vecLen s ≤ vecLen + drainExitVal vecLen + 8 := by
  rw [untilDone]
  cases s.state with
  | sIdle => exact Nat.le_refl _
  | sStream =>
      simp only
      split <;> omega
  | sDrain =>
      simp only
      omega
  | sDone => exact Nat.zero_le _

/-- A cycle brings the result closer by one at most. -/
theorem untilDone_step (i : DpeIn) :
    untilDone vecLen s ≤ untilDone vecLen (s.step vecLen i) + 1 := by
  cases hstate : s.state with
  | sIdle =>
      cases hi : i.start with
      | true =>
          obtain ⟨hnext, hfed, helem, -⟩ := @start_step vecLen s i hstate hi
          simp only [untilDone, hstate, hnext, hfed, helem]
          simp
      | false => simp [untilDone, step, stepIdle, hstate, hi, advance]
  | sStream =>
      cases hfed : s.macLastFed with
      | false =>
          simp only [step, stepStream, hstate, hfed, Bool.not_false, if_true]
          split
          · split
            · next hlast =>
                rw [Nat.mod_eq_of_lt (lt_two_pow_elemWidth vecLen)] at hlast
                simp [untilDone, hstate, hfed, advance]
                omega
            · have hle := Nat.mod_le (s.macElem + 1) (2 ^ elemWidth vecLen)
              simp [untilDone, hstate, hfed, advance]
              omega
          · simp [untilDone, hstate, hfed, advance]
      | true =>
          simp only [step, stepStream, hstate, hfed, Bool.not_true, Bool.false_eq_true, if_false]
          split
          · next hdrained =>
              simp [untilDone, hstate, hfed, hdrained]
              omega
          · simp [untilDone, hstate, hfed, advance]
            omega
  | sDrain =>
      simp only [step, stepDrain, hstate]
      by_cases hexit : s.drainCnt = drainExitVal vecLen
      · simp [untilDone, hstate, hexit]
      · simp [untilDone, hstate, hexit]
        omega
  | sDone => simp [untilDone, hstate]

end UntilDone

/-! ## the control of one inference -/

section Timeline

variable {vecLen : Nat} {s : DotProductEngine} {i0 : DpeIn} {i : Nat → DpeIn} {t : Nat}

/-- While pairs are arriving, the engine streams and its element counter is
the number of pairs seen. -/
theorem inference_streaming (hs : s.state = .sIdle) (h0 : i0.start = true)
    (ht : LastPairAt vecLen i t) (n : Nat) (hn : n ≤ t) :
    (inference vecLen s i0 i n).state = .sStream ∧
    (inference vecLen s i0 i n).macLastFed = false ∧
    (inference vecLen s i0 i n).macElem = (fedPairs i n).length := by
  induction n with
  | zero =>
      obtain ⟨hst, hfed, hel, -⟩ := @start_step vecLen s i0 hs h0
      exact ⟨hst, hfed, hel⟩
  | succ n ih =>
      obtain ⟨hst, hfed, hel⟩ := ih (by omega)
      have hlen := length_fedPairs_mono (i := i) hn
      have hw := lt_two_pow_elemWidth vecLen
      have hL := ht.1
      rw [length_fedPairs_succ] at hlen ⊢
      rw [inference, run_succ, ← inference]
      cases hv : (i n).featureValid with
      | false => simp [step, stepStream, advance, hst, hfed, hel, hv]
      | true =>
          rw [hv, if_pos rfl] at hlen
          have hne : (fedPairs i n).length ≠ vecLen % 2 ^ elemWidth vecLen - 1 := by
            rw [Nat.mod_eq_of_lt hw]; omega
          have hmod : ((fedPairs i n).length + 1) % 2 ^ elemWidth vecLen =
              (fedPairs i n).length + 1 := Nat.mod_eq_of_lt (by omega)
          simp [step, stepStream, advance, hst, hfed, hel, hv, hne, hmod]

/-- The last pair sets `mac_last_fed`, and six cycles drain the multiplier. -/
theorem inference_macDrain (hs : s.state = .sIdle) (h0 : i0.start = true)
    (ht : LastPairAt vecLen i t) (k : Nat) (hk : k ≤ 5) :
    (inference vecLen s i0 i (t + 1 + k)).state = .sStream ∧
    (inference vecLen s i0 i (t + 1 + k)).macLastFed = true ∧
    (inference vecLen s i0 i (t + 1 + k)).macDrain = k := by
  induction k with
  | zero =>
      obtain ⟨hst, hfed, hel⟩ := inference_streaming hs h0 ht t (le_refl _)
      obtain ⟨hL, hv⟩ := ht
      have heq : (fedPairs i t).length = vecLen % 2 ^ elemWidth vecLen - 1 := by
        rw [Nat.mod_eq_of_lt (lt_two_pow_elemWidth vecLen)]; omega
      rw [Nat.add_zero, inference, run_succ, ← inference]
      simp [step, stepStream, advance, hst, hfed, hel, hv, ← heq]
  | succ k ih =>
      obtain ⟨hst, hfed, hdr⟩ := ih (by omega)
      have hne : k ≠ 5 := by omega
      have hmod : (k + 1) % 8 = k + 1 := Nat.mod_eq_of_lt (by omega)
      rw [← Nat.add_assoc, inference, run_succ, ← inference]
      simp [step, stepStream, advance, hst, hfed, hdr, hne, hmod]

/-- The drain counter then counts the merge schedule. -/
theorem inference_drainCnt (hs : s.state = .sIdle) (h0 : i0.start = true)
    (ht : LastPairAt vecLen i t) (k : Nat) (hk : k ≤ drainExitVal vecLen) :
    (inference vecLen s i0 i (t + 7 + k)).state = .sDrain ∧
    (inference vecLen s i0 i (t + 7 + k)).drainCnt = k := by
  induction k with
  | zero =>
      obtain ⟨hst, hfed, hdr⟩ := inference_macDrain hs h0 ht 5 (le_refl _)
      rw [Nat.add_zero, show t + 7 = t + 1 + 5 + 1 by omega, inference, run_succ, ← inference]
      simp [step, stepStream, advance, hst, hfed, hdr]
  | succ k ih =>
      obtain ⟨hst, hdr⟩ := ih (by omega)
      have hle := drainExitVal_le vecLen
      have hne : k ≠ drainExitVal vecLen := by omega
      have hmod : (k + 1) % 32 = k + 1 := Nat.mod_eq_of_lt (by omega)
      rw [← Nat.add_assoc, inference, run_succ, ← inference]
      simp [step, stepDrain, advance, hst, hdr, hne, hmod]

/-- After the exit value the engine is done. -/
theorem inference_done (hs : s.state = .sIdle) (h0 : i0.start = true)
    (ht : LastPairAt vecLen i t) :
    (inference vecLen s i0 i (resultCycle vecLen t)).state = .sDone := by
  obtain ⟨hst, hdr⟩ := inference_drainCnt hs h0 ht _ (le_refl _)
  rw [resultCycle, show t + drainExitVal vecLen + 8 = t + 7 + drainExitVal vecLen + 1 by omega,
    inference, run_succ, ← inference]
  simp [step, stepDrain, advance, hst, hdr]

/-- Between `start` and the result the engine is streaming or draining. -/
theorem inference_busy (hs : s.state = .sIdle) (h0 : i0.start = true)
    (ht : LastPairAt vecLen i t) (n : Nat) (hn : n < resultCycle vecLen t) :
    (inference vecLen s i0 i n).state = .sStream ∨ (inference vecLen s i0 i n).state = .sDrain := by
  rw [resultCycle] at hn
  by_cases h1 : n ≤ t
  · exact Or.inl (inference_streaming hs h0 ht n h1).1
  · by_cases h2 : n ≤ t + 6
    · have h := (inference_macDrain hs h0 ht (n - (t + 1)) (by omega)).1
      rw [show t + 1 + (n - (t + 1)) = n by omega] at h
      exact Or.inl h
    · have h := (inference_drainCnt hs h0 ht (n - (t + 7)) (by omega)).1
      rw [show t + 7 + (n - (t + 7)) = n by omega] at h
      exact Or.inr h

/-- **Result timing**: `result_valid` is high in the result cycle and in no
cycle before it. -/
theorem resultValid_inference (hs : s.state = .sIdle) (h0 : i0.start = true)
    (ht : LastPairAt vecLen i t) (n : Nat) (hn : n ≤ resultCycle vecLen t) :
    (inference vecLen s i0 i n).resultValid = decide (n = resultCycle vecLen t) := by
  by_cases hlt : n < resultCycle vecLen t
  · have hne : n ≠ resultCycle vecLen t := by omega
    have hst : (inference vecLen s i0 i n).state ≠ .sDone := by
      rcases inference_busy hs h0 ht n hlt with h | h <;> rw [h] <;> decide
    simp [resultValid, hst, hne]
  · have heq : n = resultCycle vecLen t := by omega
    simp [resultValid, heq, inference_done hs h0 ht]

/-- Exactly the pulses up to the last pair are dispatched. -/
theorem dispatch_inference (hs : s.state = .sIdle) (h0 : i0.start = true)
    (ht : LastPairAt vecLen i t) (n : Nat) (hn : n < resultCycle vecLen t) :
    (inference vecLen s i0 i n).dispatch (i n) = (decide (n ≤ t) && (i n).featureValid) := by
  by_cases h1 : n ≤ t
  · obtain ⟨hst, hfed, -⟩ := inference_streaming hs h0 ht n h1
    simp [dispatch, hst, hfed, h1]
  · rw [resultCycle] at hn
    by_cases h2 : n ≤ t + 6
    · obtain ⟨-, h, -⟩ := inference_macDrain hs h0 ht (n - (t + 1)) (by omega)
      rw [show t + 1 + (n - (t + 1)) = n by omega] at h
      simp [dispatch, h, h1]
    · obtain ⟨h, -⟩ := inference_drainCnt hs h0 ht (n - (t + 7)) (by omega)
      rw [show t + 7 + (n - (t + 7)) = n by omega] at h
      simp [dispatch, h, h1]

/-- The clears pulse in cycle `0` only. -/
theorem clear_inference (hs : s.state = .sIdle) (h0 : i0.start = true)
    (ht : LastPairAt vecLen i t) (n : Nat) (hn : 1 ≤ n) (hne : n ≤ resultCycle vecLen t) :
    (inference vecLen s i0 i n).accClear = false ∧
    (inference vecLen s i0 i n).mergeClear = false := by
  obtain ⟨m, rfl⟩ : ∃ m, n = m + 1 := ⟨n - 1, by omega⟩
  rw [inference, run_succ, ← inference]
  apply clear_step
  rcases inference_busy hs h0 ht m (by omega) with h | h <;> simp [h]

end Timeline

end DotProductEngine

end Lliu
