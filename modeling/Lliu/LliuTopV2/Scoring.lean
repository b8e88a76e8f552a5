import Lliu.LliuCore.Inference
import Lliu.LliuTopV2.Trace

/-!
# Lliu.LliuTopV2.Scoring

From a message to its score.  The eight cores work in step: all take the feature
vector of a message together (`Taken`), or none does, and take no other until
the result.  So every best score out of the arbiter is that of one message,
whose `fields_valid` pulse was 76 cycles before (`scored_of_bestValid`).
-/

namespace Lliu

namespace LliuTopV2

open Hdl LliuCore DotProductEngine

variable {i : Nat → LliuTopV2In}

/-- What core `k` sees in a run. -/
def coreStream (i : Nat → LliuTopV2In) (k : Fin numCores) (n : Nat) : LliuCoreIn :=
  (trace i n).coreIn k

/-- A core runs on the extractor's outputs and its own weight writes. -/
theorem uCore_trace (k : Fin numCores) (n m : Nat) :
    (trace i (n + m)).uCore k =
      coreRun vecLen hidden ((trace i n).uCore k) (fun m => coreStream i k (n + m)) m := by
  induction m with
  | zero => rfl
  | succ m ih => rw [coreRun_succ, ← ih]; rfl

/-! ## the cores in step -/

/-- All cores take the vector that is out in cycle `a`. -/
structure Taken (i : Nat → LliuTopV2In) (a : Nat) : Prop where
  valid : (trace i a).coreFeaturesValid = true
  idle : ∀ k, Idle ((trace i a).uCore k)

/-- The result is out 63 cycles after the vector is taken. -/
theorem latency_vecLen : latency vecLen = 63 := rfl

theorem Taken.result {a : Nat} (h : Taken i a) (k : Fin numCores) (m : Nat) (hm : m ≤ 63) :
    ((trace i (a + m)).uCore k).resultValid = decide (m = 63) := by
  rw [← latency_vecLen] at hm
  rw [uCore_trace, resultValid_coreRun (h.idle k) h.valid (by decide) (le_refl _) m hm, latency_vecLen]

theorem Taken.busy {a : Nat} (h : Taken i a) (k : Fin numCores) (m : Nat) (h1 : 1 ≤ m)
    (hm : m ≤ 63) : ((trace i (a + m)).uCore k).seqState ≠ .seqIdle := by
  rw [← latency_vecLen] at hm
  rw [uCore_trace]
  exact seqState_coreRun (h.idle k) h.valid (by decide) (le_refl _) m h1 hm

theorem Taken.idle_again {a : Nat} (h : Taken i a) (k : Fin numCores) :
    Idle ((trace i (a + 64)).uCore k) := by
  rw [uCore_trace]
  exact idle_coreRun (h.idle k) h.valid (by decide) (le_refl _)

/-- **Lockstep**: in every cycle the cores are all idle, or all work on the
vector taken in one cycle before. -/
theorem idle_or_taken (n : Nat) : (∀ k, Idle ((trace i n).uCore k)) ∨
    ∃ a, Taken i a ∧ a < n ∧ n ≤ a + 63 := by
  induction n with
  | zero => exact Or.inl fun _ => idle_reset
  | succ n ih =>
      rcases ih with hidle | ⟨a, ha, hlt, hle⟩
      · cases hv : (trace i n).coreFeaturesValid with
        | true => exact Or.inr ⟨n, ⟨hv, hidle⟩, by omega, by omega⟩
        | false => exact Or.inl fun k => (hidle k).step hv
      · by_cases hlast : n = a + 63
        · rw [hlast]
          exact Or.inl ha.idle_again
        · exact Or.inr ⟨a, ha, by omega, by omega⟩

/-- A valid result is that of a vector taken 63 cycles before. -/
theorem taken_of_resultValid {n : Nat} {k : Fin numCores}
    (h : ((trace i n).uCore k).resultValid = true) : ∃ a, n = a + 63 ∧ Taken i a := by
  rcases idle_or_taken (i := i) n with hidle | ⟨a, ha, hlt, hle⟩
  · simp [LliuCore.resultValid, DotProductEngine.resultValid, (hidle k).uDpe] at h
  · have hr := ha.result k (n - a) (by omega)
    rw [show a + (n - a) = n by omega, h] at hr
    have := of_decide_eq_true hr.symm
    exact ⟨a, by omega, ha⟩

/-- Vectors are taken at least 64 cycles apart. -/
theorem Taken.apart {a a' : Nat} (h : Taken i a) (h' : Taken i a') (hlt : a < a') : a + 64 ≤ a' := by
  by_contra hge
  have hbusy := h.busy 0 (a' - a) (by omega) (by omega)
  rw [show a + (a' - a) = a' by omega] at hbusy
  exact hbusy (h'.idle 0).seqState

/-- A vector that is taken is that of a message of seven cycles before. -/
theorem Taken.message {a : Nat} (h : Taken i a) :
    ∃ c, a = c + 7 ∧ (trace i c).featExtFv = true := by
  have hge : 7 ≤ a := by
    by_contra hlt
    exact Bool.false_ne_true ((coreFeaturesValid_of_lt (by omega)).symm.trans h.valid)
  obtain ⟨c, rfl⟩ := Nat.exists_eq_add_of_le' hge
  exact ⟨c, rfl, h.valid⟩

/-! ## the arbiter -/

/-- The best score belongs to the scores of three cycles before. -/
theorem best_add (n : Nat) :
    (trace i (n + 3)).uArb.best = StrategyArbiter.winner (trace i n).arbIn :=
  StrategyArbiter.best_step_step_step _ _ _ _

/-- A best score needs results. -/
theorem taken_of_bestValid {n : Nat} (h : (trace i n).uArb.bestValid = true) :
    ∃ a, n = a + 66 ∧ Taken i a := by
  match n, h with
  | 0, h | 1, h | 2, h => exact absurd h Bool.false_ne_true
  | n + 3, h =>
      rw [StrategyArbiter.bestValid, best_add, StrategyArbiter.valid_winner] at h
      obtain ⟨k, hk⟩ := h
      rw [StrategyArbiter.gatedValid, Bool.and_eq_true] at hk
      obtain ⟨a, rfl, ha⟩ := taken_of_resultValid hk.1
      exact ⟨a, rfl, ha⟩

/-- After a best score the core number falls back to zero, until the next
results. -/
theorem bestCoreId_after {a m : Nat} (h : Taken i a) (h1 : 1 ≤ m) (hm : m ≤ 63) :
    (trace i (a + 66 + m)).uArb.bestCoreId = 0 := by
  rw [show a + 66 + m = a + 63 + m + 3 by omega, StrategyArbiter.bestCoreId, best_add]
  apply StrategyArbiter.id_winner_of_none
  intro k
  rw [StrategyArbiter.gatedValid, Bool.and_eq_false_iff]
  left
  rw [Bool.eq_false_iff]
  intro hv
  obtain ⟨a', heq, ha'⟩ := taken_of_resultValid hv
  have := h.apart ha' (by omega)
  omega

/-! ## the message behind a score -/

/-- The order fields at the parser's outputs. -/
def msgFields (i : Nat → LliuTopV2In) (t : Nat) : OrderFields :=
  ⟨(trace i t).uParser.price, (trace i t).uParser.side, (trace i t).uParser.symId⟩

/-- Only `S_EMIT` changes the parser's outputs. -/
theorem msgFields_succ {t : Nat} (h : (trace i t).uParser.state ≠ .sEmit) :
    msgFields i (t + 1) = msgFields i t := by
  obtain ⟨hprice, hside, hsym, -⟩ := ItchParserV2.outputs_step h ((trace i t).parserIn (i t))
  rw [msgFields, trace_succ, step]
  simp only [hprice, hside, hsym, msgFields]

/-- The parser waits for the next message in the cycle of a pulse. -/
theorem state_of_fieldsValid {t : Nat} (h : (trace i t).uParser.fieldsValid = true) :
    (trace i t).uParser.state = .sIdle :=
  run_invariant (P := fun _ (s : LliuTopV2) => ItchParserV2.ValidInIdle s.uParser)
    ItchParserV2.validInIdle_reset (fun _ h => h.step _) t h

/-- The best score out in cycle `t + 76` is that of the message for which
`fields_valid` pulsed in cycle `t`. -/
structure Scored (i : Nat → LliuTopV2In) (t : Nat) : Prop where
  pulse : (trace i t).uParser.fieldsValid = true
  /-- It is on the watchlist and reaches the extractor. -/
  arrived : (trace i (t + 3)).featExtFv = true
  /-- Its fields are those from which the extractor computes the vector. -/
  fields : (trace i (t + 5)).uFeatExt.s05.priceS05 = (msgFields i t).price ∧
    (trace i (t + 5)).uFeatExt.s05.sideS05 = (msgFields i t).side ∧
    (trace i (t + 5)).uFeatExt.s05.symIdS05 = (msgFields i t).symId
  vector : (trace i (t + 10)).uFeatExt.features =
    FeatureExtractorV2.vectorOf (trace i (t + 5)).uFeatExt.hist (trace i (t + 5)).uFeatExt.s05
      (trace i (t + 5)).uFeatExt.localCnt (trace i (t + 9)).uFeatExt.features
  /-- All cores take the vector, and no other before their results. -/
  taken : Taken i (t + 10)
  alone : ∀ m, 1 ≤ m → m ≤ 63 → ¬ Taken i (t + 10 + m)
  /-- The results are the engines' for that vector. -/
  score : ∀ k, ((trace i (t + 73)).uCore k).result =
    mergeOver (retainedAccs vecLen) ((List.range vecLen).map fun j =>
      ((trace i (t + 10)).uFeatExt.features j, ((trace i (t + 12 + j)).uCore k).uWeightMem.mem j))
  /-- The best of them is what the arbiter gives. -/
  best : (trace i (t + 76)).uArb.best = StrategyArbiter.winner (trace i (t + 73)).arbIn
  valid : (trace i (t + 76)).uArb.bestValid = true

/-- The result of core `k` for the vector taken in cycle `a`. -/
theorem Taken.score {a : Nat} (h : Taken i a) (k : Fin numCores) :
    ((trace i (a + 63)).uCore k).result =
      mergeOver (retainedAccs vecLen) ((List.range vecLen).map fun j =>
        ((trace i a).uFeatExt.features j, ((trace i (a + 2 + j)).uCore k).uWeightMem.mem j)) := by
  rw [uCore_trace, ← latency_vecLen, result_coreRun (h.idle k) h.valid (by decide) (le_refl _)]
  refine congrArg (mergeOver (retainedAccs vecLen)) (List.map_congr_left fun j _ => ?_)
  rw [fedPair, ← uCore_trace, show a + (j + 2) = a + 2 + j by omega]
  rfl

/-- **Scoring**: every best score out of the arbiter is that of one message. -/
theorem scored_of_bestValid {n : Nat} (h : (trace i n).uArb.bestValid = true) :
    ∃ t, n = t + 76 ∧ Scored i t := by
  obtain ⟨a, rfl, ha⟩ := taken_of_bestValid h
  obtain ⟨c, rfl, harrived⟩ := ha.message
  obtain ⟨t, rfl, hpulse⟩ := fieldsValid_of_featExtFv harrived
  rw [show t + 3 + 7 = t + 10 by omega] at ha h ⊢
  have hkept : msgFields i (t + 1) = msgFields i t :=
    msgFields_succ (by rw [state_of_fieldsValid hpulse]; decide)
  have hfv : (trace i (t + 5)).uFeatExt.s05.fvS075 = true := harrived
  exact ⟨t, rfl,
    { pulse := hpulse
      arrived := harrived
      fields := by
        rw [← hkept]
        exact ⟨rfl, rfl, rfl⟩
      vector := FeatureExtractorV2.features_of_fvS075 hfv _ _ _ _ _
      taken := ha
      alone := fun m h1 hm hother => by
        have := ha.apart hother (by omega)
        omega
      score := ha.score
      best := best_add _
      valid := h }⟩

end LliuTopV2

end Lliu
