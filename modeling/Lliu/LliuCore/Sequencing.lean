import Lliu.Hdl.Stream
import Lliu.LliuCore.Inference

/-!
# Lliu.LliuCore.Sequencing

What the sequencer presents to the engine.  A core that is reset is always idle or in
the inference of the last vector it took (`idle_or_busy`); in an inference the elements
come in a row, each with the weight read for it, and nothing comes after them.
-/

namespace Lliu

namespace LliuCore

open Hdl DotProductEngine

/-- The pair presented to the engine with `feature_valid`. -/
def presented (s : LliuCore) : Option (Bfloat16T × Bfloat16T) :=
  if s.dpFeatureValid then some (s.dpFeatureIn, s.uWeightMem.rdData) else none

section Inference

variable {vecLen hidden : Nat} {s : LliuCore} {i : Nat → LliuCoreIn}

/-- After the last element the sequencer presents nothing. -/
theorem dpFeatureValid_of_wait (h : s.seqState = .seqWait) (j : LliuCoreIn) :
    (s.step vecLen hidden j).dpFeatureValid = false := by
  rw [step, h]
  simp only
  split <;> rfl

/-- An idle core presents nothing in the cycle after. -/
theorem dpFeatureValid_of_idle (h : s.seqState = .seqIdle) (j : LliuCoreIn) :
    (s.step vecLen hidden j).dpFeatureValid = false := by
  rw [step, h]
  simp only [stepIdle]
  split <;> rfl

/-- `feature_valid` is high in `vecLen` cycles in a row, from cycle 3 on. -/
theorem dpFeatureValid_coreRun (h : Idle s) (hv : (i 0).featuresValid = true) (hV : 1 ≤ vecLen)
    (hle : vecLen ≤ hidden) (n : Nat) (h1 : 1 ≤ n) (hn : n ≤ latency vecLen + 1) :
    (coreRun vecLen hidden s i n).dpFeatureValid = decide (3 ≤ n ∧ n < 3 + vecLen) := by
  match n, h1 with
  | 1, _ => simp [coreRun_succ, dpFeatureValid_of_idle (s := coreRun vecLen hidden s i 0) h.seqState]
  | n + 2, _ =>
      by_cases hfeed : n ≤ vecLen
      · have hvalid := featureValid_fedStream h hv hV hle n hfeed
        exact hvalid.trans (decide_eq_decide.mpr (by omega))
      · -- the cycle before was in `SEQ_WAIT`
        obtain ⟨m, rfl⟩ : ∃ m, n = m + 1 := ⟨n - 1, by omega⟩
        rw [latency] at hn
        have hwait := coreRun_wait h hv hV hle m (by omega) (by omega)
        rw [show m + 1 + 2 = m + 2 + 1 by omega, coreRun_succ, dpFeatureValid_of_wait hwait]
        exact (decide_eq_false (by omega)).symm

/-- The pairs presented are the elements in order, each with the weight read for it. -/
theorem presented_coreRun (h : Idle s) (hv : (i 0).featuresValid = true) (hV : 1 ≤ vecLen)
    (hle : vecLen ≤ hidden) (n : Nat) (hn : n ≤ latency vecLen) :
    presented (coreRun vecLen hidden s i (n + 1)) =
      if 2 ≤ n ∧ n < 2 + vecLen then some (fedPair vecLen hidden s i (n - 2)) else none := by
  have hvalid := dpFeatureValid_coreRun h hv hV hle (n + 1) (by omega) (by omega)
  rw [presented, hvalid]
  by_cases hin : 2 ≤ n ∧ n < 2 + vecLen
  · rw [if_pos hin, if_pos (decide_eq_true (by omega))]
    have hpair := pair_fedStream h hv hV hle (n - 2) (by omega)
    rw [fedStream, show n - 2 + 1 + 2 = n + 1 by omega] at hpair
    rw [← hpair]
    rfl
  · rw [if_neg hin, if_neg (by simp only [decide_eq_true_eq]; omega)]

end Inference

/-! ## runs from reset -/

section Run

variable {vecLen hidden : Nat} {w : Nat → Bfloat16T} {i : Nat → LliuCoreIn}

/-- The registers after reset, with the weights `w`. -/
def start (w : Nat → Bfloat16T) : LliuCore :=
  { reset with uWeightMem := { WeightMem.reset with mem := w } }

/-- The registers in cycle `n` of a run from reset. -/
def trace (vecLen hidden : Nat) (w : Nat → Bfloat16T) (i : Nat → LliuCoreIn) (n : Nat) : LliuCore :=
  coreRun vecLen hidden (start w) i n

/-- From cycle `a` on the run is that of a core in the state of cycle `a`. -/
theorem trace_add (a n : Nat) : trace vecLen hidden w i (a + n) =
    coreRun vecLen hidden (trace vecLen hidden w i a) (fun m => i (a + m)) n :=
  run_add a n

/-- A core is idle, or in the inference of the vector it took last. -/
theorem idle_or_busy (hV : 1 ≤ vecLen) (hle : vecLen ≤ hidden) (n : Nat) :
    Idle (trace vecLen hidden w i n) ∨ ∃ a m, n = a + m ∧ 1 ≤ m ∧ m ≤ latency vecLen ∧
      Idle (trace vecLen hidden w i a) ∧ (i a).featuresValid = true := by
  induction n with
  | zero => exact .inl ⟨rfl, rfl, rfl⟩
  | succ n ih =>
      obtain hidle | ⟨a, m, rfl, h1, hm, hidle, hv⟩ := ih
      · cases hv : (i n).featuresValid with
        | false => exact .inl (hidle.step hv)
        | true => exact .inr ⟨n, 1, rfl, Nat.le_refl 1, by rw [latency]; omega, hidle, hv⟩
      · by_cases hlast : m = latency vecLen
        · rw [hlast, Nat.add_assoc, trace_add]
          exact .inl (idle_coreRun hidle hv hV hle)
        · exact .inr ⟨a, m + 1, by omega, by omega, by omega, hidle, hv⟩

/-- A sequencer in `SEQ_IDLE` belongs to an idle core. -/
theorem idle_of_seqIdle (hV : 1 ≤ vecLen) (hle : vecLen ≤ hidden) {n : Nat}
    (h : (trace vecLen hidden w i n).seqState = .seqIdle) : Idle (trace vecLen hidden w i n) := by
  obtain hidle | ⟨a, m, rfl, h1, hm, hidle, hv⟩ := idle_or_busy hV hle n
  · exact hidle
  · rw [trace_add] at h
    exact absurd h (seqState_coreRun (i := fun m => i (a + m)) hidle hv hV hle m h1 hm)

/-- **Sequencing**: of a vector taken in cycle `a` the core presents the elements in order,
each with the weight in memory at the edge that reads it, and nothing else until it takes
the next; there is one result, after the last element, and no vector is taken before. -/
theorem presents_vector (k : Nat) (w : Nat → Bfloat16T) (i : Nat → LliuCoreIn) (a : Nat)
    (hidle : (trace (2 ^ k) (2 ^ k) w i a).seqState = .seqIdle)
    (hv : (i a).featuresValid = true) :
    ∃ r, a + 2 ^ k + 2 < r ∧
      collect (fun n => presented (trace (2 ^ k) (2 ^ k) w i (a + 1 + n))) (r - a) =
        (List.range (2 ^ k)).map (fun e =>
          ((i a).features e, (trace (2 ^ k) (2 ^ k) w i (a + 2 + e)).uWeightMem.mem e)) ∧
      (∀ n, a + 2 ^ k + 2 < n → n ≤ r + 1 → presented (trace (2 ^ k) (2 ^ k) w i n) = none) ∧
      (∀ n, a < n → n ≤ r →
        (trace (2 ^ k) (2 ^ k) w i n).resultValid = decide (n = r) ∧
        (trace (2 ^ k) (2 ^ k) w i n).seqState ≠ .seqIdle) ∧
      (trace (2 ^ k) (2 ^ k) w i (r + 1)).seqState = .seqIdle ∧
      (trace (2 ^ k) (2 ^ k) w i (r + 1)).resultValid = false := by
  have hV : 1 ≤ 2 ^ k := Nat.one_le_two_pow
  have hI := idle_of_seqIdle hV (Nat.le_refl _) hidle
  have hshift : ∀ n, trace (2 ^ k) (2 ^ k) w i (a + n) =
      coreRun (2 ^ k) (2 ^ k) (trace (2 ^ k) (2 ^ k) w i a) (fun m => i (a + m)) n :=
    fun n => trace_add a n
  have hpres : ∀ n, n ≤ latency (2 ^ k) → presented (trace (2 ^ k) (2 ^ k) w i (a + 1 + n)) =
      if 2 ≤ n ∧ n < 2 + 2 ^ k then
        some ((i a).features (n - 2),
          (trace (2 ^ k) (2 ^ k) w i (a + 2 + (n - 2))).uWeightMem.mem (n - 2))
      else none := by
    intro n hn
    rw [show a + 1 + n = a + (n + 1) by omega, show a + 2 + (n - 2) = a + (n - 2 + 2) by omega,
      hshift, hshift]
    exact presented_coreRun (i := fun m => i (a + m)) hI hv hV (Nat.le_refl _) n hn
  have hlong : 2 ^ k + 2 < latency (2 ^ k) := by rw [latency, resultCycle]; omega
  have hafter := idle_coreRun (i := fun m => i (a + m)) hI hv hV (Nat.le_refl _)
  rw [← hshift] at hafter
  refine ⟨a + latency (2 ^ k), by omega, ?_, ?_, ?_, hafter.seqState, ?_⟩
  · rw [Nat.add_sub_cancel_left, collect_congr fun n hn => hpres n (by omega)]
    have hwindow := collect_window (fun e => ((i a).features e,
      (trace (2 ^ k) (2 ^ k) w i (a + 2 + e)).uWeightMem.mem e)) 2 (2 ^ k) (latency (2 ^ k))
    rwa [show min (latency (2 ^ k) - 2) (2 ^ k) = 2 ^ k by omega] at hwindow
  · intro n hn hle
    obtain ⟨m, rfl⟩ : ∃ m, n = a + 1 + m := ⟨n - (a + 1), by omega⟩
    rw [hpres m (by omega), if_neg (by omega)]
  · intro n hn hle
    obtain ⟨m, rfl⟩ : ∃ m, n = a + m := ⟨n - a, by omega⟩
    rw [hshift]
    have hle' : m ≤ latency (2 ^ k) := by omega
    constructor
    · rw [resultValid_coreRun (i := fun m => i (a + m)) hI hv hV (Nat.le_refl _) m hle']
      exact decide_eq_decide.mpr (by omega)
    · exact seqState_coreRun (i := fun m => i (a + m)) hI hv hV (Nat.le_refl _) m (by omega) hle'
  · rw [resultValid, DotProductEngine.resultValid, Nat.add_assoc, hafter.uDpe]
    rfl

/-- The features 1 to 4 in the first cycle, and others offered ever after.  The last weight becomes 9
before it is read. -/
def firstVector (n : Nat) : LliuCoreIn where
  features e := if n = 0 then [0x3F80, 0x4000, 0x4040, 0x4080].getD e 0 else 0x7F7F
  featuresValid := true
  wgtWrAddr := 3
  wgtWrData := 0x4110
  wgtWrEn := n == 2

/-- The weights 5 to 8. -/
def fiveToEight (e : Nat) : Bfloat16T := [0x40A0, 0x40C0, 0x40E0, 0x4100].getD e 0

/-- A core for four elements presents the first vector, each feature with its weight, and gives one
result. -/
theorem presents_first_vector :
    ∃ r, 0 + 2 ^ 2 + 2 < r ∧
      collect (fun n => presented (trace (2 ^ 2) (2 ^ 2) fiveToEight firstVector (0 + 1 + n))) (r - 0) =
        [(0x3F80, 0x40A0), (0x4000, 0x40C0), (0x4040, 0x40E0), (0x4080, 0x4110)] ∧
      (∀ n, 0 + 2 ^ 2 + 2 < n → n ≤ r + 1 → presented (trace (2 ^ 2) (2 ^ 2) fiveToEight firstVector n) = none) ∧
      (∀ n, 0 < n → n ≤ r →
        (trace (2 ^ 2) (2 ^ 2) fiveToEight firstVector n).resultValid = decide (n = r) ∧
        (trace (2 ^ 2) (2 ^ 2) fiveToEight firstVector n).seqState ≠ .seqIdle) ∧
      (trace (2 ^ 2) (2 ^ 2) fiveToEight firstVector (r + 1)).seqState = .seqIdle ∧
      (trace (2 ^ 2) (2 ^ 2) fiveToEight firstVector (r + 1)).resultValid = false := by
  obtain ⟨r, hlt, hpairs, hrest⟩ := presents_vector 2 fiveToEight firstVector 0 rfl rfl
  exact ⟨r, hlt, hpairs.trans (by decide +kernel), hrest⟩

end Run

end LliuCore

end Lliu
