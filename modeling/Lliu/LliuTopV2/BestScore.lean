import Lliu.Hdl.BinaryFloat
import Lliu.LliuTopV2.Packets

/-!
# Lliu.LliuTopV2.BestScore

The best score as a number.  The arbiter compares the bit patterns of scores and
threshold as unsigned integers, which is right for numbers without a sign.  Scores
have one: a negative score is above every threshold without a sign and beats every
score without one.  An order goes out for the best number exactly when no score with
a sign passes the gate, or all scores are equal to the threshold
(`best_real_score_iff`).
-/

namespace Lliu

open Hdl

/-- The number of a `float32_t`. -/
def toReal (s : Float32T) : ℚ := BinaryFloat.value 23 127 s

/-- It has one unless its exponent is all ones. -/
def IsFinite (s : Float32T) : Prop := s.extractLsb' 23 8 ≠ 0xFF#8

instance (s : Float32T) : Decidable (IsFinite s) := inferInstanceAs (Decidable (_ ≠ _))

namespace StrategyArbiter

variable {i : StrategyArbiterIn}

/-- Core `k` has the best number among those that reach the threshold. -/
def HasBest (i : StrategyArbiterIn) (k : Fin numCores) : Prop :=
  toReal i.scoreThresh ≤ toReal (i.coreScores k) ∧
    ∀ j, toReal i.scoreThresh ≤ toReal (i.coreScores j) →
      toReal (i.coreScores j) ≤ toReal (i.coreScores k)

/-- No score with a sign passes the gate. -/
def SignsGated (i : StrategyArbiterIn) : Prop :=
  ∀ k, (i.coreScores k).msb = true → i.coreScores k < i.scoreThresh

/-- All scores are equal to the threshold. -/
def AllAtThresh (i : StrategyArbiterIn) : Prop :=
  ∀ k, toReal (i.coreScores k) = toReal i.scoreThresh

theorem toReal_le {a b : Float32T} :
    toReal a ≤ toReal b ↔ BinaryFloat.units 23 a ≤ BinaryFloat.units 23 b :=
  BinaryFloat.value_le_value

/-- Core `k` has the greatest pattern among those that reach the threshold. -/
structure HasGreatest (i : StrategyArbiterIn) (k : Fin numCores) : Prop where
  ge : i.scoreThresh ≤ i.coreScores k
  max : ∀ j, i.scoreThresh ≤ i.coreScores j → i.coreScores j ≤ i.coreScores k

theorem msb_of_le {a b : Float32T} (h : a ≤ b) (hb : b.msb = false) : a.msb = false :=
  Bool.eq_false_iff.mpr fun ha => absurd h (BitVec.not_le.mpr (BinaryFloat.lt_of_msb hb ha))

/-- When no score with a sign passes the gate, patterns are as good as numbers. -/
theorem hasBest_of_signsGated {k : Fin numCores} (h : HasGreatest i k) (hs : SignsGated i) :
    HasBest i k := by
  have hk : (i.coreScores k).msb = false := Bool.eq_false_iff.mpr fun hneg =>
    absurd h.ge (BitVec.not_le.mpr (hs k hneg))
  have ht : i.scoreThresh.msb = false := msb_of_le h.ge hk
  refine ⟨toReal_le.mpr ((BinaryFloat.units_le_units_of_pos ht hk).mpr h.ge), fun j hj => ?_⟩
  rw [toReal_le] at hj ⊢
  cases hsign : (i.coreScores j).msb with
  | false =>
      have hgate := (BinaryFloat.units_le_units_of_pos ht hsign).mp hj
      exact (BinaryFloat.units_le_units_of_pos hsign hk).mpr (h.max j hgate)
  | true => exact (BinaryFloat.units_nonpos hsign).trans (BinaryFloat.units_nonneg hk)

/-- When a score with a sign passes the gate, the greatest pattern is the best number
only if there is nothing to choose. -/
theorem allAtThresh_of_hasBest {k j : Fin numCores} (h : HasGreatest i k) (hbest : HasBest i k)
    (hj : (i.coreScores j).msb = true) (hgate : i.scoreThresh ≤ i.coreScores j) : AllAtThresh i := by
  obtain ⟨hge, hmax⟩ := hbest
  rw [toReal_le] at hge
  have hk : (i.coreScores k).msb = true := by
    by_contra hpos
    rw [Bool.not_eq_true] at hpos
    rw [msb_of_le (h.max j hgate) hpos] at hj
    cases hj
  have hk0 := BinaryFloat.units_nonpos (m := 23) hk
  -- the best score is at the threshold
  have heq : BinaryFloat.units 23 (i.coreScores k) = BinaryFloat.units 23 i.scoreThresh := by
    cases ht : i.scoreThresh.msb with
    | true => exact le_antisymm ((BinaryFloat.units_le_units_of_neg hk ht).mpr h.ge) hge
    | false =>
        have ht0 := BinaryFloat.units_nonneg (m := 23) ht
        omega
  intro j'
  have hle : BinaryFloat.units 23 i.scoreThresh ≤ BinaryFloat.units 23 (i.coreScores j') := by
    cases hsign : (i.coreScores j').msb with
    | false =>
        have := BinaryFloat.units_nonneg (m := 23) hsign
        omega
    | true =>
        by_cases hg : i.scoreThresh ≤ i.coreScores j'
        · rw [← heq]
          exact (BinaryFloat.units_le_units_of_neg hk hsign).mpr (h.max j' hg)
        · rw [BitVec.not_le] at hg
          have ht : i.scoreThresh.msb = true := by
            by_contra hpos
            rw [Bool.not_eq_true] at hpos
            rw [msb_of_le (BitVec.le_of_lt hg) hpos] at hsign
            cases hsign
          exact (BinaryFloat.units_le_units_of_neg ht hsign).mpr (BitVec.le_of_lt hg)
  have hup := hmax j' (toReal_le.mpr hle)
  rw [toReal_le] at hup
  exact BinaryFloat.value_eq_value.mpr (by omega)

/-- The greatest pattern is the best number if and only if no score with a sign passes
the gate, or all scores are equal to the threshold. -/
theorem hasBest_iff {k : Fin numCores} (h : HasGreatest i k) :
    HasBest i k ↔ SignsGated i ∨ AllAtThresh i := by
  constructor
  · intro hbest
    by_cases hs : SignsGated i
    · exact Or.inl hs
    · simp only [SignsGated, not_forall, BitVec.not_lt] at hs
      obtain ⟨j, hj, hgate⟩ := hs
      exact Or.inr (allAtThresh_of_hasBest h hbest hj hgate)
  · rintro (hs | hall)
    · exact hasBest_of_signsGated h hs
    · exact ⟨(hall k).ge, fun j _ => by rw [hall j, hall k]⟩

/-- With all results out, the winner has the greatest pattern. -/
theorem hasGreatest_of_winner (hall : ∀ k, i.coreValids k = true) (h : (winner i).valid = true) :
    ∃ k, (winner i).id = BitVec.ofNat 3 k.val ∧ HasGreatest i k := by
  have hgate : ∀ k, gatedValid i k = true ↔ i.scoreThresh ≤ i.coreScores k := fun k => by
    rw [gatedValid, hall, Bool.true_and, decide_eq_true_eq]
  obtain ⟨hbest, hle⟩ := bestOf_winner i
  obtain ⟨k, -, hk, hscore, hid⟩ := hbest h
  refine ⟨k, hid, (hgate k).mp hk, fun j hj => ?_⟩
  rw [← hscore]
  exact (hle j (List.mem_finRange j) ((hgate j).mpr hj)).2

theorem coreId_inj {k j : Fin numCores} (h : BitVec.ofNat 3 k.val = BitVec.ofNat 3 j.val) : k = j := by
  have hk := k.isLt
  have hj := j.isLt
  exact Fin.ext ((ofNat_inj_of_lt hk hj).mp h)

end StrategyArbiter

namespace LliuTopV2

open StrategyArbiter

variable {i : Nat → LliuTopV2In}

/-- The scores behind the order that the OUCH engine takes in cycle `a`. -/
def scoresOf (i : Nat → LliuTopV2In) (a : Nat) : StrategyArbiterIn := (trace i (a - 9)).arbIn

/-- Scores and threshold are numbers. -/
def FiniteScores (i : StrategyArbiterIn) : Prop :=
  (∀ k, IsFinite (i.coreScores k)) ∧ IsFinite i.scoreThresh

/-- The order taken in cycle `a` is for the core with the best number among those that
reach the threshold. -/
def FiresBest (i : Nat → LliuTopV2In) (a : Nat) : Prop :=
  ∃ k : Fin numCores, (trace i (a - 6)).uArb.bestCoreId = BitVec.ofNat 3 k.val ∧
    HasBest (scoresOf i a) k

/-- An order goes out for the core with the greatest pattern. -/
theorem hasGreatest_of_takes {a : Nat} (h : takes i a = true) :
    ∃ k : Fin numCores, (trace i (a - 6)).uArb.bestCoreId = BitVec.ofNat 3 k.val ∧
      HasGreatest (scoresOf i a) k := by
  obtain ⟨n, rfl, hvalid⟩ := bestValid_of_riskPass (Bool.and_eq_true_iff.mp h).1
  obtain ⟨c, rfl, hc⟩ := taken_of_bestValid hvalid
  have hbest : (trace i (c + 66)).uArb.best = winner (trace i (c + 63)).arbIn := best_add (c + 63)
  have hall : ∀ k, (trace i (c + 63)).arbIn.coreValids k = true := fun k =>
    (hc.result k 63 (le_refl 63)).trans (decide_eq_true rfl)
  rw [StrategyArbiter.bestValid, hbest] at hvalid
  obtain ⟨k, hid, hk⟩ := hasGreatest_of_winner hall hvalid
  refine ⟨k, ?_, ?_⟩
  · rw [Nat.add_sub_cancel, StrategyArbiter.bestCoreId, hbest, hid]
  · rwa [scoresOf, show c + 66 + 6 - 9 = c + 63 by omega]

/-- **Best score**: every order with finite scores goes out for the best number if and
only if for every one no score with a sign passes the gate, or all scores are equal to
the threshold. -/
theorem best_real_score_iff (i : Nat → LliuTopV2In) :
    (∀ a, takes i a = true → FiniteScores (scoresOf i a) → FiresBest i a) ↔
      ∀ a, takes i a = true → FiniteScores (scoresOf i a) →
        SignsGated (scoresOf i a) ∨ AllAtThresh (scoresOf i a) := by
  refine forall_congr' fun a => forall_congr' fun h => forall_congr' fun _ => ?_
  obtain ⟨k, hid, hk⟩ := hasGreatest_of_takes h
  rw [← hasBest_iff hk]
  constructor
  · rintro ⟨j, hj, hbest⟩
    rwa [coreId_inj (hid.symm.trans hj)]
  · exact fun hbest => ⟨k, hid, hbest⟩

/-- A watched sell order, and a weight of 1 for the side of an order in core 1. -/
def negativeBest : Nat → LliuTopV2In :=
  Schedule.inputs
    { axis := quotes ++ frameAt 40 (addFrame 3 sell 10 990 aapl)
      axil := watchAapl ++ [(8, 0x884#12, 0x3F80#32)] }

/-- The score of core 1 is -1, that of core 0 is 0: core 1 fires at a threshold of 0. -/
theorem negative_score_fires : takes negativeBest 128 = true ∧
    (trace negativeBest 122).uArb.bestCoreId = 1 ∧
    toReal ((scoresOf negativeBest 128).coreScores 1) = -1 ∧
    toReal ((scoresOf negativeBest 128).coreScores 0) = 0 ∧
    toReal (scoresOf negativeBest 128).scoreThresh = 0 ∧
    FiniteScores (scoresOf negativeBest 128) ∧ ¬ FiresBest negativeBest 128 := by
  have hrun : (takes negativeBest 128 = true ∧ (trace negativeBest 122).uArb.bestCoreId = 1) ∧
      (scoresOf negativeBest 128).coreScores 1 = 0xBF800000#32 ∧
      (∀ k, k ≠ 1 → (scoresOf negativeBest 128).coreScores k = 0) ∧
      (scoresOf negativeBest 128).scoreThresh = 0 := by decide +kernel
  obtain ⟨⟨htake, hid⟩, hone, hzero, hthresh⟩ := hrun
  have hneg : toReal 0xBF800000#32 = -1 := by
    rw [toReal, BinaryFloat.value, show BinaryFloat.units 23 0xBF800000#32 = -2 ^ 149 by decide +kernel]
    norm_num
  have hnil : toReal 0 = 0 := by
    rw [toReal, BinaryFloat.value, show BinaryFloat.units 23 (0 : Float32T) = 0 by decide +kernel]
    norm_num
  refine ⟨htake, hid, by rw [hone, hneg], by rw [hzero 0 (by decide), hnil], by rw [hthresh, hnil],
    ⟨fun k => ?_, ?_⟩, ?_⟩
  · by_cases hk : k = 1
    · rw [hk, hone]
      decide
    · rw [hzero k hk]
      decide
  · rw [hthresh]
    decide
  · rintro ⟨k, hk, hge, -⟩
    obtain rfl : k = 1 := coreId_inj (hk.symm.trans hid)
    rw [hthresh, hone, hneg, hnil] at hge
    norm_num at hge

end LliuTopV2

end Lliu
