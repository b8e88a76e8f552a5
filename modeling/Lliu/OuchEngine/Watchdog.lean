import Lliu.Hdl.Streak
import Lliu.OuchEngine.Encoding

/-!
# Lliu.OuchEngine.Watchdog

The back-pressure watchdog.  `bp_cnt` counts the streak of stalled cycles up to 63, so
`tx_overflow` is set by the 64th.  `clr_cnt` counts, while `tx_overflow` is set, the
streak of cycles that are not stalled.  A cycle outside `S_SEND` is not stalled even if
`m_axis_tready` is low, and counts as free.
-/

namespace Lliu

namespace OuchEngine

open Hdl

/-- A beat waits for `m_axis_tready`. -/
def stalled (s : OuchEngine) (i : OuchEngineIn) : Bool := s.state == .sSend && !i.mAxisTready

/-- A cycle that the watchdog counts as free. -/
def recovering (s : OuchEngine) (i : OuchEngineIn) : Bool := s.txOverflow && !s.stalled i

/-- With `tx_overflow` set and no beat waiting, `m_axis_tready` is high. -/
def ReadyInRecovery (s : OuchEngine) (i : OuchEngineIn) : Prop :=
  s.txOverflow = true → s.stalled i = false → i.mAxisTready = true

/-! ## the counters -/

/-- The FSM does not touch the watchdog. -/
theorem watchdog_frame (s : OuchEngine) (i : OuchEngineIn) :
    (s.step i).bpCnt = (s.advance i).bpCnt ∧ (s.step i).clrCnt = (s.advance i).clrCnt ∧
      (s.step i).txOvfR = (s.advance i).txOvfR := by
  unfold step
  cases s.state with
  | sIdle =>
      simp only [stepIdle]
      split <;> exact ⟨rfl, rfl, rfl⟩
  | sFetch => exact ⟨rfl, rfl, rfl⟩
  | sLoad => exact ⟨rfl, rfl, rfl⟩
  | sSend =>
      simp only [stepSend]
      split
      · split <;> exact ⟨rfl, rfl, rfl⟩
      · exact ⟨rfl, rfl, rfl⟩

/-- What a stalled cycle does to the watchdog. -/
theorem step_of_stalled {s : OuchEngine} {i : OuchEngineIn} (h : s.stalled i = true) :
    (s.step i).bpCnt = (if s.bpCnt = BitVec.allOnes 6 then s.bpCnt else s.bpCnt + 1) ∧
      (s.step i).clrCnt = 0 ∧
      (s.step i).txOverflow = (s.txOverflow || s.bpCnt == BitVec.allOnes 6) := by
  obtain ⟨hbp, hclr, hovf⟩ := watchdog_frame s i
  have hcond : s.state = .sSend ∧ i.mAxisTready = false := by simpa [stalled] using h
  rw [txOverflow, txOverflow, hbp, hclr, hovf, advance, stepWatchdog, if_pos hcond]
  by_cases hmax : s.bpCnt = BitVec.allOnes 6
  · simp only [hmax, if_true, beq_self_eq_true, Bool.or_true, and_self]
  · simp only [hmax, if_false, beq_eq_false_iff_ne.mpr hmax, Bool.or_false, and_self]

/-- What any other cycle does to it. -/
theorem step_of_not_stalled {s : OuchEngine} {i : OuchEngineIn} (h : s.stalled i = false) :
    (s.step i).bpCnt = 0 ∧
      (s.step i).clrCnt = (if s.txOverflow then
        if s.clrCnt = BitVec.allOnes 8 then 0 else s.clrCnt + 1 else s.clrCnt) ∧
      (s.step i).txOverflow = (s.txOverflow && s.clrCnt != BitVec.allOnes 8) := by
  obtain ⟨hbp, hclr, hovf⟩ := watchdog_frame s i
  have hcond : ¬ (s.state = .sSend ∧ i.mAxisTready = false) := by simpa [stalled] using h
  rw [txOverflow, txOverflow, hbp, hclr, hovf, advance, stepWatchdog, if_neg hcond]
  cases hset : s.txOvfR with
  | false => simp
  | true =>
      by_cases hmax : s.clrCnt = BitVec.allOnes 8
      · simp only [hmax, if_true, bne_self_eq_false, Bool.and_false, and_self]
      · simp only [hmax, if_true, if_false, bne_iff_ne.mpr hmax, Bool.and_true, and_self]

/-- A counter that is not at its end counts. -/
theorem toNat_count {w : Nat} {x : BitVec (w + 1)} (h : x ≠ BitVec.allOnes (w + 1)) :
    (x + 1).toNat = x.toNat + 1 := by
  have hne : x.toNat ≠ 2 ^ (w + 1) - 1 := fun he =>
    h (BitVec.eq_of_toNat_eq (by rw [he, BitVec.toNat_allOnes]))
  have hone : (1 : BitVec (w + 1)).toNat = 1 :=
    Nat.mod_eq_of_lt (Nat.one_lt_two_pow (Nat.succ_ne_zero w))
  rw [BitVec.toNat_add_of_lt (by omega), hone]

section Run

variable {t : OuchTemplate (BitVec 7 → BitVec 32) (BitVec 7 → BitVec 64)} {i : Nat → OuchEngineIn}

/-- The cycles of a run that are stalled. -/
def stalledAt (t : OuchTemplate (BitVec 7 → BitVec 32) (BitVec 7 → BitVec 64))
    (i : Nat → OuchEngineIn) (n : Nat) : Bool := (run step (start t) i n).stalled (i n)

/-- The cycles of a run that count as free while `tx_overflow` is set. -/
def recoveringAt (t : OuchTemplate (BitVec 7 → BitVec 32) (BitVec 7 → BitVec 64))
    (i : Nat → OuchEngineIn) (n : Nat) : Bool := (run step (start t) i n).recovering (i n)

theorem recoveringAt_iff {n : Nat} : recoveringAt t i n = true ↔
    (run step (start t) i n).txOverflow = true ∧
    (run step (start t) i n).stalled (i n) = false := by
  rw [recoveringAt, recovering, Bool.and_eq_true, Bool.not_eq_true']

/-- `bp_cnt` is the streak of stalled cycles, up to 63. -/
theorem bpCnt_eq (n : Nat) :
    (run step (start t) i n).bpCnt.toNat = min 63 (streak (stalledAt t i) n) := by
  induction n with
  | zero => rfl
  | succ n ih =>
      rw [run_succ, streak_succ]
      cases hst : stalledAt t i n with
      | false => rw [(step_of_not_stalled hst).1]; rfl
      | true =>
          rw [(step_of_stalled hst).1, if_pos rfl]
          split_ifs with hmax
          · rw [hmax] at ih
            simp only [BitVec.toNat_allOnes] at ih
            rw [hmax, BitVec.toNat_allOnes]
            omega
          · have hlt := (run step (start t) i n).bpCnt.isLt
            have hne : (run step (start t) i n).bpCnt.toNat ≠ 63 := fun he =>
              hmax (BitVec.eq_of_toNat_eq he)
            rw [toNat_count hmax, ih]
            omega

/-- With `tx_overflow` set `clr_cnt` is the streak of free cycles; else it is zero. -/
theorem clrCnt_eq (n : Nat) : (run step (start t) i n).clrCnt.toNat =
    if (run step (start t) i n).txOverflow then streak (recoveringAt t i) n else 0 := by
  induction n with
  | zero => rfl
  | succ n ih =>
      have hrec : recoveringAt t i n =
          ((run step (start t) i n).txOverflow && !stalledAt t i n) := rfl
      rw [run_succ, streak_succ, hrec]
      cases hst : stalledAt t i n with
      | true =>
          rw [(step_of_stalled hst).2.1]
          simp
      | false =>
          obtain ⟨-, hclr, hovf⟩ := step_of_not_stalled hst
          rw [hclr, hovf]
          cases hset : (run step (start t) i n).txOverflow with
          | false => simp [ih, hset]
          | true =>
              rw [hset, if_pos rfl] at ih
              by_cases hmax : (run step (start t) i n).clrCnt = BitVec.allOnes 8
              · simp [hmax]
              · simp only [hmax, if_true, if_false, bne_iff_ne, ne_eq, not_false_eq_true,
                  Bool.true_and, Bool.not_false, toNat_count hmax, ih]

/-- `tx_overflow` becomes set by the 64th stalled cycle. -/
theorem sets_iff {n : Nat} (h : (run step (start t) i n).txOverflow = false) :
    (run step (start t) i (n + 1)).txOverflow = true ↔ 64 ≤ streak (stalledAt t i) (n + 1) := by
  have hbp := bpCnt_eq (t := t) (i := i) n
  rw [run_succ, streak_succ]
  cases hst : stalledAt t i n with
  | false => simp [(step_of_not_stalled hst).2.2, h]
  | true =>
      rw [(step_of_stalled hst).2.2, h, if_pos rfl, Bool.false_or, beq_iff_eq, BitVec.toNat_eq, hbp,
        BitVec.toNat_allOnes]
      omega

/-- It is cleared by the 256th free cycle. -/
theorem clears_iff {n : Nat} (h : (run step (start t) i n).txOverflow = true) :
    (run step (start t) i (n + 1)).txOverflow = false ↔
      256 ≤ streak (recoveringAt t i) (n + 1) := by
  have hclr := clrCnt_eq (t := t) (i := i) n
  have hrec : recoveringAt t i n = !stalledAt t i n := by
    change ((run step (start t) i n).txOverflow && _) = _
    rw [h, Bool.true_and]
    rfl
  rw [h, if_pos rfl] at hclr
  have hlt := (run step (start t) i n).clrCnt.isLt
  rw [run_succ, streak_succ, hrec]
  cases hst : stalledAt t i n with
  | true => simp [(step_of_stalled hst).2.2, h]
  | false =>
      rw [(step_of_not_stalled hst).2.2, h, Bool.not_false, if_pos rfl, Bool.true_and,
        bne_eq_false_iff_eq, BitVec.toNat_eq, BitVec.toNat_allOnes]
      omega

end Run

/-! ## set and cleared -/

/-- What the header of the module says of `tx_overflow`: it becomes set exactly when the
64th stalled cycle in a row completes, and is cleared only after 256 cycles in a row with
`m_axis_tready` high. -/
structure WatchdogContract (t : OuchTemplate (BitVec 7 → BitVec 32) (BitVec 7 → BitVec 64))
    (i : Nat → OuchEngineIn) : Prop where
  sets : ∀ n, (run step (start t) i n).txOverflow = false →
    ((run step (start t) i (n + 1)).txOverflow = true ↔
      63 ≤ n ∧ ∀ j, j ≤ 63 → stalledAt t i (n - j) = true)
  clears : ∀ n, (run step (start t) i n).txOverflow = true →
    (run step (start t) i (n + 1)).txOverflow = false →
      255 ≤ n ∧ ∀ j, j ≤ 255 → (i (n - j)).mAxisTready = true

/-- **Watchdog**: it keeps its contract exactly if `m_axis_tready` is high throughout every
recovery that completes, and so in every run in which it is low, with `tx_overflow` set,
only while a beat waits. -/
theorem watchdogContract_iff (t : OuchTemplate (BitVec 7 → BitVec 32) (BitVec 7 → BitVec 64))
    (i : Nat → OuchEngineIn) :
    (WatchdogContract t i ↔ ∀ n, (∀ j, j ≤ 255 → recoveringAt t i (n + j) = true) →
      ∀ j, j ≤ 255 → (i (n + j)).mAxisTready = true) ∧
    ((∀ n, ReadyInRecovery (run step (start t) i n) (i n)) → WatchdogContract t i) := by
  have hsets : ∀ n, (run step (start t) i n).txOverflow = false →
      ((run step (start t) i (n + 1)).txOverflow = true ↔
        63 ≤ n ∧ ∀ j, j ≤ 63 → stalledAt t i (n - j) = true) := fun n h =>
    (sets_iff h).trans succ_le_streak_succ
  have hiff : WatchdogContract t i ↔ ∀ n, (∀ j, j ≤ 255 → recoveringAt t i (n + j) = true) →
      ∀ j, j ≤ 255 → (i (n + j)).mAxisTready = true := by
    refine ⟨fun hw n hall j hj => ?_, fun hready => ⟨hsets, fun n hset hclr => ?_⟩⟩
    · -- a stretch of 256 free cycles ends the recovery
      have hstreak : 255 + 1 ≤ streak (recoveringAt t i) (n + 255 + 1) :=
        succ_le_streak_succ.mpr ⟨by omega, fun j hj => by
          rw [show n + 255 - j = n + (255 - j) by omega]
          exact hall _ (by omega)⟩
      have hlast : (run step (start t) i (n + 255)).txOverflow = true :=
        (recoveringAt_iff.mp (hall 255 (Nat.le_refl _))).1
      have hback := (hw.clears (n + 255) hlast ((clears_iff hlast).mpr hstreak)).2 (255 - j) (by omega)
      rwa [show n + 255 - (255 - j) = n + j by omega] at hback
    · obtain ⟨hle, hall⟩ := succ_le_streak_succ.mp ((clears_iff hset).mp hclr)
      refine ⟨hle, fun j hj => ?_⟩
      have hback := hready (n - 255) (fun j hj => by
        rw [show n - 255 + j = n - (255 - j) by omega]
        exact hall _ (by omega)) (255 - j) (by omega)
      rwa [show n - 255 + (255 - j) = n - j by omega] at hback
  refine ⟨hiff, fun hready => hiff.mpr fun n hall j hj => ?_⟩
  obtain ⟨hset, hnot⟩ := recoveringAt_iff.mp (hall j hj)
  exact hready (n + j) hset hnot

/-- An order in cycle 0; `m_axis_tready` is high for the six beats of its packet, in cycles
67 to 72, and low in all others. -/
def readyForPacket (n : Nat) : OuchEngineIn where
  riskPass := n == 0
  side := true
  price := 100
  symbolId := 0
  proposedShares := 1
  tmplWrAddr := 0
  tmplWrData := 0
  tmplWrEn := false
  mAxisTready := decide (67 ≤ n ∧ n < 73)

theorem not_watchdogContract :
    ¬ WatchdogContract ⟨fun _ => 0, fun _ => 0, fun _ => 0, fun _ => 0⟩ readyForPacket := by
  intro hw
  have hset : (run step (start ⟨fun _ => 0, fun _ => 0, fun _ => 0, fun _ => 0⟩) readyForPacket
      322).txOverflow = true := by decide +kernel
  have hclr : (run step (start ⟨fun _ => 0, fun _ => 0, fun _ => 0, fun _ => 0⟩) readyForPacket
      323).txOverflow = false := by decide +kernel
  have hlow : (readyForPacket 322).mAxisTready = false := by decide
  have hready := (hw.clears 322 hset hclr).2 0 (by omega)
  rw [hlow] at hready
  cases hready

end OuchEngine

end Lliu
