import Lliu.LatencySva
import Lliu.LliuTopV2.Latency

/-!
# Lliu.LliuTopV2.Contracts

The latency contract of the bench for `kc705_top`: a packet on the wire within 25 cycles of the first
beat behind the FIFO.  The path takes 87.  So the monitor has a complaint of every run in which a
beat is 25 cycles old, and of no other (`contract_met_iff`).
-/

namespace Lliu

namespace LliuTopV2

open Hdl OuchEngine

variable {i : Nat → LliuTopV2In}

/-- What the monitor is bound to: `fifo_rd_tvalid` is the `tvalid` of `u_lliu`. -/
def latencyPins (i : Nat → LliuTopV2In) (n : Nat) : LatencySvaIn :=
  ⟨false, (i n).sAxisTvalid, (trace i n).uOuch.mAxisTvalid⟩

/-! ## nothing is on the wire before -/

/-- An engine that is not idle took an order. -/
theorem takes_of_busy {n : Nat} (h : (trace i n).uOuch.state ≠ .sIdle) :
    ∃ a, a < n ∧ takes i a = true := by
  induction n with
  | zero => exact absurd rfl h
  | succ n ih =>
      by_cases hidle : (trace i n).uOuch.state = .sIdle
      · refine ⟨n, Nat.lt_succ_self n, ?_⟩
        by_contra htakes
        have hpass : (trace i n).uRisk.riskPass = false := by
          rw [takes, hidle] at htakes
          simpa [passes] using htakes
        exact h (step_idle _ _ hidle hpass)
      · obtain ⟨a, ha, htakes⟩ := ih hidle
        exact ⟨a, by omega, htakes⟩

/-- A packet on the wire began with a beat 85 cycles before or earlier. -/
theorem beat_of_mAxisTvalid {n : Nat} (h : (trace i n).uOuch.mAxisTvalid = true) :
    ∃ u, u + 85 ≤ n ∧ (i u).sAxisTvalid = true := by
  have hsend := (onBus_trace n).valid.mp h
  obtain ⟨a, ha, htakes⟩ := takes_of_busy (n := n) (by rw [hsend]; decide)
  obtain ⟨n, rfl, hn⟩ := bestValid_of_riskPass (Bool.and_eq_true_iff.mp htakes).1
  obtain ⟨b, rfl, hb⟩ := taken_of_bestValid hn
  obtain ⟨c, rfl, hc⟩ := hb.message
  obtain ⟨t, rfl, ht⟩ := fieldsValid_of_featExtFv hc
  obtain ⟨u, rfl, hu⟩ := completes_of_fieldsValid ht
  exact ⟨u, by omega, (Bool.and_eq_true_iff.mp hu.beat).1⟩

/-! ## the queue -/

/-- The monitor in cycle `n`. -/
def latencyMonitor (i : Nat → LliuTopV2In) (n : Nat) : LatencySva := kc705LatencySva.trace (latencyPins i) n

theorem latencyMonitor_succ (n : Nat) : latencyMonitor i (n + 1) =
    ⟨(latencyMonitor i n).cycleCount + 1, (latencyMonitor i n).popped (latencyPins i n),
      (latencyMonitor i n).latencies ++ ((latencyMonitor i n).sample (latencyPins i n)).toList⟩ :=
  @LatencySva.step_run (latencyMonitor i n) (latencyPins i n) rfl

/-- Before the first beat the queue is empty. -/
theorem pendingStarts_eq_nil {n : Nat} (h : ∀ k, k < n → (i k).sAxisTvalid = false) :
    (latencyMonitor i n).pendingStarts = [] := by
  induction n with
  | zero => rfl
  | succ n ih =>
      have hnil := LatencySva.pushed_nil (i := latencyPins i n) (ih fun k hk => h k (by omega))
        (h n (Nat.lt_succ_self n))
      rw [latencyMonitor_succ, LatencySva.popped, hnil]
      exact ite_self _

section First

variable {a : Nat} (hfirst : ∀ k, k < a → (i k).sAxisTvalid = false)

include hfirst

theorem finish_eq_false {d : Nat} (hd : d ≤ 84) : (latencyPins i (a + d)).finish = false := by
  by_contra h
  rw [Bool.not_eq_false] at h
  obtain ⟨u, hu, hvalid⟩ := beat_of_mAxisTvalid h
  rw [hfirst u (by omega)] at hvalid
  exact Bool.false_ne_true hvalid

variable (ha : (i a).sAxisTvalid = true)

include ha

/-- The first beat stays the oldest, and no packet takes it. -/
theorem head_popped {d : Nat} (hd : d ≤ 84) :
    ((latencyMonitor i (a + d)).popped (latencyPins i (a + d))).head? =
      some ((latencyMonitor i (a + d)).cycleCount - BitVec.ofNat 32 d) := by
  rw [LatencySva.popped_none (finish_eq_false hfirst hd)]
  induction d with
  | zero =>
      rw [Nat.add_zero, LatencySva.head_pushed_nil (i := latencyPins i a) (pendingStarts_eq_nil hfirst) ha,
        List.head?_cons]
      exact congrArg some (by bv_omega)
  | succ d ih =>
      have hnone := LatencySva.popped_none (s := latencyMonitor i (a + d))
        (finish_eq_false hfirst (d := d) (by omega))
      have hhead : (latencyMonitor i (a + d + 1)).pendingStarts.head? =
          some ((latencyMonitor i (a + d)).cycleCount - BitVec.ofNat 32 d) := by
        rw [latencyMonitor_succ]
        exact (congrArg List.head? hnone).trans (ih (by omega))
      rw [← Nat.add_assoc, LatencySva.head_pushed hhead, latencyMonitor_succ, BitVec.ofNat_add]
      exact congrArg some (by bv_omega)

/-- What the monitor says `d` cycles after the first beat. -/
theorem checkAll_latencyPins {d : Nat} (hd : d ≤ 84) :
    (latencyMonitor i (a + d)).checkAll 25 (latencyPins i (a + d)) =
      if 25 ≤ d then [.pending (BitVec.ofNat 32 d)] else [] := by
  have hfinish := finish_eq_false hfirst hd
  have hrst : (latencyPins i (a + d)).rst = false := rfl
  have hage : (latencyMonitor i (a + d)).cycleCount -
      ((latencyMonitor i (a + d)).cycleCount - BitVec.ofNat 32 d) = BitVec.ofNat 32 d := by bv_omega
  have hle : 25#32 ≤ BitVec.ofNat 32 d ↔ 25 ≤ d := by bv_omega
  rw [LatencySva.checkAll, if_neg (by rw [hrst]; decide), LatencySva.unmatched, hfinish,
    LatencySva.sample_none hfinish, head_popped hfirst ha hd, Option.map_some, hage]
  by_cases h25 : 25 ≤ d
  · simp [if_pos h25, hle.mpr h25]
  · simp [if_neg h25, mt hle.mp h25]

end First

/-- Before the first beat it says nothing. -/
theorem checkAll_of_none {t : Nat} (h : ∀ k, k ≤ t → (i k).sAxisTvalid = false) :
    (latencyMonitor i t).checkAll 25 (latencyPins i t) = [] := by
  have hbefore : ∀ k, k < t → (i k).sAxisTvalid = false := fun k hk => h k (Nat.le_of_lt hk)
  have hfinish : (latencyPins i t).finish = false := finish_eq_false hbefore (d := 0) (Nat.zero_le _)
  have hrst : (latencyPins i t).rst = false := rfl
  have hnil := LatencySva.pushed_nil (i := latencyPins i t) (pendingStarts_eq_nil hbefore)
    (h t (Nat.le_refl t))
  rw [LatencySva.checkAll, if_neg (by rw [hrst]; decide), LatencySva.unmatched, hfinish,
    LatencySva.sample_none hfinish, LatencySva.popped_none hfinish, hnil]
  rfl

/-- Nor as long as no beat is old. -/
theorem checkAll_of_young {t : Nat} (h : ∀ k, k + 25 ≤ t → (i k).sAxisTvalid = false) :
    (latencyMonitor i t).checkAll 25 (latencyPins i t) = [] := by
  by_cases hex : ∃ k, k ≤ t ∧ (i k).sAxisTvalid = true
  · obtain ⟨k, hk, hvalid⟩ := hex
    obtain ⟨a, hle, ha, hfirst⟩ := exists_first (f := fun k => (i k).sAxisTvalid) hvalid
    obtain ⟨d, rfl⟩ := Nat.exists_eq_add_of_le (hle.trans hk)
    have hyoung : d < 25 := by
      by_contra hold
      rw [h a (by omega)] at ha
      exact Bool.false_ne_true ha
    rw [checkAll_latencyPins hfirst ha (by omega), if_neg (by omega)]
  · exact checkAll_of_none fun k hk => Bool.eq_false_iff.mpr fun hk' => hex ⟨k, hk, hk'⟩

/-- **The contract of the second version**: the bench has no complaint just as long as no beat is
25 cycles old, and a packet is on the wire only 85 or more cycles after a beat. -/
theorem contract_met_iff (i : Nat → LliuTopV2In) (n : Nat) :
    (kc705LatencySva.report (latencyPins i) n = [] ↔ ∀ k, k + 25 < n → (i k).sAxisTvalid = false) ∧
    ((trace i n).uOuch.mAxisTvalid = true → ∃ u, u + 85 ≤ n ∧ (i u).sAxisTvalid = true) := by
  refine ⟨?_, beat_of_mAxisTvalid⟩
  rw [Monitor.report_eq_nil_iff]
  constructor
  · intro h k hk
    by_contra hvalid
    rw [Bool.not_eq_false] at hvalid
    obtain ⟨a, hle, ha, hfirst⟩ := exists_first (f := fun k => (i k).sAxisTvalid) hvalid
    have hcheck := checkAll_latencyPins hfirst ha (d := 25) (by omega)
    exact List.cons_ne_nil _ _ (hcheck.symm.trans (h (a + 25) (by omega)))
  · intro h t ht
    exact checkAll_of_young fun k hk => h k (by omega)

end LliuTopV2

end Lliu
