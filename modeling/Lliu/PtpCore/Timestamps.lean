import Mathlib.Algebra.Ring.Nat
import Lliu.Hdl.Run
import Lliu.PtpCore

/-!
# Lliu.PtpCore.Timestamps

The time that a stamp stands for is its epoch plus its sub-count, in cycles.

A tap latches the epoch in the cycle before the core publishes the new one, so the
epoch it holds is a period old.  From the third period on this is a constant delay, and
the stamps tell the cycles between events exactly.  In the first two periods no epoch
has reached the tap, so the time falls back by a period at the first boundary, and is a
cycle short over the second one.
-/

namespace Lliu

open Hdl

/-- A core with a tap. -/
structure PtpTap where
  ptp : PtpCore
  tap : TimestampTap

namespace PtpTap

/-- The registers after reset. -/
def reset : PtpTap where
  ptp := PtpCore.reset
  tap := TimestampTap.reset

/-- One clock edge. -/
def step (s : PtpTap) (tapEvent : Bool) : PtpTap where
  ptp := s.ptp.step
  tap := s.tap.step s.ptp tapEvent

/-- The state in cycle `n` of a run from reset. -/
def trace (tapEvent : Nat → Bool) (n : Nat) : PtpTap := run step reset tapEvent n

/-- The time of a stamp, in cycles. -/
def stampTime (t : BitVec 74) : Nat := (t.extractLsb' 10 64).toNat + (t.extractLsb' 0 10).toNat

/-- The value of the counter at the boundary before period `q`, zero before the
first one. -/
def boundary (q : Nat) : Nat := q * 1024 - 1

section Trace

variable {tapEvent : Nat → Bool} {m n : Nat}

theorem ofNat_eq_iff {w k : Nat} (n : Nat) (hk : k < 2 ^ w) :
    BitVec.ofNat w n = BitVec.ofNat w k ↔ n % 2 ^ w = k := by
  rw [← BitVec.toNat_inj, BitVec.toNat_ofNat, BitVec.toNat_ofNat, Nat.mod_eq_of_lt hk]

/-- A counter of ten bits restarts by itself. -/
theorem restart_eq (n : Nat) (h : n % 1024 = 1023) : BitVec.ofNat 10 (n + 1) = 0 :=
  (ofNat_eq_iff (k := 0) (n + 1) (by decide)).mpr (by omega)

/-- The core counts cycles and publishes the counter of the last boundary. -/
theorem ptp_trace (n : Nat) : (trace tapEvent n).ptp =
    { ptpCounterR := BitVec.ofNat 64 n
      ptpEpochR := BitVec.ofNat 64 (boundary (n / 1024))
      syncCnt := BitVec.ofNat 10 n
      ptpSyncPulse := n % 1024 == 1023 } := by
  induction n with
  | zero => rfl
  | succ n ih =>
      change (trace tapEvent n).ptp.step = _
      have hlast : BitVec.ofNat 10 n = 1023 ↔ n % 1024 = 1023 := ofNat_eq_iff n (by decide)
      have hnext : BitVec.ofNat 10 n = 1022 ↔ n % 1024 = 1022 := ofNat_eq_iff n (by decide)
      rw [ih]
      unfold PtpCore.step boundary
      simp only [hlast, PtpCore.mk.injEq]
      refine ⟨(BitVec.ofNat_add n 1).symm, ?_, ?_, ?_⟩
      · split
        · rw [show (n + 1) / 1024 * 1024 - 1 = n by omega]
        · rw [show (n + 1) / 1024 = n / 1024 by omega]
      · split
        · rename_i h
          exact (restart_eq n h).symm
        · exact (BitVec.ofNat_add n 1).symm
      · rw [Bool.eq_iff_iff, beq_iff_eq, beq_iff_eq, hnext]
        omega

/-- The tap counts the cycles of the period and holds the epoch of the period
before. -/
theorem tap_trace (n : Nat) : (trace tapEvent n).tap.localSubCnt = BitVec.ofNat 10 n ∧
    (trace tapEvent n).tap.epochLatch = BitVec.ofNat 64 (boundary (n / 1024 - 1)) := by
  induction n with
  | zero => exact ⟨rfl, rfl⟩
  | succ n ih =>
      obtain ⟨hsub, hepoch⟩ := ih
      have hpulse : (trace tapEvent n).ptp.ptpSyncPulse = true ↔ n % 1024 = 1023 := by
        rw [ptp_trace, beq_iff_eq]
      change ((trace tapEvent n).tap.step (trace tapEvent n).ptp (tapEvent n)).localSubCnt = _ ∧
        ((trace tapEvent n).tap.step (trace tapEvent n).ptp (tapEvent n)).epochLatch = _
      unfold TimestampTap.step
      simp only [hpulse, hsub, hepoch]
      constructor
      · split
        · rename_i h
          exact (restart_eq n h).symm
        · exact (BitVec.ofNat_add n 1).symm
      · split
        · rw [ptp_trace, show (n + 1) / 1024 - 1 = n / 1024 by omega]
        · rw [show (n + 1) / 1024 = n / 1024 by omega]

/-- The time of an event: the cycle of the period, and the counter at the boundary
before the last one. -/
theorem stampTime_trace (h : tapEvent n = true) :
    stampTime (trace tapEvent (n + 1)).tap.timestampOut =
      boundary (n / 1024 - 1) % 2 ^ 64 + n % 1024 := by
  have htap : (trace tapEvent n).tap.localSubCnt = BitVec.ofNat 10 n ∧
      (trace tapEvent n).tap.epochLatch = BitVec.ofNat 64 (boundary (n / 1024 - 1)) := tap_trace n
  change stampTime ((trace tapEvent n).tap.step (trace tapEvent n).ptp (tapEvent n)).timestampOut = _
  have hstamp : ∀ e : BitVec 64, ∀ c : BitVec 10, stampTime (e ++ c) = e.toNat + c.toNat := by
    intro e c
    unfold stampTime
    rw [BitVec.extractLsb'_append_eq_left, BitVec.extractLsb'_append_eq_right]
  rw [TimestampTap.step, h, if_pos rfl, hstamp, htap.1, htap.2, BitVec.toNat_ofNat, BitVec.toNat_ofNat]

/-- How often the counter had wrapped at the boundary that an event in cycle `n` is
counted from. -/
def epochWraps (n : Nat) : Nat := boundary (n / 1024 - 1) / 2 ^ 64

/-- Two cycles are in the first period, or in the second one, or after it with the
same number of wraps of the counter. -/
def Steady (m n : Nat) : Prop :=
  n < 1024 ∨ (1024 ≤ m ∧ n < 2048) ∨ (2048 ≤ m ∧ epochWraps m = epochWraps n)

/-- **Timestamps**: of two events the later one has the greater time, by the number of
cycles between them, exactly if both are in the first period, both in the second, or
both later without a wrap of the counter between. -/
theorem stampTime_sub_iff (hm : tapEvent m = true) (hn : tapEvent n = true) (h : m < n) :
    (stampTime (trace tapEvent (m + 1)).tap.timestampOut <
        stampTime (trace tapEvent (n + 1)).tap.timestampOut ∧
      stampTime (trace tapEvent (n + 1)).tap.timestampOut -
        stampTime (trace tapEvent (m + 1)).tap.timestampOut = n - m) ↔ Steady m n := by
  rw [stampTime_trace hm, stampTime_trace hn]
  unfold Steady epochWraps boundary
  omega

end Trace

/-- Events in the cycles 3000 and 5000 are 2000 cycles apart. -/
theorem stampTime_apart : stampTime (trace (fun _ => true) (5000 + 1)).tap.timestampOut -
    stampTime (trace (fun _ => true) (3000 + 1)).tap.timestampOut = 5000 - 3000 :=
  ((stampTime_sub_iff rfl rfl (by decide)).mpr (Or.inr (Or.inr ⟨by decide, by decide⟩))).2

/-- An event in the last cycle of the first period has a later time than one in the
next cycle: 1023 and 0. -/
theorem stampTime_falls : stampTime (trace (fun _ => true) 1024).tap.timestampOut = 1023 ∧
    stampTime (trace (fun _ => true) 1025).tap.timestampOut = 0 :=
  ⟨stampTime_trace rfl, stampTime_trace rfl⟩

end PtpTap

end Lliu
