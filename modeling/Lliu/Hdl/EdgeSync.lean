import Lliu.Hdl.Stream

/-!
# Hdl.EdgeSync

A level from another clock domain, taken through two flip-flops and a rising edge
detector.  The clock edges fall anywhere: `clk n` says whether there is one at time `n`,
and `level n` is the level then.

When every change finds the last one sampled, no rise is lost and none is seen twice:
the pulses so far and the rises still on their way are the rises so far
(`EdgeSynced.count_pulses`).  Four edges after a change nothing is on its way
(`EdgeSynced.settled`).
-/

namespace Hdl

/-- The registers of the synchronizer. -/
structure EdgeSync where
  sync0 : Bool
  sync1 : Bool
  prev : Bool
  pulse : Bool

namespace EdgeSync

/-- The registers after reset. -/
def reset : EdgeSync where
  sync0 := false
  sync1 := false
  prev := false
  pulse := false

/-- One clock edge. -/
def step (s : EdgeSync) (level : Bool) : EdgeSync where
  sync0 := level
  sync1 := s.sync0
  prev := s.sync1
  pulse := s.sync1 && !s.prev

/-- The rises on their way. -/
def pending (s : EdgeSync) (level : Bool) : Nat :=
  s.pulse.toNat + (s.sync1 && !s.prev).toNat + (s.sync0 && !s.sync1).toNat +
    (level && !s.sync0).toNat

/-- The level has been there for `j` edges. -/
structure Settled (j : Nat) (s : EdgeSync) (level : Bool) : Prop where
  sync0 : 1 ≤ j → s.sync0 = level
  sync1 : 2 ≤ j → s.sync1 = level
  prev : 3 ≤ j → s.prev = level
  pulse : 4 ≤ j → s.pulse = false

variable {s : EdgeSync} {level : Bool} {i j : Nat}

theorem Settled.mono (h : Settled j s level) (hle : i ≤ j) : Settled i s level where
  sync0 hi := h.sync0 (by omega)
  sync1 hi := h.sync1 (by omega)
  prev hi := h.prev (by omega)
  pulse hi := h.pulse (by omega)

theorem Settled.zero (s : EdgeSync) (level : Bool) : Settled 0 s level where
  sync0 h := by omega
  sync1 h := by omega
  prev h := by omega
  pulse h := by omega

theorem Settled.reset : Settled 4 EdgeSync.reset false where
  sync0 _ := rfl
  sync1 _ := rfl
  prev _ := rfl
  pulse _ := rfl

theorem Settled.step (h : Settled j s level) : Settled (j + 1) (s.step level) level where
  sync0 _ := rfl
  sync1 hj := h.sync0 (by omega)
  prev hj := h.sync1 (by omega)
  pulse hj := by
    have hsync : (s.step level).pulse = (s.sync1 && !s.prev) := rfl
    rw [hsync, h.sync1 (by omega), h.prev (by omega), Bool.and_not_self]

theorem Settled.pending (h : Settled j s level) (hj : 4 ≤ j) : s.pending level = 0 := by
  rw [EdgeSync.pending, h.pulse hj, h.prev (by omega), h.sync1 (by omega), h.sync0 (by omega),
    Bool.and_not_self]
  rfl

/-- An edge passes the rises on; one more may follow. -/
theorem pending_step (s : EdgeSync) (level level' : Bool) :
    s.pulse.toNat + (s.step level).pending level' =
      s.pending level + (!level && level').toNat := by
  simp only [pending, step, Bool.and_comm (!level) level']
  omega

/-- Without an edge, a change is seen if the last level has been sampled. -/
theorem pending_change (level' : Bool) (h : level' ≠ level → s.sync0 = level) :
    s.pending level' = s.pending level + (!level && level').toNat := by
  by_cases heq : level' = level
  · rw [heq, Bool.not_and_self]
    rfl
  · rw [pending, pending, h heq, Bool.and_not_self, Bool.and_comm level']
    rfl

end EdgeSync

/-! ## runs -/

/-- The synchronizer `s` of the level `level`, with the clock edges `clk`. -/
def EdgeSynced (clk level : Nat → Bool) (s : Nat → EdgeSync) : Prop :=
  ∀ n, s (n + 1) = if clk n then (s n).step (level n) else s n

/-- The level rises. -/
def rise (level : Nat → Bool) (n : Nat) : Bool := !level n && level (n + 1)

namespace EdgeSynced

open EdgeSync

variable {clk level : Nat → Bool} {s : Nat → EdgeSync} {a j n : Nat}

/-- **Counting**: from time `a` on, the pulses and the rises on their way are the rises,
if every change finds the last one sampled. -/
theorem count_pulses (h : EdgeSynced clk level s) (hle : a ≤ n)
    (hchange : ∀ k, a ≤ k → k < n → level (k + 1) ≠ level k → (s k).sync0 = level k) :
    count (fun k => clk k && (s k).pulse) n + (s n).pending (level n) + count (rise level) a =
      count (fun k => clk k && (s k).pulse) a + (s a).pending (level a) + count (rise level) n := by
  induction n, hle using Nat.le_induction with
  | base => rfl
  | succ n hge ih =>
      have ih := ih fun k hk hlt => hchange k hk (by omega)
      rw [count_succ, count_succ, h n, rise]
      cases hclk : clk n with
      | true =>
          have hstep := pending_step (s n) (level n) (level (n + 1))
          rw [Bool.true_and, if_pos rfl]
          omega
      | false =>
          have hstep := pending_change (level (n + 1)) (hchange n hge (Nat.lt_succ_self n))
          rw [Bool.false_and, if_neg Bool.false_ne_true, Bool.toNat_false]
          omega

/-- While the level does not change, the synchronizer settles with every edge. -/
theorem settled (h : EdgeSynced clk level s) (ha : Settled j (s a) (level a)) (hle : a ≤ n)
    (hkept : ∀ k, a ≤ k → k < n → level (k + 1) = level k) :
    Settled (j + (count clk n - count clk a)) (s n) (level n) := by
  induction n, hle using Nat.le_induction with
  | base => rwa [Nat.sub_self]
  | succ n hge ih =>
      have hmono := count_mono clk hge
      have ih := ih fun k hk hlt => hkept k hk (by omega)
      rw [count_succ, h n, hkept n hge (Nat.lt_succ_self n)]
      cases hclk : clk n with
      | true =>
          rw [if_pos rfl, Bool.toNat_true, Nat.sub_add_comm hmono]
          exact ih.step
      | false =>
          rw [if_neg Bool.false_ne_true]
          exact ih

end EdgeSynced

end Hdl
