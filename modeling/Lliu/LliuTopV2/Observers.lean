import Lliu.LliuTopV2

/-!
# Lliu.LliuTopV2.Observers

What only observers see: the snapshot mux, the read channel, and the latch of blocked orders,
which a read clears.  The rest of the state goes on by itself: a clock edge takes it to what it
takes it to without the observers (`trading_step`).
-/

namespace Lliu

/-- The inputs without the reads and the snapshots. -/
def LliuTopV2In.unobserved (i : LliuTopV2In) : LliuTopV2In :=
  { i with
    sAxilAraddr := 0
    sAxilArvalid := false
    sAxilRready := false
    snapReq := false
    snapReady := false }

/-- The write channel without the latch of blocked orders. -/
def Axil.unlatched (s : Axil) : Axil := { s with riskBlockedLatch := false }

namespace LliuTopV2

/-- The state without what only observers see. -/
def trading (s : LliuTopV2) : LliuTopV2 :=
  { s with
    uSnap := SnapshotMux.reset
    axil := s.axil.unlatched
    axilRead := ⟨false, false, 0⟩ }

/-- No write looks at the latch. -/
theorem unlatched_step (s : Axil) (i : LliuTopV2In) (rd rd' blocked : Bool) :
    (s.step i rd blocked).unlatched = (s.unlatched.step i.unobserved rd' blocked).unlatched := by
  have hfire : s.unlatched.fire = s.fire := rfl
  have haddr : s.unlatched.wrAddrR = s.wrAddrR := rfl
  rw [Axil.step, Axil.step, hfire, haddr]
  cases s.fire with
  | false => rfl
  | true =>
      rw [if_pos rfl, if_pos rfl]
      split
      · rfl
      · rfl

/-- **Step lemma**: reads and snapshots do not disturb the trading. -/
theorem trading_step (s : LliuTopV2) (i : LliuTopV2In) :
    (s.step i).trading = (s.trading.step i.unobserved).trading := by
  have haxil : (s.step i).axil.unlatched = (s.trading.step i.unobserved).axil.unlatched :=
    unlatched_step _ _ _ _ _
  rw [trading, trading, haxil]
  rfl

end LliuTopV2

end Lliu
