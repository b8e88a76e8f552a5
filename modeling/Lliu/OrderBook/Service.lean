import Lliu.OrderBook.Exec

/-!
# Lliu.OrderBook.Service

How long the book is busy with a message.  Each slot of the reference table that the
search looks at takes four cycles; a message that goes on to the levels takes five more, a
replace six, and one that is dropped takes one.  So the time depends on the message and on
the book it finds (`Book.service`), and `book_ready` is low for exactly that time
(`busy_service`, `ready_service`).
-/

namespace Lliu

open Hdl

namespace Book

/-- The slots that the search for a message looks at. -/
def probes (b : Book) (m : BookMsg) : Nat :=
  match b.lookup m.orderRef with
  | .hit p | .vacant p => p + 1
  | .full => obMaxProbe + 1

/-- The second table write of a replace. -/
def extraWrite (m : BookMsg) : Nat := if bookOp m.msgType = some .replace then 1 else 0

/-- The cycles from the end of the search on. -/
def afterSearch (b : Book) (m : BookMsg) : Nat :=
  if b.resolve m = none then 1 else 5 + extraWrite m

/-- The cycles for which the book is busy with a message. -/
def service (b : Book) (m : BookMsg) : Nat := 4 * b.probes m + b.afterSearch m

variable {b : Book} {m : BookMsg} {n : Nat}

theorem extraWrite_le (m : BookMsg) : extraWrite m ≤ 1 := by
  unfold extraWrite
  split <;> decide

/-- The search looks at one slot at least and at five at most. -/
theorem probes_bounds (b : Book) (m : BookMsg) : 1 ≤ b.probes m ∧ b.probes m ≤ obMaxProbe + 1 := by
  rw [probes]
  cases h : b.lookup m.orderRef with
  | hit p => exact ⟨Nat.succ_le_succ (Nat.zero_le p), (find_hit_iff.mp h).1⟩
  | vacant p => exact ⟨Nat.succ_le_succ (Nat.zero_le p), (find_vacant_iff.mp h).1⟩
  | full => exact ⟨by decide, le_refl _⟩

/-- It goes on beyond slots of other orders. -/
theorem lt_probes (hn : n ≤ obMaxProbe)
    (hb : ∀ q, q < n → Blocked (fun p => b.keyAt (refSlot m.orderRef p)) m.orderRef q) :
    n < b.probes m := by
  have hend : ∀ p, ¬ Blocked (fun p => b.keyAt (refSlot m.orderRef p)) m.orderRef p → n < p + 1 :=
    fun p hp => Nat.lt_succ_of_le (Nat.le_of_not_lt fun hlt => hp (hb p hlt))
  rw [probes]
  cases h : b.lookup m.orderRef with
  | hit p => exact hend p fun hblocked => hblocked.2 (find_hit_iff.mp h).2.1
  | vacant p => exact hend p fun hblocked => hblocked.1 (find_vacant_iff.mp h).2.1
  | full => exact Nat.lt_succ_of_le hn

/-- A message takes between five and 26 cycles. -/
theorem service_bounds (b : Book) (m : BookMsg) : 5 ≤ b.service m ∧ b.service m ≤ 26 := by
  have hprobes := b.probes_bounds m
  have hextra := extraWrite_le m
  rw [obMaxProbe] at hprobes
  rw [service, afterSearch]
  split <;> omega

end Book

namespace OrderBook

/-- The cycles until the book is ready again. -/
def remaining (b : Book) (m : BookMsg) (s : OrderBook) : Nat :=
  match s.state with
  | .sIdle => 0
  | .sDone => 1
  | .sUpdate2 => 2
  | .sUpdate => 2 + Book.extraWrite m
  | .sScanBook3 => 3 + Book.extraWrite m
  | .sScanBook2 => 4 + Book.extraWrite m
  | .sScanBook => 5 + Book.extraWrite m
  | .sMatch => 1 + 4 * (b.probes m - 1 - s.probeCnt.toNat) + b.afterSearch m
  | .sProcess => 2 + 4 * (b.probes m - 1 - s.probeCnt.toNat) + b.afterSearch m
  | .sReadRef2 => 3 + 4 * (b.probes m - 1 - s.probeCnt.toNat) + b.afterSearch m
  | .sReadRef1 => 4 + 4 * (b.probes m - 1 - s.probeCnt.toNat) + b.afterSearch m

section Step

variable {b : Book} {m : BookMsg} {s : OrderBook} {i : OrderBookIn} {p : Nat}

/-- The states of one probe follow each other. -/
theorem remaining_read (hs : s.state = .sReadRef1 ∨ s.state = .sReadRef2 ∨ s.state = .sProcess) :
    remaining b m (s.step i) + 1 = remaining b m s := by
  rcases hs with hs | hs | hs
  · have hst : (s.step i).state = .sReadRef2 := by simp [OrderBook.step, hs]
    have hcnt : (s.step i).probeCnt = s.probeCnt := by simp [OrderBook.step, hs, advance]
    simp only [remaining, hs, hst, hcnt]
    omega
  · have hst : (s.step i).state = .sProcess := by simp [OrderBook.step, hs]
    have hcnt : (s.step i).probeCnt = s.probeCnt := by simp [OrderBook.step, hs, advance]
    simp only [remaining, hs, hst, hcnt]
    omega
  · have hst : (s.step i).state = .sMatch := by simp [OrderBook.step, hs, stepProcess]
    have hcnt : (s.step i).probeCnt = s.probeCnt := by simp [OrderBook.step, hs, stepProcess, advance]
    simp only [remaining, hs, hst, hcnt]
    omega

/-- So do those of the update. -/
theorem remaining_scan (hs : s.state = .sScanBook ∨ s.state = .sScanBook2 ∨ s.state = .sScanBook3) :
    remaining b m (s.step i) + 1 = remaining b m s := by
  rcases hs with hs | hs | hs
  · have hst : (s.step i).state = .sScanBook2 := by simp [OrderBook.step, hs, stepScanBook]
    simp only [remaining, hs, hst]
    omega
  · have hst : (s.step i).state = .sScanBook3 := by simp [OrderBook.step, hs, stepScanBook2]
    simp only [remaining, hs, hst]
    omega
  · have hst : (s.step i).state = .sUpdate := by simp [OrderBook.step, hs, stepScanBook3]
    simp only [remaining, hs, hst]
    omega

/-- The last slot that the search looks at. -/
theorem remaining_last (hs : s.state = .sMatch) (h : Probing b m p s) (hlast : b.probes m = p + 1) :
    remaining b m s = 1 + b.afterSearch m := by
  simp only [remaining, hs, h.toNat_cnt, hlast]
  omega

theorem remaining_matching (hs : s.state = .sMatch) (h : Probing b m p s)
    (hempty : s.refEmptyR = !(b.refMem (refSlot m.orderRef p)).valid)
    (hmatch : s.refMatchR = ((b.refMem (refSlot m.orderRef p)).valid &&
      (b.refMem (refSlot m.orderRef p)).orderRef == m.orderRef)) :
    remaining b m (s.step i) + 1 = remaining b m s := by
  have hadd := h.isAdd
  have hcnt := h.cnt_eq_iff
  -- the search ends here, and goes on to the levels or drops the message
  have hend : b.probes m = p + 1 → (s.step i).state = (if b.resolve m = none then .sDone else .sScanBook) →
      remaining b m (s.step i) + 1 = remaining b m s := fun hlast hst => by
    rw [remaining_last hs h hlast, Book.afterSearch]
    by_cases hres : b.resolve m = none
    · rw [if_pos hres] at hst ⊢
      simp only [remaining, hst]
    · rw [if_neg hres] at hst ⊢
      simp only [remaining, hst]
      omega
  cases hv : (b.refMem (refSlot m.orderRef p)).valid with
  | false =>
      have hlook := h.lookup_vacant hv
      rw [hv] at hempty hmatch
      apply hend
      · rw [Book.probes, hlook]
      · by_cases hop : bookOp m.msgType = some .add <;>
          simp [OrderBook.step, hs, stepMatch, hadd, hop, hempty, Book.resolve, hlook]
  | true =>
      rw [hv] at hempty hmatch
      by_cases hr : (b.refMem (refSlot m.orderRef p)).orderRef = m.orderRef
      · have hlook := h.lookup_hit hv hr
        rw [hr] at hmatch
        apply hend
        · rw [Book.probes, hlook]
        · by_cases hop : bookOp m.msgType = some .add <;>
            simp [OrderBook.step, hs, stepMatch, hadd, hop, hempty, hmatch, Book.resolve, hlook]
      · have hne : ((b.refMem (refSlot m.orderRef p)).orderRef == m.orderRef) = false := by simpa using hr
        rw [hne] at hmatch
        by_cases hp : p = obMaxProbe
        · subst hp
          have hlook := h.lookup_full hv hr
          rw [eq_self, iff_true] at hcnt
          apply hend
          · rw [Book.probes, hlook]
          · by_cases hop : bookOp m.msgType = some .add <;>
              simp [OrderBook.step, hs, stepMatch, hadd, hop, hempty, hmatch, hcnt, Book.resolve, hlook]
        · -- it goes on to the next slot
          have hcnt' : s.probeCnt ≠ BitVec.ofNat 3 obMaxProbe := fun he => hp (hcnt.mp he)
          have hle := h.le
          have hmore := Book.lt_probes (n := p + 1) (by omega) (h.blocked_succ hv hr)
          have hst : (s.step i).state = .sReadRef1 := by
            by_cases hop : bookOp m.msgType = some .add <;>
              simp [OrderBook.step, hs, stepMatch, hadd, hop, hempty, hmatch, hcnt']
          have hsucc : (s.step i).probeCnt = s.probeCnt + 1 := by
            by_cases hop : bookOp m.msgType = some .add <;>
              simp [OrderBook.step, hs, stepMatch, hadd, hop, hempty, hmatch, hcnt', collide]
          have hroom : (s.probeCnt + 1).toNat = p + 1 := by
            rw [obMaxProbe] at hle
            have hone : (1 : BitVec 3).toNat = 1 := rfl
            rw [BitVec.toNat_add, h.toNat_cnt, hone, Nat.mod_eq_of_lt (by omega)]
          simp only [remaining, hs, hst, hsucc, hroom, h.toNat_cnt]
          omega

/-- **Step lemma**: every cycle of an operation is one less. -/
theorem Phase.remaining_step (h : Phase b m s) : remaining b m (s.step i) + 1 = remaining b m s := by
  cases h with
  | readRef1 p hs h => exact remaining_read (Or.inl hs)
  | readRef2 p hs h haddr => exact remaining_read (Or.inr (Or.inl hs))
  | process p hs h haddr hdata => exact remaining_read (Or.inr (Or.inr hs))
  | matching p hs h href hempty hmatch => exact remaining_matching hs h hempty hmatch
  | scanBook p hs hp h => exact remaining_scan (Or.inl hs)
  | scanBook2 p hs hp h hentry hbid hask => exact remaining_scan (Or.inr (Or.inl hs))
  | scanBook3 p hs hp h hlevel hbid hask => exact remaining_scan (Or.inr (Or.inr hs))
  | updating p hs hp h hregs =>
      have hop : s.updateRegs.op = bookOp m.msgType := by rw [hregs]; rfl
      by_cases hrep : bookOp m.msgType = some .replace
      · have hst : (s.step i).state = .sUpdate2 := by
          simp only [OrderBook.step, hs, stepUpdate, hop, hrep, if_true]
        simp only [remaining, hs, hst, Book.extraWrite, hrep, if_true]
      · have hst : (s.step i).state = .sDone := by
          simp only [OrderBook.step, hs, stepUpdate, hop, hrep, if_false]
        simp only [remaining, hs, hst, Book.extraWrite, hrep, if_false]
  | updating2 p hs hp hop haddr hbook =>
      have hst : (s.step i).state = .sDone := by simp [OrderBook.step, hs, stepUpdate2]
      simp only [remaining, hs, hst]
  | finishing hs hbook =>
      have hst : (s.step i).state = .sIdle := by simp [OrderBook.step, hs]
      simp only [remaining, hs, hst]

/-- After its first cycle a message has all of its time before it. -/
theorem remaining_accept (hst : s.state = .sIdle) (hv : i.fieldsValid = true)
    (hop : bookOp i.msg.msgType ≠ none) : remaining b i.msg (s.step i) = b.service i.msg := by
  have hsome : (bookOp i.msg.msgType).isSome = true := Option.isSome_iff_ne_none.mpr hop
  have hnext : (s.step i).state = .sReadRef1 := by simp [OrderBook.step, stepIdle, hst, hv, hsome]
  have hcnt : (s.step i).probeCnt = 0 := by simp [OrderBook.step, stepIdle, hst, hv]
  have hzero : (0 : BitVec 3).toNat = 0 := rfl
  have hprobes := (b.probes_bounds i.msg).1
  simp only [remaining, hnext, hcnt, hzero, Book.service]
  omega

end Step

section Run

variable {b : Book} {m : BookMsg}

/-- The book is busy until no cycle is left, and then it is ready. -/
theorem run_remaining {c : Nat} : ∀ {s : OrderBook}, Phase b m s → remaining b m s = c →
    ∀ i : Nat → OrderBookIn, (∀ k, k < c → (run step s i k).bookReady = false) ∧
      (run step s i c).bookReady = true := by
  induction c with
  | zero =>
      intro s h hc i
      have := h.remaining_step (i := i 0)
      omega
  | succ c ih =>
      intro s h hc i
      have hbusy : s.bookReady = false := by
        rw [← Bool.not_eq_true, bookReady_iff]
        exact h.not_idle
      have hnext := h.remaining_step (i := i 0)
      have hrun : ∀ k, run step s i (k + 1) = run step (s.step (i 0)) (fun m => i (1 + m)) k := fun k => by
        rw [Nat.add_comm, run_add]
        rfl
      rcases h.step (i := i 0) with hdone | ⟨hph, -⟩
      · -- the last cycle
        have hidle : (s.step (i 0)).bookReady = true := (bookReady_iff _).mpr hdone.state
        have hlast : remaining b m (s.step (i 0)) = 0 := by rw [remaining, hdone.state]
        obtain rfl : c = 0 := by omega
        refine ⟨fun k hk => ?_, hidle⟩
        obtain rfl : k = 0 := by omega
        exact hbusy
      · obtain ⟨hlow, hhigh⟩ := ih hph (by omega) fun m => i (1 + m)
        refine ⟨fun k hk => ?_, by rwa [hrun]⟩
        cases k with
        | zero => exact hbusy
        | succ k =>
            rw [hrun]
            exact hlow k (by omega)

/-- **Service**: with a message that it takes while it holds `b` the book is busy for exactly
`b.service` cycles. -/
theorem run_service {s : OrderBook} (h : Ready b s) (i : Nat → OrderBookIn)
    (hv : (i 0).fieldsValid = true) (hop : bookOp (i 0).msg.msgType ≠ none) :
    (∀ k, k < b.service (i 0).msg → (run step s i (1 + k)).bookReady = false) ∧
      (run step s i (1 + b.service (i 0).msg)).bookReady = true := by
  have hrun : ∀ k, run step s i (1 + k) = run step (s.step (i 0)) (fun m => i (1 + m)) k := fun k => by
    rw [run_add]
    rfl
  simp only [hrun]
  exact run_remaining (phase_accept h hv hop) (remaining_accept h.state hv hop) _

end Run

end OrderBook

end Lliu
