import Lliu.Hdl.Gated
import Lliu.Hdl.Slot
import Lliu.LliuTopV2.Observers
import Lliu.PcieDmaEngine.Trigger

/-!
# Lliu.Kc705Top.Pcie

`u_lliu` and `u_pcie_dma` of `kc705_top.sv`, with the edges of `clk_300` and of the clock of the
PCIe core in any order.  Two results about whole runs:

* the trading is a function of the market and of the writes of the host: nothing that the host
  does over PCIe, and no read, has an effect on it (`trading_isolated`);
* the engine never sends anything over PCIe.  The first snapshot is never complete, and the
  state machine waits for it for ever (`never_transfers`).
-/

namespace Lliu

open Hdl

/-! ## an engine that is never told that a snapshot is complete -/

namespace PcieUser

/-- Nothing has been sent, and no descriptor is done. -/
structure Silent (s : PcieUser) : Prop where
  axTxTvalid : s.axTxTvalid = false
  descRdPtr : s.descRdPtr = 0

/-- Nothing is sent before a descriptor is read. -/
theorem Silent.step {s : PcieUser} (h : Silent s) (i : PcieUserIn)
    (hstate : s.dmaState = .dmaCaptWait ∧ s.captDoneUc = false ∨ s.dmaState = .dmaIdle ∨
      s.dmaState = .dmaTrig) : Silent (s.step i) := by
  have hrx : ((s.stepRx i.ip (s.advance i)).axTxTvalid = false) ∧
      (s.stepRx i.ip (s.advance i)).descRdPtr = 0 := by
    rw [stepRx_eq]
    exact ⟨rfl, h.descRdPtr⟩
  rw [PcieUser.step, stepDma]
  obtain ⟨hwait, hdone⟩ | hidle | htrig := hstate
  · simp only [hwait, hdone, Bool.false_eq_true, if_false]
    exact ⟨hrx.1, hrx.2⟩
  · simp only [hidle]
    exact ⟨hrx.1, hrx.2⟩
  · simp only [htrig]
    exact ⟨hrx.1, hrx.2⟩

end PcieUser

namespace PcieDmaEngine

variable {e : Nat → PcieEdge} {a b n : Nat}

theorem neverDone_trace (h : ∀ n, ((e n).snap.snapValid && (e n).snap.snapDone) = false) (n : Nat) :
    (trace e n).NeverDone :=
  run_invariant (P := fun _ => NeverDone) ⟨⟨rfl, rfl⟩, ⟨rfl, rfl, rfl, rfl⟩, .inr ⟨rfl, .inl rfl⟩⟩
    (fun n hn => hn.step (h n)) n

section NeverDone

variable (hnever : ∀ n, ((e n).snap.snapValid && (e n).snap.snapDone) = false)

include hnever

theorem silent_trace (n : Nat) : (trace e n).user.Silent := by
  induction n with
  | zero => exact ⟨rfl, rfl⟩
  | succ n ih =>
      have hn := neverDone_trace hnever n
      rw [trace_succ, step]
      cases (e n).userEdge with
      | false => exact ih
      | true =>
          refine ih.step _ ?_
          obtain hwait | ⟨-, hearly⟩ := hn.waits
          · exact .inl ⟨hwait, hn.sync.2.2.2⟩
          · exact .inr hearly

/-- After a trigger the state machine waits. -/
theorem waits_of_trigger (h : trigger e a = true) (hlt : a < n) :
    (trace e n).user.dmaState = .dmaCaptWait := by
  induction n, hlt using Nat.le_induction with
  | base =>
      rw [trigger, Bool.and_eq_true, beq_iff_eq] at h
      rw [Nat.succ_eq_add_one, trace_succ, step, h.1, if_pos rfl, PcieUser.step, PcieUser.stepDma, h.2]
  | succ n _ ih =>
      rw [trace_succ, step]
      cases (e n).userEdge with
      | false => exact ih
      | true =>
          have hdone := (neverDone_trace hnever n).sync.2.2.2
          rw [if_pos rfl, PcieUser.step, PcieUser.stepDma, ih]
          simp only [hdone, Bool.false_eq_true, if_false, PcieUser.stepRx_dmaState]
          exact ih

/-- So there is one trigger at most. -/
theorem trigger_unique (ha : trigger e a = true) (hb : trigger e b = true) : a = b := by
  have hlate : ∀ {a b}, trigger e a = true → trigger e b = true → ¬ a < b := by
    intro a b ha hb hlt
    rw [trigger, waits_of_trigger hnever ha hlt, Bool.and_eq_true] at hb
    exact absurd hb.2 (by decide)
  exact Nat.le_antisymm (Nat.not_lt.mp (hlate hb ha)) (Nat.not_lt.mp (hlate ha hb))

theorem count_trigger_le (n : Nat) : count (trigger e) n ≤ 1 := by
  induction n with
  | zero => exact Nat.zero_le 1
  | succ n ih =>
      rw [count_succ]
      cases hn : trigger e n with
      | false => exact ih
      | true =>
          have hnone : count (trigger e) n = 0 := count_eq_zero_iff.mpr fun k hk => by
            rw [Bool.eq_false_iff]
            intro hk'
            exact Nat.ne_of_lt hk (trigger_unique hnever hk' hn)
          rw [hnone]
          rfl

/-- And one request. -/
theorem count_snapPulse_le_one (n : Nat) : count (snapPulse e) n ≤ 1 := by
  have hsep : Separated e := fun a b ha hb hlt => absurd (trigger_unique hnever ha hb) (Nat.ne_of_lt hlt)
  exact Nat.le_trans (count_snapPulse_le hsep n) (count_trigger_le hnever n)

end NeverDone

end PcieDmaEngine

/-! ## the top level with the engine -/

/-- The registers of `u_lliu` and `u_pcie_dma`. -/
structure Kc705Core where
  uLliu : LliuTopV2
  uPcieDma : PcieDmaEngine

/-- Clock edges that fall together, and the inputs at that time.  Of `top` the two snapshot
signals are driven inside. -/
structure Kc705Edge where
  clk300 : Bool
  userClk : Bool
  top : LliuTopV2In
  ip : PcieIpIn

namespace Kc705Core

/-- The registers after reset. -/
def reset : Kc705Core where
  uLliu := LliuTopV2.reset
  uPcieDma := PcieDmaEngine.reset

/-- The inputs of `u_lliu`. -/
def lliuIn (s : Kc705Core) (e : Kc705Edge) : LliuTopV2In :=
  { e.top with
    snapReq := s.uPcieDma.sys.snapReq
    snapReady := s.uPcieDma.sys.snapReady }

/-- The edges and inputs of `u_pcie_dma`. -/
def dmaEdge (s : Kc705Core) (e : Kc705Edge) : PcieEdge where
  sysEdge := e.clk300
  userEdge := e.userClk
  snap :=
    { snapData := s.uLliu.uSnap.snapData
      snapValid := s.uLliu.uSnap.snapValid
      snapDone := s.uLliu.uSnap.snapDone }
  ip := e.ip

/-- Clock edges that fall together. -/
def step (s : Kc705Core) (e : Kc705Edge) : Kc705Core where
  uLliu := if e.clk300 then s.uLliu.step (s.lliuIn e) else s.uLliu
  uPcieDma := s.uPcieDma.step (s.dmaEdge e)

/-- The state at time `n` of a run from reset. -/
def trace (e : Nat → Kc705Edge) (n : Nat) : Kc705Core := run step reset e n

/-- What the engine gets in a run. -/
def dmaEdges (e : Nat → Kc705Edge) (n : Nat) : PcieEdge := (trace e n).dmaEdge (e n)

section Run

variable {e : Nat → Kc705Edge}

theorem uPcieDma_trace (n : Nat) :
    (trace e n).uPcieDma = PcieDmaEngine.trace (dmaEdges e) n :=
  run_map (f := uPcieDma) (fun _ => rfl) n

/-- The mux raises `snap_done` when it is idle. -/
theorem doneInIdle_trace (n : Nat) : SnapLink.DoneInIdle (trace e n).uLliu.uSnap := by
  induction n with
  | zero => exact fun h => absurd h Bool.false_ne_true
  | succ n ih =>
      change SnapLink.DoneInIdle (if (e n).clk300 then (trace e n).uLliu.step ((trace e n).lliuIn (e n))
        else (trace e n).uLliu).uSnap
      cases (e n).clk300 with
      | false => exact ih
      | true => exact SnapLink.DoneInIdle.step _ _

theorem never_done (n : Nat) :
    ((dmaEdges e n).snap.snapValid && (dmaEdges e n).snap.snapDone) = false := by
  change ((trace e n).uLliu.uSnap.snapValid && (trace e n).uLliu.uSnap.snapDone) = false
  cases hd : (trace e n).uLliu.uSnap.snapDone with
  | false => rw [Bool.and_false]
  | true => rw [SnapshotMux.snapValid, doneInIdle_trace n hd]; rfl

/-- **No transfer**: in every run, whatever the clocks, the host and the market do, nothing is sent
over PCIe and no descriptor is done; one snapshot is asked for at most, and after the trigger for
it the state machine waits for ever. -/
theorem never_transfers (e : Nat → Kc705Edge) (n : Nat) :
    (trace e n).uPcieDma.user.axTxTvalid = false ∧ (trace e n).uPcieDma.user.descRdPtr = 0 ∧
    count (PcieDmaEngine.snapPulse (dmaEdges e)) n ≤ 1 ∧
    count (PcieDmaEngine.trigger (dmaEdges e)) n ≤ 1 ∧
    ∀ a, a < n → PcieDmaEngine.trigger (dmaEdges e) a = true →
      (trace e n).uPcieDma.user.dmaState = .dmaCaptWait := by
  have hsilent := PcieDmaEngine.silent_trace (never_done (e := e)) n
  rw [uPcieDma_trace]
  exact ⟨hsilent.axTxTvalid, hsilent.descRdPtr, PcieDmaEngine.count_snapPulse_le_one never_done n,
    PcieDmaEngine.count_trigger_le never_done n,
    fun a hlt ha => PcieDmaEngine.waits_of_trigger never_done ha hlt⟩

/-- **Isolation**: the state of the trading is that after the beats of the market, the writes of the
host and `m_axis_tready` at the edges of `clk_300`, whatever happens on PCIe and is read. -/
theorem trading_isolated (e : Nat → Kc705Edge) (n : Nat) : (trace e n).uLliu.trading =
    (sampled (fun k => (e k).clk300) (fun k => (e k).top.unobserved) n).foldl
      (fun s i => (s.step i).trading) LliuTopV2.reset := by
  have hgated : Gated LliuTopV2.step (fun k => (e k).clk300) (fun k => (trace e k).lliuIn (e k))
      (fun k => (trace e k).uLliu) := fun _ => rfl
  have hview := hgated.map LliuTopV2.trading LliuTopV2In.unobserved (fun s i => (s.step i).trading)
    LliuTopV2.trading_step
  exact hview.eq_foldl n

end Run

end Kc705Core

end Lliu
