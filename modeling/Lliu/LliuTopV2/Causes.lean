import Lliu.LliuTopV2.Programming
import Lliu.LliuTopV2.Trading

/-!
# Lliu.LliuTopV2.Causes

What it takes for an order.  In every run, with no assumption on the market data, on the
AXI4-Lite writes or on the receiver, an order passes the risk check exactly 82 cycles after
a message has left the parser that is on the watchlist as it is programmed, finds the cores
free, has a score of the programmed weights that reaches the programmed threshold, and
passes the checks as they are set (`passes_iff_fires`).
-/

namespace Lliu

namespace LliuTopV2

open Hdl

variable {i : Nat → LliuTopV2In}

/-- The registers as they are set by the writes applied before cycle `n`. -/
def settings (i : Nat → LliuTopV2In) (n : Nat) : ControlRegs :=
  (feed ControlRegs.write Axil.reset.controlRegs (writesApplied i n)).1

/-- The weight `a` of core `k` as it is programmed by them. -/
def weightSet (i : Nat → LliuTopV2In) (n : Nat) (k : Fin numCores) (a : BitVec 5) : Bfloat16T :=
  (lastWrite ((writesApplied i n).filterMap weightOf) (k, a)).getD 0

/-- The watchlist as it is programmed by them. -/
def watchlistSet (i : Nat → LliuTopV2In) (n : Nat) : Watchlist := (program (· % 128) (writesApplied i n)).2

/-- The score of the vector of the message parsed in cycle `t` with the weights of core `k`;
element `j` is read 12 + `j` cycles after the message. -/
def scoreSet (i : Nat → LliuTopV2In) (t : Nat) (k : Fin numCores) : Float32T :=
  DotProductEngine.mergeOver (DotProductEngine.retainedAccs vecLen) ((List.range vecLen).map fun j =>
    ((trace i (t + 10)).uFeatExt.features j, weightSet i (t + 11 + j) k (BitVec.ofNat 5 j)))

/-- The position that the order of cycle `t + 76` leads to. -/
def leadsTo (i : Nat → LliuTopV2In) (t : Nat) : Int :=
  (position i (t + 79) (trace i (t + 76)).held.symId).toInt +
    if (trace i (t + 76)).held.side then ((trace i (t + 76)).riskProposedShares.toNat : Int)
    else -((trace i (t + 76)).riskProposedShares.toNat : Int)

/-- The message that leaves the parser in cycle `t` makes an order that passes. -/
structure Fires (i : Nat → LliuTopV2In) (t : Nat) : Prop where
  pulse : (trace i t).uParser.fieldsValid = true
  watched : (trace i t).uParser.stock ∈ (watchlistSet i t).tickers
  /-- The cores do not work on another message. -/
  free : (trace i (t + 10)).inFlight = false
  scores : ∃ k, (settings i (t + 73)).scoreThresh ≤ scoreSet i t k
  enabled : (settings i (t + 76)).killSw = false
  sends : (trace i (t + 76)).uOuch.txOverflow = false
  band : 8192 * RiskCheck.deviation (trace i (t + 76)).held.price (trace i (t + 76)).heldRefR ≤
    RiskCheck.bandProduct (trace i (t + 76)).heldRefR (settings i (t + 76)).bandBps
  quantity : (trace i (t + 76)).riskProposedShares.toNat ≤ (settings i (t + 76)).maxQty.toNat
  limit : RiskCheck.seenAbs (leadsTo i t) ≤ 1000

/-! ## settings -/

theorem controlRegs_trace (n : Nat) : (trace i n).axil.controlRegs = settings i n :=
  ((executes_applied (i := i)).feed_eq n).1

theorem scoreThreshR_trace (n : Nat) : (trace i n).axil.scoreThreshR = (settings i n).scoreThresh :=
  congrArg ControlRegs.scoreThresh (controlRegs_trace n)

theorem killSwR_settings (n : Nat) : (trace i n).axil.killSwR = (settings i n).killSw :=
  congrArg ControlRegs.killSw (controlRegs_trace n)

theorem bandBpsR_trace (n : Nat) : (trace i n).axil.bandBpsR = (settings i n).bandBps :=
  congrArg ControlRegs.bandBps (controlRegs_trace n)

theorem maxQtyR_trace (n : Nat) : (trace i n).axil.maxQtyR = (settings i n).maxQty :=
  congrArg ControlRegs.maxQty (controlRegs_trace n)

/-- The scores are those of the programmed weights. -/
theorem scoreAt_eq (t : Nat) (k : Fin numCores) : scoreAt i (t + 3) k = scoreSet i t k := by
  rw [scoreAt, scoreSet]
  refine congrArg _ (List.map_congr_left fun j hj => ?_)
  have hlt : j < 32 := List.mem_range.mp hj
  have hread := congrFun (weights_trace (i := i) (t + 11 + j)) (k, BitVec.ofNat 5 j)
  rw [store_apply] at hread
  rw [weightSet, ← hread, weights, vectorAt]
  have haddr : (BitVec.ofNat 5 j).toNat = j := by
    rw [BitVec.toNat_ofNat, Nat.mod_eq_of_lt hlt]
  rw [haddr, show t + 3 + 9 + j = t + 11 + j + 1 by omega, show t + 3 + 7 = t + 10 by omega]

/-! ## arrival -/

theorem uSymFilter_trace (n : Nat) :
    (trace i n).uSymFilter = SymbolFilter.trace (fun k => (trace i k).symFilterIn) n :=
  run_map (f := LliuTopV2.uSymFilter) (fun _ => rfl) n

/-- A message reaches the extractor if its stock is on the watchlist. -/
theorem arrives_iff (t : Nat) : arrives i t = true ↔
    (trace i t).uParser.fieldsValid = true ∧ (trace i t).uParser.stock ∈ (watchlistSet i t).tickers := by
  have hvalid : (trace i (t + 3)).d3.fieldsValid = (trace i t).uParser.fieldsValid := rfl
  have hlookup : (trace i (t + 3)).uSymFilter.lookupValidQ = (trace i t).uParser.fieldsValid := rfl
  have hmatch : (trace i (t + 3)).uSymFilter.lookupMatchQ = true ↔
      (trace i t).uParser.stock ∈ (watchlistSet i t).tickers := by
    rw [uSymFilter_trace, SymbolFilter.lookupMatchQ_add, watchlistSet, ← (program_trace t).2, watchlist,
      uSymFilter_trace]
    exact exists_congr fun k => SymbolFilter.entry_eq_some_iff.symm
  rw [arrives, featExtFv, watchlistHit, SymbolFilter.watchlistHit, hvalid, hlookup, Bool.and_eq_true,
    Bool.and_eq_true, hmatch]
  tauto

/-- Its vector is taken if the cores are free. -/
theorem taken_iff (t : Nat) :
    Taken i (t + 10) ↔ arrives i t = true ∧ (trace i (t + 10)).inFlight = false := by
  constructor
  · intro h
    refine ⟨h.valid, Bool.eq_false_iff.mpr fun hf => ?_⟩
    exact (inFlight_iff (t + 10) 0).mp hf (h.idle 0).seqState
  · rintro ⟨harrive, hflight⟩
    refine ⟨harrive, ?_⟩
    rcases released_or_taken (i := i) (t + 10) with ⟨hidle, -⟩ | ⟨a, ha, hlt, hle⟩
    · exact hidle
    · have hup := ha.inFlight (t + 10 - a) (by omega) (by omega)
      rw [show a + (t + 10 - a) = t + 10 by omega, hflight] at hup
      cases hup

/-! ## orders -/

/-- A taken message is proposed if a score reaches the threshold. -/
theorem Taken.bestValid_iff {t : Nat} (h : Taken i (t + 10)) :
    (trace i (t + 76)).uArb.bestValid = true ↔
      ∃ k, (settings i (t + 73)).scoreThresh ≤ scoreSet i t k := by
  have hbest : (trace i (t + 76)).uArb.best = StrategyArbiter.winner (trace i (t + 73)).arbIn :=
    best_add (t + 73)
  rw [StrategyArbiter.bestValid, hbest, StrategyArbiter.valid_winner]
  refine exists_congr fun k => ?_
  rw [StrategyArbiter.gatedValid_iff, competes_iff h, Trader.Reaches, ← scoreAt_eq,
    ← scoreThreshR_trace, signalAt]

/-- What is proposed passes if the checks let it. -/
theorem passes_of_bestValid {t : Nat} (h : (trace i (t + 76)).uArb.bestValid = true) :
    passes i (t + 82) = true ↔
      RiskCheck.ReachesLimit (trace i (t + 76)).riskIn ∧ RiskCheck.seenAbs (leadsTo i t) ≤ 1000 := by
  have hpass : passes i (t + 82) = (verdictOn i (t + 76)).1 := riskPass_add (t + 76)
  have hvalid : (trace i (t + 76)).riskIn.scoreValid = true := by rw [riskIn_scoreValid, h]
  have hleads : RiskCheck.resulting (trace i (t + 76)).riskIn
      ((trace i (t + 76 + 3)).uRisk.posMem (trace i (t + 76)).riskIn.symbolId) = leadsTo i t := by
    rw [RiskCheck.resulting, RiskCheck.signedShares, leadsTo, position, riskIn_side, riskIn_symbolId,
      riskIn_proposedShares]
  rw [hpass, verdictOn, RiskCheck.fst_verdict_checks hvalid, hleads, riskIn_posLimit]
  rfl

/-- **Causes**: an order passes in cycle `a` if and only if a message that left the parser 82
cycles before makes it. -/
theorem passes_iff_fires (i : Nat → LliuTopV2In) (a : Nat) :
    passes i a = true ↔ ∃ t, a = t + 82 ∧ Fires i t := by
  constructor
  · intro hp
    obtain ⟨n, rfl, hn⟩ := bestValid_of_riskPass hp
    obtain ⟨m, rfl, hm⟩ := taken_of_bestValid hn
    obtain ⟨c, rfl, hc⟩ := hm.message
    obtain ⟨t, rfl, -⟩ := fieldsValid_of_featExtFv hc
    obtain ⟨harrive, hfree⟩ := (taken_iff t).mp hm
    obtain ⟨hpulse, hwatched⟩ := (arrives_iff t).mp harrive
    obtain ⟨⟨hkill, htx, hband, hqty⟩, hlimit⟩ := (passes_of_bestValid hn).mp hp
    rw [RiskCheck.priceDiff_le_iff] at hband
    simp only [riskIn_killSw, riskIn_txOverflow, riskIn_price, riskIn_refPrice, riskIn_bandBps,
      riskIn_proposedShares, riskIn_maxQty, killSwR_settings, bandBpsR_trace, maxQtyR_trace]
      at hkill htx hband hqty
    exact ⟨t, rfl, hpulse, hwatched, hfree, (Taken.bestValid_iff hm).mp hn, hkill, htx, hband, hqty, hlimit⟩
  · rintro ⟨t, rfl, h⟩
    have htaken : Taken i (t + 10) := (taken_iff t).mpr ⟨(arrives_iff t).mpr ⟨h.pulse, h.watched⟩, h.free⟩
    refine (passes_of_bestValid ((Taken.bestValid_iff htaken).mpr h.scores)).mpr ⟨?_, h.limit⟩
    rw [RiskCheck.ReachesLimit, RiskCheck.priceDiff_le_iff]
    simp only [riskIn_killSw, riskIn_txOverflow, riskIn_price, riskIn_refPrice, riskIn_bandBps,
      riskIn_proposedShares, riskIn_maxQty, killSwR_settings, bandBpsR_trace, maxQtyR_trace]
    exact ⟨h.enabled, h.sends, h.band, h.quantity⟩

end LliuTopV2

end Lliu
