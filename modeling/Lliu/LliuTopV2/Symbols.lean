import Lliu.LliuTopV2.Trace

/-!
# Lliu.LliuTopV2.Symbols

The symbol index of a message.  The order book, the last prices of the feature
extractor, the net positions and the OUCH templates are all addressed by an index
that the parser puts out with the fields.  It is constantly zero, so the messages
of all stocks share one entry of each (`indices_eq_zero`).
-/

namespace Lliu

namespace LliuTopV2

open Hdl

variable {i : Nat → LliuTopV2In}

/-! ## the index is constant -/

/-- The symbol index in the parser, the delay line and the hold registers. -/
structure SymIdZero (s : LliuTopV2) : Prop where
  parser : s.uParser.symId = 0
  d1 : s.d1.symId = 0
  d2 : s.d2.symId = 0
  d3 : s.d3.symId = 0
  held : s.held.symId = 0

theorem parser_symId_step {s : ItchParserV2} (h : s.symId = 0) (i : ItchParserV2In) :
    (s.step i).symId = 0 := by
  by_cases hs : s.state = .sEmit
  · rw [ItchParserV2.step, hs]
    rfl
  · rw [(ItchParserV2.outputs_step hs i).2.2.1, h]

theorem SymIdZero.step {s : LliuTopV2} (h : s.SymIdZero) (i : LliuTopV2In) :
    (s.step i).SymIdZero := by
  refine ⟨parser_symId_step h.parser _, h.parser, h.d1, h.d2, ?_⟩
  simp only [LliuTopV2.step]
  split
  · exact h.d1
  · exact h.held

/-- No cycle has another index than zero. -/
theorem symIdZero_trace (n : Nat) : (trace i n).SymIdZero :=
  run_invariant (P := fun _ (s : LliuTopV2) => s.SymIdZero) ⟨rfl, rfl, rfl, rfl, rfl⟩
    (fun _ h => h.step _) n

/-! ## messages of watched stocks -/

/-- In cycle `n` the parser pulses for a message with a stock field, and the
stock is on the watchlist: the message reaches the extractor. -/
structure Watched (i : Nat → LliuTopV2In) (n : Nat) : Prop where
  carriesStock : ItchParserV2.carriesStock (trace i n).uParser.msgType = true
  reaches : (trace i (n + 3)).featExtFv = true

/-- The entries that a message addresses. -/
@[ext]
structure Indices where
  book : SymId
  lastPrice : SymId
  position : SymId
  template : BitVec 7
  deriving DecidableEq, Repr

/-- The entries that the message of cycle `n` addresses: in the order book with
the pulse, in the feature extractor three cycles later, and in `risk_check` and
`ouch_engine` through the hold registers it has loaded then. -/
def indices (i : Nat → LliuTopV2In) (n : Nat) : Indices where
  book := (trace i n).obIn.msg.symId
  lastPrice := (trace i (n + 3)).featExtIn.symId
  position := (trace i (n + 4)).riskIn.symbolId
  template := ((trace i (n + 4)).ouchIn (i (n + 4))).symbolId

theorem indices_eq_zero (n : Nat) : indices i n = ⟨0, 0, 0, 0⟩ := by
  have h4 : ((trace i (n + 4)).held.symId).setWidth 7 = 0#7 := by
    rw [(symIdZero_trace (n + 4)).held]
    rfl
  exact Indices.ext (symIdZero_trace n).parser (symIdZero_trace (n + 3)).d3
    (symIdZero_trace (n + 4)).held h4

/-- Messages of different watched stocks share no entry. -/
def NoSharedIndex (i : Nat → LliuTopV2In) : Prop :=
  ∀ n n', Watched i n → Watched i n' →
    (trace i n).uParser.stock ≠ (trace i n').uParser.stock →
    (indices i n).book ≠ (indices i n').book ∧
    (indices i n).lastPrice ≠ (indices i n').lastPrice ∧
    (indices i n).position ≠ (indices i n').position ∧
    (indices i n).template ≠ (indices i n').template

/-- **Symbol index**: the messages of different watched stocks share no entry of
the order book, the last prices, the positions and the templates if and only if
the run has messages of one watched stock only. -/
theorem no_shared_index_iff (i : Nat → LliuTopV2In) : NoSharedIndex i ↔
    ∀ n n', Watched i n → Watched i n' →
      (trace i n).uParser.stock = (trace i n').uParser.stock := by
  constructor
  · intro h n n' hn hn'
    by_contra hne
    refine (h n n' hn hn' hne).1 ?_
    rw [indices_eq_zero, indices_eq_zero]
  · intro h n n' hn hn' hne
    exact absurd (h n n' hn hn') hne

/-! ## a second stock -/

/-- The ticker `"MSFT    "`. -/
def msft : BitVec 64 := 0x4D53465420202020#64

/-- The AXI4-Lite writes that put both tickers on the watchlist. -/
def watchBoth : List (Nat × BitVec 12 × BitVec 32) :=
  [(0, 0x018#12, 0x20202020#32), (2, 0x01C#12, 0x4141504C#32), (4, 0x020#12, 3#32),
    (6, 0x014#12, 1#32), (8, 0x01C#12, 0x4D534654#32), (10, 0x020#12, 3#32)]

/-- A bid for `"AAPL    "` at 100. -/
def oneBid : Nat → LliuTopV2In :=
  Schedule.inputs { axis := frameAt 16 (addFrame 1 buy 10 100 aapl), axil := watchBoth }

/-- The same, and later a bid for `"MSFT    "` at 200. -/
def twoBids : Nat → LliuTopV2In :=
  Schedule.inputs
    { axis := frameAt 16 (addFrame 1 buy 10 100 aapl) ++ frameAt 26 (addFrame 2 buy 10 200 msft)
      axil := watchBoth }

/-- The second bid takes the BBO and the last price of the first stock: once
idle they differ from those of the run without it. -/
theorem other_stock_interferes :
    ((trace oneBid 100).pipelineHold = false ∧ (trace oneBid 100).uOb.bookReady = true ∧
      (trace twoBids 100).pipelineHold = false ∧ (trace twoBids 100).uOb.bookReady = true) ∧
    ((trace oneBid 100).uOb.book.bboBidPriceR 0 = 100 ∧
      (trace twoBids 100).uOb.book.bboBidPriceR 0 = 200) ∧
    ((trace oneBid 100).uFeatExt.hist.lastPriceLut 0 = 100 ∧
      (trace twoBids 100).uFeatExt.hist.lastPriceLut 0 = 200) ∧
    ¬ NoSharedIndex twoBids := by
  refine ⟨by decide +kernel, by decide +kernel, by decide +kernel, fun h => ?_⟩
  have hpulses : ((ItchParserV2.carriesStock (trace twoBids 22).uParser.msgType = true ∧
      (trace twoBids 25).featExtFv = true) ∧
      ItchParserV2.carriesStock (trace twoBids 32).uParser.msgType = true ∧
      (trace twoBids 35).featExtFv = true) ∧
      (trace twoBids 22).uParser.stock ≠ (trace twoBids 32).uParser.stock := by decide +kernel
  obtain ⟨⟨⟨h1, h2⟩, h3, h4⟩, hne⟩ := hpulses
  refine (h 22 32 ⟨h1, h2⟩ ⟨h3, h4⟩ hne).1 ?_
  rw [indices_eq_zero, indices_eq_zero]

end LliuTopV2

end Lliu
