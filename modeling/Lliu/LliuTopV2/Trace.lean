import Lliu.Hdl.Run
import Lliu.LliuTopV2

/-!
# Lliu.LliuTopV2.Trace

Runs of the top level from reset, and how its registered stages delay a signal:
a message that reaches the feature extractor raises `core_features_valid` seven
cycles later, scores reach the risk check three cycles after they are valid, and
a verdict belongs to the proposal of six cycles before.
-/

namespace Lliu

namespace LliuTopV2

open Hdl

/-- The state in cycle `n` of a run from reset. -/
def trace (i : Nat → LliuTopV2In) (n : Nat) : LliuTopV2 := run step reset i n

variable {i : Nat → LliuTopV2In}

theorem trace_succ (n : Nat) : trace i (n + 1) = (trace i n).step (i n) := rfl

/-! ## delays -/

/-- The feature vector is out seven cycles after its message came in. -/
theorem coreFeaturesValid_add (n : Nat) :
    (trace i (n + 7)).coreFeaturesValid = (trace i n).featExtFv := rfl

/-- No vector is out before. -/
theorem coreFeaturesValid_of_lt {n : Nat} (h : n < 7) : (trace i n).coreFeaturesValid = false := by
  match n, h with
  | 0, _ | 1, _ | 2, _ | 3, _ | 4, _ | 5, _ | 6, _ => rfl

/-- The message that reaches the extractor left the parser three cycles before. -/
theorem fieldsValid_of_featExtFv {n : Nat} (h : (trace i n).featExtFv = true) :
    ∃ t, n = t + 3 ∧ (trace i t).uParser.fieldsValid = true := by
  rw [featExtFv, Bool.and_eq_true] at h
  match n, h.1 with
  | n + 3, hv => exact ⟨n, rfl, hv⟩

/-- A verdict is given six cycles after its proposal. -/
theorem scoreValidP2_add (n : Nat) :
    (trace i (n + 5)).uRisk.p2.scoreValidP2 = (trace i n).uArb.bestValid := rfl

/-- An order passes only if it was proposed. -/
theorem bestValid_of_riskPass {n : Nat} (h : (trace i n).uRisk.riskPass = true) :
    ∃ t, n = t + 6 ∧ (trace i t).uArb.bestValid = true := by
  have hpass : ∀ {m : Nat}, (trace i (m + 1)).uRisk.riskPass = true →
      (trace i m).uRisk.p2.scoreValidP2 = true := by
    intro m hm
    change (RiskCheck.verdict (trace i m).uRisk.p2 _).1 = true at hm
    by_contra hv
    rw [Bool.not_eq_true] at hv
    simp [RiskCheck.verdict, hv] at hm
  match n, h with
  | 1, h | 2, h | 3, h | 4, h | 5, h => exact absurd (hpass h) Bool.false_ne_true
  | n + 6, h =>
      rw [show n + 6 = n + 5 + 1 from rfl] at h
      exact ⟨n, rfl, (scoreValidP2_add n).symm.trans (hpass h)⟩

/-! ## market data -/

/-- The five beats of an Add Order frame: length 36, type `'A'`, reference,
side, shares, stock and price. -/
def addFrame (orderRef : OrderRef) (side : BitVec 8) (shares price : BitVec 32)
    (stock : BitVec 64) : List (BitVec 64) :=
  [0x0024#16 ++ 0x41#8 ++ 0#40,
    0#40 ++ orderRef.extractLsb' 40 24,
    orderRef.setWidth 40 ++ side ++ shares.extractLsb' 16 16,
    shares.setWidth 16 ++ stock.extractLsb' 16 48,
    stock.setWidth 16 ++ price ++ 0#16]

/-- `'B'`. -/
def buy : BitVec 8 := 0x42#8

/-- `'S'`. -/
def sell : BitVec 8 := 0x53#8

/-- The ticker `"AAPL    "`. -/
def aapl : BitVec 64 := 0x4141504C20202020#64

/-- The beats of the ITCH stream with the cycles in which they are offered, and
the AXI4-Lite writes with theirs. -/
structure Schedule where
  axis : List (Nat × Nat × BitVec 64)
  axil : List (Nat × BitVec 12 × BitVec 32)

/-- A frame offered beat by beat from cycle `t` on. -/
def frameAt (t : Nat) (beats : List (BitVec 64)) : List (Nat × Nat × BitVec 64) :=
  beats.zipIdx.map fun b => (t + b.2, t + b.2, b.1)

/-- The inputs of a schedule; the receivers are always ready. -/
def Schedule.inputs (w : Schedule) (n : Nat) : LliuTopV2In where
  sAxisTdata := ((w.axis.find? fun b => b.1 ≤ n ∧ n ≤ b.2.1).map (·.2.2)).getD 0
  sAxisTvalid := w.axis.any fun b => b.1 ≤ n ∧ n ≤ b.2.1
  sAxisTlast := false
  mAxisTready := true
  sAxilAwaddr := ((w.axil.find? fun b => b.1 = n).map (·.2.1)).getD 0
  sAxilAwvalid := w.axil.any fun b => b.1 = n
  sAxilWdata := ((w.axil.find? fun b => b.1 = n).map (·.2.2)).getD 0
  sAxilWvalid := w.axil.any fun b => b.1 = n
  sAxilBready := true
  sAxilAraddr := 0
  sAxilArvalid := false
  sAxilRready := true
  snapReq := false
  snapReady := true

end LliuTopV2

end Lliu
