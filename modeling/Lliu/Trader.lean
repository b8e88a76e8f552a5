import Lliu.Hdl.FirstMax
import Lliu.Hdl.LimitLedger
import Lliu.OuchEngine.Encoding
import Lliu.RiskCheck.Band
import Lliu.StrategyArbiter

/-!
# Lliu.Trader

What the trading path is for, without pipeline: a trader that takes one signal at a
time.  The core with the greatest score that reaches the threshold, the first of them
if there are several, proposes an order with its share count.  The order goes out if
trading is not halted, its price is in the band, its shares are within the quantity
limit, and it leaves the position of its symbol within the position limit.  Positions
are integers, and orders are never lost.
-/

namespace Lliu

open Hdl

/-- What the trader decides on for a message. -/
structure Signal where
  side : Bool
  price : BitVec 32
  symId : SymId
  refPrice : BitVec 32
  /-- The scores of the cores, and the threshold they have to reach. -/
  scores : Fin numCores → Float32T
  scoreThresh : Float32T
  /-- The share counts of the cores. -/
  shares : Fin numCores → BitVec 24
  bandBps : BitVec 32
  maxQty : BitVec 32
  /-- The kill switch is set, or the transmitter has overflowed. -/
  halted : Bool

/-- An order. -/
structure Order where
  side : Bool
  price : BitVec 32
  symId : SymId
  shares : BitVec 24
  deriving DecidableEq, Repr

namespace Order

/-- The signed shares of an order. -/
def signedShares (o : Order) : Int := if o.side then o.shares.toNat else -o.shares.toNat

/-- As the OUCH engine latches it. -/
def latched (o : Order) : OuchEngine.LatchedOrder := ⟨o.symId.setWidth 7, o.side, o.price, o.shares⟩

end Order

namespace Trader

/-- `pos_limit` of the top level. -/
def posLimit : Nat := 1000

/-- Core `k` reaches the threshold. -/
def Reaches (q : Signal) (k : Fin numCores) : Prop := q.scoreThresh ≤ q.scores k

/-- Core `k` reaches it with the greatest score. -/
def Best (q : Signal) (k : Fin numCores) : Prop :=
  Reaches q k ∧ ∀ j, Reaches q j → q.scores j ≤ q.scores k

instance (q : Signal) (k : Fin numCores) : Decidable (Reaches q k) := inferInstanceAs (Decidable (_ ≤ _))

instance (q : Signal) (k : Fin numCores) : Decidable (Best q k) := inferInstanceAs (Decidable (_ ∧ _))

/-- The core that proposes an order. -/
def firing (q : Signal) : Option (Fin numCores) :=
  (List.finRange numCores).find? fun k => decide (Best q k)

/-- The order it proposes. -/
def propose (q : Signal) : Option Order :=
  (firing q).map fun k => ⟨q.side, q.price, q.symId, q.shares k⟩

/-- The checks that do not depend on the position. -/
def Cleared (q : Signal) (o : Order) : Prop :=
  q.halted = false ∧
    8192 * RiskCheck.deviation o.price q.refPrice ≤ RiskCheck.bandProduct q.refPrice q.bandBps ∧
    o.shares.toNat ≤ q.maxQty.toNat

instance (q : Signal) (o : Order) : Decidable (Cleared q o) := inferInstanceAs (Decidable (_ ∧ _ ∧ _))

/-- The rules of the trader. -/
def rules : LimitLedger SymId Signal Order Int where
  propose := propose
  account := Order.symId
  amount := Order.signedShares
  allows q o e := decide (Cleared q o ∧ e.natAbs ≤ posLimit)

/-- No positions. -/
def flat : SymId → Int := fun _ => 0

/-- The positions after the given signals. -/
def positions (qs : List Signal) : SymId → Int := (feed rules.take flat qs).1

/-- The orders sent for them. -/
def orders (qs : List Signal) : List Order := (feed rules.take flat qs).2

/-! ## the firing core -/

/-- The first core of greatest score fires. -/
theorem firing_of_firstMax {q : Signal} {k : Fin numCores}
    (h : FirstMax (Reaches q) (fun k => (q.scores k).toNat) (List.finRange numCores) k) :
    firing q = some k := by
  have hmax : ∀ j, Reaches q j → q.scores j ≤ q.scores k := fun j hj =>
    BitVec.le_def.mpr (h.bound (List.mem_finRange j) hj)
  obtain ⟨hk, before, after, heq, hbefore, -⟩ := h
  refine List.find?_eq_some_iff_append.mpr ⟨decide_eq_true ⟨hk, hmax⟩, before, after, heq, ?_⟩
  intro j hj
  rw [Bool.not_eq_true', decide_eq_false_iff_not]
  rintro ⟨hreach, hgreatest⟩
  have hle := BitVec.le_def.mp (hgreatest k hk)
  exact absurd hle (Nat.not_le.mpr (hbefore j hj hreach))

theorem firing_eq_none {q : Signal} (h : ∀ k, ¬ Reaches q k) : firing q = none := by
  rw [firing, List.find?_eq_none]
  intro k _ hbest
  exact h k (of_decide_eq_true hbest).1

theorem propose_of_firing {q : Signal} {k : Fin numCores} (h : firing q = some k) :
    rules.propose q = some ⟨q.side, q.price, q.symId, q.shares k⟩ := by
  change propose q = _
  rw [propose, h, Option.map_some]

theorem through_of_not_firing {q : Signal} (h : firing q = none) (pos : SymId → Int) :
    rules.through pos q = none := by
  have hnone : rules.propose q = none := by
    change propose q = _
    rw [propose, h, Option.map_none]
  rw [LimitLedger.through, hnone, Option.filter_none]

/-! ## one more signal -/

variable {qs : List Signal} {q : Signal}

/-- An order that is let through is booked and sent. -/
theorem concat_of_some {o : Order} (h : rules.through (positions qs) q = some o) :
    positions (qs ++ [q]) = rules.book (positions qs) o ∧ orders (qs ++ [q]) = orders qs ++ [o] := by
  rw [positions] at h
  rw [positions, orders, feed_concat, LimitLedger.take_of_some h]
  exact ⟨rfl, rfl⟩

/-- Otherwise nothing is done. -/
theorem concat_of_none (h : rules.through (positions qs) q = none) :
    positions (qs ++ [q]) = positions qs ∧ orders (qs ++ [q]) = orders qs := by
  rw [positions] at h
  rw [positions, orders, feed_concat, LimitLedger.take_of_none h]
  exact ⟨rfl, List.append_nil _⟩

/-! ## what the trader keeps -/

theorem allows_iff {q : Signal} {o : Order} {e : Int} :
    rules.allows q o e = true ↔ Cleared q o ∧ e.natAbs ≤ posLimit := decide_eq_true_iff

/-- **Position limit**: no position exceeds it. -/
theorem natAbs_positions_le (qs : List Signal) (sym : SymId) :
    (positions qs sym).natAbs ≤ posLimit :=
  LimitLedger.feed_take_keeps (l := rules) (P := fun e => e.natAbs ≤ posLimit)
    (fun _ _ _ h => (of_decide_eq_true h).2) (fun _ => Nat.zero_le _) qs sym

/-- **Positions** are the signed shares of the orders sent. -/
theorem positions_eq_sum (qs : List Signal) (sym : SymId) : positions qs sym =
    ((orders qs).map fun o => if o.symId = sym then o.signedShares else 0).sum := by
  rw [positions, LimitLedger.feed_take_eq_sum, flat, zero_add]
  rfl

end Trader

end Lliu
