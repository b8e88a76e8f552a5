import Lliu.Desk.Live
import Lliu.LliuTopV2.Desk

/-!
# Lliu.LliuTopV2.Relevance

Which inputs of the strategy reach an order.  The desk of `Lliu.LliuTopV2.Desk` has 32 features
and eight times 32 weights; positions and orders are those of a desk that sees the supported
messages only, and has anything for the weights in 19 of the positions (`orders_of_live`).
-/

namespace Lliu

namespace LliuTopV2

open Hdl OuchEngine

variable {i : Nat → LliuTopV2In}

/-- The supported messages, with their cycles. -/
def supportedEvents (i : Nat → LliuTopV2In) (n : Nat) : List (Nat × ItchParserV2.Fields) :=
  (events i n).filter fun e => ItchParserV2.supported e.2.msgType

/-- **What orders depend on**: in a run without collisions in which every message finds the order
book ready, no weight but those of the live positions and no message but the supported ones has an
effect on a position or an order. -/
theorem orders_of_live (i : Nat → LliuTopV2In) (h : Calm i) (hp : Paced i)
    (w : Nat → Fin numCores → Nat → Bfloat16T)
    (hw : ∀ t k j, Desk.Live j → w t k j = (setupOf i).weight t k j) (t : Nat) :
    (∀ sym, (position i (t + 82) sym).toInt =
      Trader.positions (Desk.signals { setupOf i with weight := w } (supportedEvents i t)) sym) ∧
    (accepted i (t + 82)).map Prod.fst =
      (Trader.orders (Desk.signals { setupOf i with weight := w } (supportedEvents i t))).map Order.latched := by
  have htracks := h.tracks t
  have hsignals : signals i t = Desk.signals { setupOf i with weight := w } (supportedEvents i t) := by
    rw [← (deskTracks hp t).signals, supportedEvents, ← Desk.signals_live hw]
  rw [← hsignals]
  exact ⟨htracks.positions, by rw [map_accepted, htracks.orders]⟩

/-- The weights of `spacedOrders`, and one in the positions that are not live. -/
def deadOnes (t : Nat) (k : Fin numCores) (j : Nat) : Bfloat16T :=
  if Desk.Live j then (setupOf spacedOrders).weight t k j else 0x3F80#16

/-- The two orders come of these as well. -/
theorem spacedOrders_live : deadOnes 46 0 0 ≠ (setupOf spacedOrders).weight 46 0 0 ∧
    (∀ sym, (position spacedOrders (137 + 82) sym).toInt = Trader.positions
      (Desk.signals { setupOf spacedOrders with weight := deadOnes } (supportedEvents spacedOrders 137)) sym) ∧
    (accepted spacedOrders (137 + 82)).map Prod.fst = (Trader.orders
      (Desk.signals { setupOf spacedOrders with weight := deadOnes } (supportedEvents spacedOrders 137))).map
        Order.latched :=
  ⟨by decide +kernel, orders_of_live spacedOrders calm_spacedOrders paced_spacedOrders deadOnes
    (fun _ _ _ hj => if_pos hj) 137⟩

end LliuTopV2

end Lliu
