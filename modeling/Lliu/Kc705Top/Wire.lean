import Lliu.ItchParserV2.RoundTrip
import Lliu.Kc705Top
import Lliu.LliuTopV2.Desk
import Lliu.MoldUdp64Strip.Loss

/-!
# Lliu.Kc705Top.Wire

From the UDP payload to the orders.  `u_moldupp64` takes the datagrams of a session that
arrive, the FIFO hands on what it sends, and `u_lliu` trades on it.  The FIFO is not part of
the repository: it is assumed to keep the order and to lose nothing, so that at any time
`u_lliu` has taken a prefix of the beats sent, and nothing is said of when.

The orders are those of trader and desk for the messages before the first loss, without the
last message of a datagram that ends in the lower half of a beat (`orders_of_session`).
-/

namespace Lliu

namespace Kc705Top

open Hdl LliuTopV2 MoldUdp64Strip

variable {i : Nat → LliuTopV2In} {bs bs' : List ItchParserV2.ItchBeat}

/-- The beats that `u_lliu` has taken before cycle `t`. -/
def ingress (i : Nat → LliuTopV2In) (t : Nat) : List ItchParserV2.ItchBeat :=
  collect (fun k => (LliuTopV2.trace i k).uParser.got ((LliuTopV2.trace i k).parserIn (i k))) t

/-- The supported messages among the messages parsed. -/
def messages (es : List (Nat × ItchParserV2.Fields)) : List ItchParserV2.Fields :=
  (es.map Prod.snd).filter fun m => ItchParserV2.supported m.msgType

theorem uParser_eq (t : Nat) : (LliuTopV2.trace i t).uParser =
    run ItchParserV2.step .reset (fun k => (LliuTopV2.trace i k).parserIn (i k)) t :=
  run_map (f := LliuTopV2.uParser) (fun _ => rfl) t

/-- The supported messages are those for which `fields_valid` pulses. -/
theorem messages_events (t : Nat) : messages (events i t) =
    ItchParserV2.pulsed .reset (fun k => (LliuTopV2.trace i k).parserIn (i k)) t := by
  induction t with
  | zero => rfl
  | succ t ih =>
      rw [messages] at ih
      rw [events, ItchParserV2.pulsed, collect_succ, collect_succ, ← events, ← ItchParserV2.pulsed, ← ih,
        messages, List.map_append, List.filter_append, ← uParser_eq, ItchParserV2.gave, fieldsValid_eq]
      congr 1
      cases hp : parsed i t with
      | false => rfl
      | true =>
          cases hs : ItchParserV2.supported (fieldsAt i t).msgType with
          | false => simp [hs]
          | true =>
              have hvalid : ItchParserV2.supported (LliuTopV2.trace i t).uParser.fields.msgType = true := hs
              simp [fieldsAt, hvalid]

/-- They are given two cycles after the last beat. -/
theorem messages_add_two (t : Nat) : messages (events i (t + 2)) =
    (feed ItchParserV2.take .reset (ingress i t)).2 := by
  obtain ⟨-, -, hout⟩ := ItchParserV2.refines.collect (s := .reset)
    (i := fun k => (LliuTopV2.trace i k).parserIn (i k)) ItchParserV2.validInIdle_reset t
  rw [messages_events, ItchParserV2.pulsed_add_two ItchParserV2.validInIdle_reset]
  simp only [ingress, uParser_eq]
  exact hout

theorem feed_isPrefix (h : bs <+: bs') :
    (feed ItchParserV2.take .reset bs).2 <+: (feed ItchParserV2.take .reset bs').2 := by
  obtain ⟨rest, rfl⟩ := h
  rw [feed_append]
  exact List.prefix_append _ _

/-- **From the wire to the orders**: in any run that takes the datagrams of a session that arrive
and is otherwise idle, `u_lliu` has, two cycles behind any prefix of the beats sent, parsed a
prefix of the messages before the first loss, all of them if it has taken all beats; and in a run
without collisions in which every message finds the order book ready, the positions and the
orders are those that trader and desk make of what it has parsed. -/
theorem orders_of_session (j : Nat → MoldUdp64StripIn) (n : Nat) (session : List (Datagram × Bool))
    (mss : List (List ItchParserV2.ItchMsg)) (i : Nat → LliuTopV2In) (t : Nat)
    (hnum : Datagram.Numbered 1 (session.map Prod.fst))
    (hlt : Datagram.messages (session.map Prod.fst) < 2 ^ 64)
    (htaken : PacksAll (taken .reset j n) ((Datagram.arrived session).map Datagram.bytes))
    (hidle : (MoldUdp64Strip.trace j n).mTvalid (j n) = false)
    (hm : List.Forall₂ Contains (Datagram.beforeLoss session) mss)
    (halign : ∀ ms ∈ mss, ∀ m ∈ ms.dropLast, m.encode.length % 8 = 0)
    (hfifo : ingress i t <+: (sent .reset j n).map swapped) :
    messages (events i (t + 2)) <+: (mss.map read).flatten ∧
    (ingress i t = (sent .reset j n).map swapped →
      messages (events i (t + 2)) = (mss.map read).flatten) ∧
    (Calm i → Paced i →
      (∀ sym, (position i (t + 2 + 82) sym).toInt =
        Trader.positions (Desk.signals (setupOf i) (events i (t + 2))) sym) ∧
      (accepted i (t + 2 + 82)).map Prod.fst =
        (Trader.orders (Desk.signals (setupOf i) (events i (t + 2)))).map Order.latched) := by
  obtain ⟨fs, hsent, hcarries⟩ := sent_eq htaken hidle
  rw [Datagram.inOrder_arrived hnum hlt] at hcarries
  have hread : (feed ItchParserV2.take .reset ((sent .reset j n).map swapped)).2 = (mss.map read).flatten := by
    rw [hsent]
    exact feed_frames hcarries hm halign rfl
  rw [messages_add_two, ← hread]
  refine ⟨feed_isPrefix hfifo, fun h => by rw [h], fun hcalm hpaced => ?_⟩
  have htracks := hcalm.tracks (t + 2)
  rw [(deskTracks hpaced (t + 2)).signals]
  exact ⟨htracks.positions, by rw [map_accepted, htracks.orders]⟩

/-! ## a session of five -/

/-- An Add Order for ten shares. -/
def orderOf (ref side : Byte) (stock : BitVec 64) (price : BitVec 32) : ItchParserV2.ItchMsg where
  body := [0x41] ++ List.replicate 17 0 ++ [ref, side, 0, 0, 0, 10] ++
    ItchParserV2.bigEndian 8 stock ++ ItchParserV2.bigEndian 4 price
  nonempty := by simp
  fits := by simp [ItchParserV2.bigEndian]
  complete := fun _ => by
    have hextent : ItchParserV2.extent 0x41#8 ≤ 36 := by decide
    simpa [ItchParserV2.bigEndian] using hextent

/-- Datagram `k` with one message. -/
def datagramOf (k : Byte) (m : ItchParserV2.ItchMsg) : Datagram where
  bytes := List.replicate 10 0x20 ++ List.replicate 7 0 ++ [k, 0, 1] ++ m.encode
  long := by simp

/-- Quotes on both sides and a buy, for the run. -/
def arriving : List ItchParserV2.ItchMsg :=
  [orderOf 1 buy 0x4D53465420202020#64 1000, orderOf 2 sell 0x4D53465420202020#64 1000,
    orderOf 3 buy aapl 990]

/-- After them a buy that is lost and one that arrives. -/
def lossySession : List (Datagram × Bool) :=
  (arriving.zipIdx 1).map (fun m => (datagramOf (BitVec.ofNat 8 m.2) m.1, false)) ++
    [(datagramOf 4 (orderOf 4 buy aapl 995), true), (datagramOf 5 (orderOf 5 buy aapl 1005), false)]

/-- The datagrams that arrive, beat after beat. -/
def lossyIn : Nat → MoldUdp64StripIn :=
  MoldUdp64Strip.offered ((Datagram.arrived lossySession).flatMap fun d => toBeats 7 d.bytes)

/-- What the FIFO hands on, and the watchlist. -/
def lossySchedule : Schedule where
  axis := quotes ++ frameAt 40 (addFrame 3 buy 10 990 aapl)
  axil := watchAapl

/-- The run of `u_lliu`. -/
def lossyOrders (n : Nat) : LliuTopV2In :=
  { lossySchedule.inputs n with sAxisTlast := n == 4 || n == 20 || n == 44 }

/-- What the run comes to: its messages, the one that may be traded, and the time of the first two
in the book. -/
theorem lossyOrders_facts :
    (∀ t, t < 47 → (LliuTopV2.trace lossyOrders t).uParser.fieldsValid = true → t = 6 ∨ t = 22 ∨ t = 46) ∧
    (arrives lossyOrders 6 = false ∧ arrives lossyOrders 22 = false) ∧
    (LliuTopV2.trace lossyOrders (46 + 1)).uParser.state ≠ .sEmit ∧
    (LliuTopV2.trace lossyOrders (46 + 76)).axil.maxQtyR.toNat + 1000 < 2 ^ 24 ∧
    (∀ k, (LliuTopV2.trace lossyOrders (46 + 82)).axil.coreSharesAr 0 =
      (LliuTopV2.trace lossyOrders (46 + 76)).axil.coreSharesAr k) ∧
    serviceAt lossyOrders 6 = 9 ∧ serviceAt lossyOrders 22 = 9 := by
  decide +kernel

theorem fieldsValid_lossyOrders {t : Nat} (h : (LliuTopV2.trace lossyOrders t).uParser.fieldsValid = true) :
    t = 6 ∨ t = 22 ∨ t = 46 := by
  have hlate : t < 47 := by
    by_contra hge
    have hquiet := fieldsValid_of_quiet (i := lossyOrders) (N := 45)
      (fun n hn => Schedule.sAxisTvalid_inputs (w := lossySchedule) (by decide) n hn) (by omega : 45 + 2 ≤ t)
    rw [hquiet] at h
    cases h
  exact lossyOrders_facts.1 t hlate h

theorem arrives_lossyOrders {t : Nat} (h : arrives lossyOrders t = true) : t = 46 := by
  obtain ⟨-, ⟨hfirst, hsecond⟩, -⟩ := lossyOrders_facts
  obtain rfl | rfl | rfl := fieldsValid_lossyOrders ((arrives_iff t).mp h).1
  · exact absurd (hfirst.symm.trans h) Bool.false_ne_true
  · exact absurd (hsecond.symm.trans h) Bool.false_ne_true
  · rfl

theorem calm_lossyOrders : Calm lossyOrders where
  apart t t' ht ht' hlt := by
    have h := arrives_lossyOrders ht
    have h' := arrives_lossyOrders ht'
    omega
  behind t ht := by
    obtain rfl := arrives_lossyOrders ht
    exact lossyOrders_facts.2.2.1
  quantity t ht := by
    obtain rfl := arrives_lossyOrders ht
    exact lossyOrders_facts.2.2.2.1
  shares t k ht _ := by
    obtain rfl := arrives_lossyOrders ht
    exact lossyOrders_facts.2.2.2.2.1 k
  ready _ := show 6 ≤ count (fun _ => true) 76 by simp [count]

theorem paced_lossyOrders : Paced lossyOrders where
  book t n ht hn hlt := by
    obtain ⟨-, -, -, -, -, hfirst, hsecond⟩ := lossyOrders_facts
    have hbound : serviceAt lossyOrders t ≤ 26 := (Book.service_bounds _ _).2
    rcases fieldsValid_lossyOrders (Bool.and_eq_true_iff.mp ht).1 with rfl | rfl | rfl <;>
      rcases fieldsValid_lossyOrders hn with rfl | rfl | rfl <;> omega
  receiver _ := ⟨0, by decide, rfl⟩

/-- The third message is traded, the fifth is not. -/
theorem lossyOrders_traded :
    Trader.orders (Desk.signals (setupOf lossyOrders) (events lossyOrders 47)) = [⟨true, 990, 0, 100⟩] ∧
    messages (events lossyOrders 47) = ((arriving.map fun m => [m]).map read).flatten ∧
    (∀ sym, (position lossyOrders (47 + 82) sym).toInt =
      Trader.positions (Desk.signals (setupOf lossyOrders) (events lossyOrders 47)) sym) ∧
    (accepted lossyOrders (47 + 82)).map Prod.fst =
      (Trader.orders (Desk.signals (setupOf lossyOrders) (events lossyOrders 47))).map Order.latched := by
  have htaken : taken .reset lossyIn 35 =
      (Datagram.arrived lossySession).flatMap fun d => toBeats 7 d.bytes := by decide +kernel
  have hpacks : ∀ ds : List Datagram, (∀ d ∈ ds, d.bytes.length = 58) →
      PacksAll (ds.flatMap fun d => toBeats 7 d.bytes) (ds.map Datagram.bytes) := by
    intro ds hds
    induction ds with
    | nil => exact .nil
    | cons d ds ih =>
        have hlen := hds d List.mem_cons_self
        exact .cons _ _ _ _ (packs_toBeats 7 _ (by omega) (by omega))
          (ih fun d' h => hds d' (List.mem_cons_of_mem _ h))
  have hcontains : List.Forall₂ Contains (Datagram.beforeLoss lossySession) (arriving.map fun m => [m]) :=
    .cons ⟨List.cons_ne_nil _ _, rfl⟩ (.cons ⟨List.cons_ne_nil _ _, rfl⟩
      (.cons ⟨List.cons_ne_nil _ _, rfl⟩ .nil))
  have hall : ingress lossyOrders 45 = (sent .reset lossyIn 35).map swapped := by decide +kernel
  obtain ⟨-, hmessages, horders⟩ := orders_of_session lossyIn 35 lossySession _ lossyOrders 45
    ⟨by decide, by decide, by decide, by decide, by decide, trivial⟩ (by decide +kernel)
    (by rw [htaken]; exact hpacks _ (by decide)) (by decide +kernel) hcontains (by simp)
    (hall ▸ List.prefix_refl _)
  exact ⟨by decide +kernel, hmessages hall, horders calm_lossyOrders paced_lossyOrders⟩

end Kc705Top

end Lliu
