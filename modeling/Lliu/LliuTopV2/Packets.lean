import Lliu.Hdl.Stream
import Lliu.LliuTopV2.Orders
import Lliu.OuchEngine.Packets
import Lliu.RiskCheck.Verdicts

/-!
# Lliu.LliuTopV2.Packets

From passed orders to packets and positions.  The risk check adds every order
that passes to the position of its symbol (`position_eq`).  The OUCH engine takes
an order only in `S_IDLE`; it has no queue, and neither `pipeline_hold` nor the
risk check wait for it.  So an order that passes while a packet is going out is
counted and not sent (`passes_sent_iff`).
-/

namespace Lliu

namespace LliuTopV2

open Hdl OuchEngine

variable {i : Nat → LliuTopV2In}

/-! ## passes and packets -/

/-- An order passes in cycle `a`. -/
def passes (i : Nat → LliuTopV2In) (a : Nat) : Bool := (trace i a).uRisk.riskPass

/-- The OUCH engine takes it. -/
def takes (i : Nat → LliuTopV2In) (a : Nat) : Bool :=
  passes i a && (trace i a).uOuch.state == .sIdle

/-- The order at the OUCH engine in cycle `a`. -/
def orderAt (i : Nat → LliuTopV2In) (a : Nat) : LatchedOrder := orderIn ((trace i a).ouchIn (i a))

/-- The packet of the order that passes in cycle `a`. -/
def packetOf (i : Nat → LliuTopV2In) (a : Nat) : List Beat :=
  packet (trace i a).uOuch.orderToken (orderAt i a)
    ((trace i (a + 1)).uOuch.readTemplate (orderAt i a).symId)

/-- The cycles before `n` in which `p` holds. -/
def cyclesOf (p : Nat → Bool) (n : Nat) : List Nat := (List.range n).filter p

/-- The beats transferred before cycle `n`. -/
def transferred (i : Nat → LliuTopV2In) (n : Nat) : List Beat :=
  collect (fun k => (trace i k).uOuch.gave ((trace i k).ouchIn (i k))) n

/-- The beats transferred, and those of the packet being sent, are the packets of
the orders that have passed. -/
def PacketsSent (i : Nat → LliuTopV2In) (n : Nat) : Prop :=
  transferred i n ++ (trace i n).uOuch.due = (cyclesOf (passes i) n).flatMap (packetOf i)

theorem cyclesOf_succ (p : Nat → Bool) (n : Nat) :
    cyclesOf p (n + 1) = cyclesOf p n ++ if p n then [n] else [] := by
  rw [cyclesOf, List.range_succ, List.filter_append, cyclesOf]
  cases h : p n <;> simp [h]

theorem onBus_trace (n : Nat) : (trace i n).uOuch.OnBus :=
  run_invariant (P := fun _ (s : LliuTopV2) => s.uOuch.OnBus) onBus_reset (fun _ h => h.step) n

/-- A cycle passes on what is due and takes up the packet of an order that the
engine takes. -/
theorem flow_trace (n : Nat) :
    ((trace i n).uOuch.gave ((trace i n).ouchIn (i n))).toList ++ (trace i (n + 1)).uOuch.due =
      (trace i n).uOuch.due ++ if takes i n then packetOf i n else [] := by
  have hflow := flow_step (s := (trace i n).uOuch) (i := (trace i n).ouchIn (i n)) (onBus_trace n)
  have htake : takes i n = decide ((trace i n).uOuch.state = .sIdle ∧ passes i n = true) := by
    rw [Bool.eq_iff_iff]
    simp [takes, and_comm]
  change _ ++ ((trace i n).uOuch.step ((trace i n).ouchIn (i n))).due = _
  rw [hflow, htake]
  simp only [decide_eq_true_eq]
  rfl

/-- **Step lemma**: what is transferred and due grows by the packet of an order
that the engine takes. -/
theorem transferred_succ (n : Nat) : transferred i (n + 1) ++ (trace i (n + 1)).uOuch.due =
    transferred i n ++ (trace i n).uOuch.due ++ if takes i n then packetOf i n else [] := by
  rw [transferred, collect_succ, List.append_assoc, flow_trace, ← List.append_assoc]
  rfl

theorem length_packetOf (a : Nat) : (packetOf i a).length = 6 := rfl

/-- The packets go out as long as every pass finds the engine idle. -/
theorem packetsSent_of_takes {n : Nat} (h : ∀ a, a < n → passes i a = true → takes i a = true) :
    PacketsSent i n := by
  induction n with
  | zero => rfl
  | succ n ih =>
      have hn : takes i n = passes i n := by
        cases hp : passes i n with
        | true => exact h n (Nat.lt_succ_self n) hp
        | false => simp [takes, hp]
      rw [PacketsSent, transferred_succ, ih fun a ha => h a (by omega), cyclesOf_succ,
        List.flatMap_append, hn]
      cases passes i n <;> simp

/-- A pass that does not leaves the next cycle without its packet. -/
theorem takes_of_packetsSent {a : Nat} (h : PacketsSent i a) (h' : PacketsSent i (a + 1))
    (hp : passes i a = true) : takes i a = true := by
  by_contra ht
  rw [PacketsSent, transferred_succ, if_neg ht, List.append_nil, h, cyclesOf_succ, if_pos hp,
    List.flatMap_append, List.flatMap_singleton] at h'
  have hlen := congrArg List.length h'
  rw [List.length_append, length_packetOf] at hlen
  omega

/-! ## positions -/

/-- What an order adds to the net position of a symbol. -/
def signedShares (o : LatchedOrder) (sym : SymId) : Int :=
  if o.symId = sym.setWidth 7 then (if o.side then o.shares.toNat else -o.shares.toNat) else 0

/-- The order with which the risk check saw the order that passes in cycle `a`. -/
def passedOrder (i : Nat → LliuTopV2In) (a : Nat) : LatchedOrder := checkedOrder i (a - 6)

/-- The net position of a symbol. -/
def position (i : Nat → LliuTopV2In) (n : Nat) (sym : SymId) : BitVec 24 :=
  (trace i n).uRisk.posMem sym

/-- The positions are the signed shares of the packets sent or being sent. -/
def PositionsSent (i : Nat → LliuTopV2In) (n : Nat) : Prop :=
  ∀ sym, (position i n sym).toInt =
    ((cyclesOf (takes i) n).map fun a => signedShares (orderAt i a) sym).sum

/-- Orders pass at least 64 cycles apart. -/
theorem passes_apart {a b : Nat} (ha : passes i a = true) (hb : passes i b = true) (hlt : a < b) :
    a + 64 ≤ b := by
  obtain ⟨t, rfl, ht⟩ := bestValid_of_riskPass ha
  obtain ⟨t', rfl, ht'⟩ := bestValid_of_riskPass hb
  obtain ⟨c, rfl, hc⟩ := taken_of_bestValid ht
  obtain ⟨c', rfl, hc'⟩ := taken_of_bestValid ht'
  have := hc.apart hc' (by omega)
  omega

/-- The write port is used in the cycle of a pass. -/
theorem posWrEnR_eq (n : Nat) : (trace i n).uRisk.posWrEnR = passes i n := by
  cases n <;> rfl

theorem position_of_not_passes {n : Nat} (h : passes i n = false) :
    position i (n + 1) = position i n := by
  have hen : (trace i n).uRisk.posWrEnR = false := (posWrEnR_eq n).trans h
  funext sym
  change (if (trace i n).uRisk.posWrEnR then _ else (trace i n).uRisk.posMem) sym = _
  rw [hen]
  rfl

/-- What is written for a proposal. -/
theorem update_checks (r : RiskCheckIn) (pos : SymId → BitVec 24) (sym : SymId) :
    Function.update pos (RiskCheck.checks r (pos r.symbolId)).symbolIdP2
      ((RiskCheck.checks r (pos r.symbolId)).newNetR.setWidth 24) sym =
    pos sym + BitVec.ofInt 24
      (signedShares ⟨r.symbolId.setWidth 7, r.side, r.price, r.proposedShares⟩ sym) := by
  change Function.update pos r.symbolId _ sym = _
  by_cases hs : sym = r.symbolId
  · rw [hs, Function.update_self, RiskCheck.written_eq, signedShares, if_pos rfl]
    rfl
  · rw [Function.update_of_ne hs, signedShares, if_neg fun h => hs (symId_inj h).symm]
    exact (BitVec.add_zero _).symm

/-- What an order that passes has been checked as. -/
theorem p2_add (m : Nat) : (trace i (m + 5)).uRisk.p2 =
    RiskCheck.checks (trace i m).riskIn (position i (m + 3) (trace i m).riskIn.symbolId) :=
  RiskCheck.p2_step _ _ _ _ _ _

/-- **Step lemma**: a pass adds its order, as it was checked. -/
theorem position_succ (n : Nat) (sym : SymId) : position i (n + 1) sym = position i n sym +
    if passes i n then BitVec.ofInt 24 (signedShares (passedOrder i n) sym) else 0 := by
  cases hp : passes i n with
  | false => simp [position_of_not_passes hp]
  | true =>
      obtain ⟨m, rfl, -⟩ := bestValid_of_riskPass hp
      -- the position read for the check is that of the cycle in which it is written
      have hkept : position i (m + 6) = position i (m + 3) := by
        have hquiet : ∀ k, 3 ≤ k → k < 6 → passes i (m + k) = false := fun k h3 h6 => by
          by_contra hk
          rw [Bool.not_eq_false] at hk
          have := passes_apart hk hp (by omega)
          omega
        rw [position_of_not_passes (hquiet 5 (by omega) (by omega)),
          position_of_not_passes (hquiet 4 (by omega) (by omega)),
          position_of_not_passes (hquiet 3 (by omega) (by omega))]
      have hen : (trace i (m + 6)).uRisk.posWrEnR = true := (posWrEnR_eq (m + 6)).trans hp
      have hwrite : position i (m + 6 + 1) = Function.update (position i (m + 6))
          (trace i (m + 5)).uRisk.p2.symbolIdP2 ((trace i (m + 5)).uRisk.p2.newNetR.setWidth 24) := by
        change (if (trace i (m + 6)).uRisk.posWrEnR then _ else _) = _
        rw [hen]
        rfl
      rw [hwrite, p2_add, ← hkept, if_pos rfl, passedOrder, Nat.add_sub_cancel]
      exact update_checks (trace i m).riskIn (position i (m + 6)) sym

/-- The positions are those of the orders that have passed, in 24 bits. -/
theorem position_eq (n : Nat) (sym : SymId) : position i n sym =
    BitVec.ofInt 24 ((cyclesOf (passes i) n).map fun a => signedShares (passedOrder i a) sym).sum := by
  induction n with
  | zero => rfl
  | succ n ih =>
      rw [position_succ, ih, cyclesOf_succ, List.map_append, List.sum_append, BitVec.ofInt_add]
      cases passes i n <;> simp

/-- The order that passes in cycle `a` is counted as it is sent: the signed shares
of the order that was checked, added to a position of 24 bits, move it by those of
the order at the engine. -/
def CountedAsSent (i : Nat → LliuTopV2In) (a : Nat) : Prop :=
  ∀ sym, (position i a sym + BitVec.ofInt 24 (signedShares (passedOrder i a) sym)).toInt =
    (position i a sym).toInt + signedShares (orderAt i a) sym

/-- So it is if the order at the engine has the signed shares of the one checked,
and the position stays in range. -/
theorem countedAsSent_of_eq {a : Nat} (h : signedShares (orderAt i a) = signedShares (passedOrder i a))
    (hrange : ∀ sym, -2 ^ 23 ≤ (position i a sym).toInt + signedShares (passedOrder i a) sym ∧
      (position i a sym).toInt + signedShares (passedOrder i a) sym < 2 ^ 23) : CountedAsSent i a := by
  intro sym
  obtain ⟨hlo, hhi⟩ := hrange sym
  rw [BitVec.toInt_add, BitVec.toInt_ofInt, Int.add_bmod_bmod, h]
  exact Int.bmod_eq_of_le (by omega) (by omega)

/-- A pass that the engine takes adds to the packets' shares what it adds to the
positions. -/
theorem positionsSent_succ {a : Nat} (h : PositionsSent i a) (ht : takes i a = true) :
    PositionsSent i (a + 1) ↔ CountedAsSent i a := by
  have hp : passes i a = true := (Bool.and_eq_true_iff.mp ht).1
  refine forall_congr' fun sym => ?_
  rw [position_succ, if_pos hp, cyclesOf_succ, if_pos ht, List.map_append, List.sum_append, h sym]
  simp

/-- **Every pass is sent**: in every cycle the packets sent or being sent are
those of the orders that have passed, and the positions are the sums of their
signed shares, if and only if every pass finds the engine idle and is counted as
it is sent. -/
theorem passes_sent_iff (i : Nat → LliuTopV2In) :
    (∀ n, PacketsSent i n ∧ PositionsSent i n) ↔
      ∀ a, passes i a = true → (trace i a).uOuch.state = .sIdle ∧ CountedAsSent i a := by
  constructor
  · intro h a hp
    have ht := takes_of_packetsSent (h a).1 (h (a + 1)).1 hp
    have hidle := (Bool.and_eq_true_iff.mp ht).2
    exact ⟨eq_of_beq hidle, (positionsSent_succ (h a).2 ht).mp (h (a + 1)).2⟩
  · intro h n
    have htake : ∀ a, passes i a = true → takes i a = true := fun a hp => by
      rw [takes, hp, (h a hp).1]
      rfl
    have hpos : PositionsSent i n := by
      induction n with
      | zero => exact fun _ => rfl
      | succ n ih =>
          cases hp : passes i n with
          | true => exact (positionsSent_succ ih (htake n hp)).mpr (h n hp).2
          | false =>
              intro sym
              rw [position_of_not_passes hp, cyclesOf_succ, if_neg (by simp [takes, hp]), List.append_nil]
              exact ih sym
    exact ⟨packetsSent_of_takes fun a _ => htake a, hpos⟩

/-! ## a stalled packet -/

/-- Two Add Orders of a watched stock, and a receiver that takes one beat in
cycle 150. -/
def stalledOrders (n : Nat) : LliuTopV2In :=
  { Schedule.inputs
      { axis := frameAt 0 (addFrame 1 buy 10 1000 0x4D53465420202020#64) ++
          frameAt 15 (addFrame 2 sell 10 1000 0x4D53465420202020#64) ++
          frameAt 26 (addFrame 3 buy 10 990 aapl) ++
          frameAt 36 ((addFrame 4 buy 10 990 aapl).take 4) ++ [(42, 106, 0x2020#16 ++ 990#32 ++ 0#16)]
        axil := watchAapl } n with
    mAxisTready := n == 150 }

/-- The second order passes while the packet of the first is stalled: 200 shares
are counted, and 100 are being sent. -/
theorem second_pass_lost : passes stalledOrders 114 = true ∧ passes stalledOrders 190 = true ∧
    (trace stalledOrders 190).uOuch.state = .sSend ∧
    position stalledOrders 191 0 = 200 ∧ packetShares (trace stalledOrders 191).uOuch.beatBuf = 100 ∧
    ¬ ∀ n, PacketsSent stalledOrders n ∧ PositionsSent stalledOrders n := by
  have hrun : passes stalledOrders 114 = true ∧ passes stalledOrders 190 = true ∧
      (trace stalledOrders 190).uOuch.state = .sSend ∧
      position stalledOrders 191 0 = 200 ∧
      packetShares (trace stalledOrders 191).uOuch.beatBuf = 100 := by decide +kernel
  obtain ⟨hfirst, hsecond, hsend, hpos, hshares⟩ := hrun
  refine ⟨hfirst, hsecond, hsend, hpos, hshares, fun h => ?_⟩
  have ht := takes_of_packetsSent (h 190).1 (h 191).1 hsecond
  rw [takes, hsend, hsecond] at ht
  cases ht

end LliuTopV2

end Lliu
