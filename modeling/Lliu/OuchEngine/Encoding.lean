import Lliu.Hdl.Stream
import Lliu.OuchEngine.Packets

/-!
# Lliu.OuchEngine.Encoding

What the receiver of the packets reads.  The engine refines the transducer that
numbers the accepted orders and gives the packet of each (`refines`), so what it has
sent decodes to these orders, in order and with nothing in between; a packet is
complete as soon as six of its beats could be taken (`exists_idle`).
-/

namespace Lliu

namespace OuchEngine

open Hdl

/-! ## decoding -/

/-- The fields of an Enter Order packet.  The template row is the one stored for its
symbol. -/
structure EnterOrder where
  token : BitVec 64
  side : Bool
  shares : BitVec 24
  price : BitVec 32
  tmpl : OuchTemplate (BitVec 32) (BitVec 64)

/-- The side of an indicator. -/
def decodeSide (b : BitVec 8) : Option Bool :=
  if b = sideBuy then some true else if b = sideSell then some false else none

/-- The order of a packet: six full beats, the last one marked, of type `'O'`. -/
def decodePacket (beats : List Beat) : Option EnterOrder :=
  match beats with
  | [b0, b1, b2, b3, b4, b5] =>
      if beats.map Beat.tlast = [false, false, false, false, false, true] ∧
          (∀ b ∈ beats, b.tkeep = 0xFF) ∧ b0.tdata.extractLsb' 56 8 = msgType then
        (decodeSide (b1.tdata.setWidth 8)).map fun side =>
          { token := b0.tdata.setWidth 56 ++ b1.tdata.extractLsb' 56 8
            side := side
            shares := b2.tdata.extractLsb' 32 24
            price := b3.tdata.setWidth 32
            tmpl := ⟨b2.tdata.setWidth 32, b3.tdata.extractLsb' 32 32, b4.tdata, b5.tdata⟩ }
      else none
  | _ => none

/-- What the packet of an order says. -/
def enterOrder (token : BitVec 64) (o : LatchedOrder) (t : OuchTemplate (BitVec 32) (BitVec 64)) :
    EnterOrder where
  token := token
  side := o.side
  shares := o.shares
  price := o.price
  tmpl := t

theorem decodeSide_sideByte (side : Bool) : decodeSide (sideByte side) = some side := by
  cases side <;> rfl

/-- The low bits of a word in two parts. -/
theorem setWidth_append_low (x : BitVec v) (y : BitVec w) : (x ++ y).setWidth w = y :=
  BitVec.setWidth_append_eq_right

/-- The high bits. -/
theorem extractLsb'_append_high (x : BitVec v) (y : BitVec w) : (x ++ y).extractLsb' w v = x := by
  ext k hk
  rw [BitVec.getElem_extractLsb', BitVec.getLsbD_append, if_neg (by omega), Nat.add_sub_cancel_left,
    BitVec.getLsbD_eq_getElem hk]

theorem high_append_low (token : BitVec 64) :
    token.extractLsb' 8 56 ++ token.setWidth 8 = token := by
  ext k hk
  simp only [BitVec.getElem_append, BitVec.getElem_setWidth, BitVec.getElem_extractLsb']
  split
  · rw [BitVec.getLsbD_eq_getElem hk]
  · rw [show 8 + (k - 8) = k by omega, BitVec.getLsbD_eq_getElem hk]

/-- The type and the token's high bytes come back from beat 0. -/
theorem beat0_fields (token : BitVec 64) :
    (msgType ++ token.extractLsb' 8 56).extractLsb' 56 8 = msgType ∧
      (msgType ++ token.extractLsb' 8 56).setWidth 56 = token.extractLsb' 8 56 :=
  ⟨extractLsb'_append_high _ _, setWidth_append_low _ _⟩

/-- The token's low byte and the side come back from beat 1. -/
theorem beat1_fields (token : BitVec 64) (side : Bool) :
    (token.setWidth 8 ++ 0x303030303030#48 ++ sideByte side).extractLsb' 56 8 = token.setWidth 8 ∧
      (token.setWidth 8 ++ 0x303030303030#48 ++ sideByte side).setWidth 8 = sideByte side := by
  refine ⟨?_, setWidth_append_low _ _⟩
  rw [BitVec.append_assoc]
  exact extractLsb'_append_high _ _

/-- The shares and the stock come back from beat 2. -/
theorem beat2_fields (shares : BitVec 24) (stock : BitVec 32) :
    (0#8 ++ shares ++ stock).extractLsb' 32 24 = shares ∧
      (0#8 ++ shares ++ stock).setWidth 32 = stock := by
  refine ⟨?_, setWidth_append_low _ _⟩
  ext k hk
  rw [BitVec.getElem_extractLsb', BitVec.getLsbD_append, if_neg (by omega),
    Nat.add_sub_cancel_left, BitVec.getLsbD_append, if_pos hk, BitVec.getLsbD_eq_getElem hk]

/-- The packet of an order decodes to that order. -/
theorem decodePacket_packet (token : BitVec 64) (o : LatchedOrder)
    (t : OuchTemplate (BitVec 32) (BitVec 64)) :
    decodePacket (packet token o t) = some (enterOrder token o t) := by
  obtain ⟨htype, hhigh⟩ := beat0_fields token
  obtain ⟨hlow, hside⟩ := beat1_fields token o.side
  obtain ⟨hshares, hstock⟩ := beat2_fields o.shares t.b2
  have hprice : (t.b3 ++ o.price).setWidth 32 = o.price := setWidth_append_low _ _
  have hstock' : (t.b3 ++ o.price).extractLsb' 32 32 = t.b3 := extractLsb'_append_high _ _
  simp [packet, decodePacket, htype, hhigh, hlow, hside, hshares, hstock, hprice, hstock',
    decodeSide_sideByte, high_append_low, enterOrder]

/-! ## the packets of a run -/

/-- The registers after reset, with the templates `t`. -/
def start (t : OuchTemplate (BitVec 7 → BitVec 32) (BitVec 7 → BitVec 64)) : OuchEngine :=
  { reset with tmpl := t }

/-- The order accepted in a cycle, with the template row of its symbol as it is read, at
the edge after. -/
def accepts (s : OuchEngine) (i : OuchEngineIn) :
    Option (LatchedOrder × OuchTemplate (BitVec 32) (BitVec 64)) :=
  if s.state = .sIdle ∧ i.riskPass = true then
    some (orderIn i, (s.step i).readTemplate i.symbolId)
  else none

/-- The token of the next order accepted: the register counts an order in `S_LOAD`. -/
def nextToken (s : OuchEngine) : BitVec 64 :=
  match s.state with
  | .sFetch | .sLoad => s.orderToken + 1
  | _ => s.orderToken

/-- What the engine does with an order: it takes the next token. -/
def takeOrder (token : BitVec 64) (o : LatchedOrder × OuchTemplate (BitVec 32) (BitVec 64)) :
    BitVec 64 × List Beat :=
  (token + 1, packet token o.1 o.2)

/-- What a cycle of `S_SEND` does to the control registers. -/
theorem step_send {s : OuchEngine} (i : OuchEngineIn) (hs : s.state = .sSend) :
    (s.step i).state = (if i.mAxisTready ∧ s.beatCnt = 5 then .sIdle else .sSend) ∧
      (s.step i).beatCnt =
        (if i.mAxisTready ∧ s.beatCnt ≠ 5 then s.beatCnt + 1 else s.beatCnt) ∧
      (s.step i).orderToken = s.orderToken := by
  obtain ⟨bp, clr, ovf, hadv⟩ := advance_eq s i
  simp only [step, hs, stepSend, hadv]
  by_cases hc : s.beatCnt = 5 <;> cases i.mAxisTready <;>
    simp only [hc, if_true, if_false, Bool.false_eq_true, false_and, true_and, ne_eq, not_true,
      not_false_eq_true, and_self]

theorem nextToken_step (s : OuchEngine) (i : OuchEngineIn) : (s.step i).nextToken =
    if (s.accepts i).isSome then s.nextToken + 1 else s.nextToken := by
  obtain ⟨bp, clr, ovf, hadv⟩ := advance_eq s i
  cases hst : s.state with
  | sIdle => cases hp : i.riskPass <;> simp [step, accepts, nextToken, stepIdle, hst, hp, hadv]
  | sFetch => simp [step, accepts, nextToken, hst, hadv]
  | sLoad => simp [step, accepts, nextToken, stepLoad, hst]
  | sSend =>
      have hnone : s.accepts i = none := by simp [accepts, hst]
      obtain ⟨hstate, -, htoken⟩ := step_send i hst
      rw [hnone, if_neg (by simp), nextToken, hstate, htoken, nextToken, hst]
      by_cases hlast : i.mAxisTready = true ∧ s.beatCnt = 5
      · rw [if_pos hlast]
      · rw [if_neg hlast]

/-- The engine numbers the orders it accepts and sends the packet of each. -/
theorem refines : Refines step accepts gave takeOrder OnBus nextToken due where
  inv s i h := h.step
  idle s i h hnone := by
    have hno : ¬ (s.state = .sIdle ∧ i.riskPass = true) := fun hyes => by
      simp [accepts, hyes] at hnone
    refine ⟨by simp [nextToken_step, hnone], ?_⟩
    simpa [hno] using flow_step (i := i) h
  took s i o h hsome := by
    have hyes : s.state = .sIdle ∧ i.riskPass = true := by
      by_contra hno
      simp [accepts, hno] at hsome
    have ho : (orderIn i, (s.step i).readTemplate i.symbolId) = o := by
      simpa [accepts, hyes] using hsome
    subst ho
    refine ⟨by simp [nextToken_step, hsome, takeOrder], ?_⟩
    simpa [hyes, nextToken, takeOrder] using flow_step (i := i) h

/-- The packets of orders, numbered from `token` on. -/
def packets (token : BitVec 64) (os : List (LatchedOrder × OuchTemplate (BitVec 32) (BitVec 64))) :
    List (List Beat) :=
  os.mapIdx fun k o => packet (token + BitVec.ofNat 64 k) o.1 o.2

theorem packets_cons (token : BitVec 64) (o) (os) : packets token (o :: os) =
    packet token o.1 o.2 :: packets (token + 1) os := by
  rw [packets, List.mapIdx_cons, BitVec.ofNat_eq_ofNat, BitVec.add_zero]
  congr 2
  funext k o
  rw [BitVec.add_assoc, Nat.add_comm, BitVec.ofNat_add]

theorem feed_takeOrder (token : BitVec 64) (os) :
    (feed takeOrder token os).2 = (packets token os).flatten := by
  induction os generalizing token with
  | nil => rfl
  | cons o os ih =>
      rw [feed_cons, packets_cons, List.flatten_cons, ← ih]
      rfl

theorem decode_packets (os) : (packets 0 os).map decodePacket =
    os.mapIdx fun k o => some (enterOrder (BitVec.ofNat 64 k) o.1 o.2) := by
  refine List.ext_getElem (by simp [packets]) fun k hk hk' => ?_
  simp [packets, decodePacket_packet]

theorem length_due_le (s : OuchEngine) : s.due.length ≤ 6 := by
  unfold due
  cases s.state with
  | sIdle => exact Nat.zero_le 6
  | sFetch | sLoad => exact Nat.le_refl 6
  | sSend =>
      rw [List.length_cons, beatsAfter, List.length_map, List.length_drop, List.length_range]
      omega

/-- A beat that is not taken stays on the bus. -/
theorem stalled_step {s : OuchEngine} {i : OuchEngineIn} (h : OnBus s)
    (hv : s.mAxisTvalid = true) (hr : i.mAxisTready = false) :
    (s.step i).mAxisTvalid = true ∧ (s.step i).outBeat = s.outBeat := by
  obtain ⟨bp, clr, ovf, hadv⟩ := advance_eq s i
  simp only [step, h.valid.mp hv, stepSend, hr, hadv]
  exact ⟨hv, rfl⟩

/-! ## progress -/

/-- A cycle of `S_SEND` is the last one, or counts the beat that is taken. -/
theorem send_step {s : OuchEngine} {i : OuchEngineIn} (hs : s.state = .sSend)
    (hc : s.beatCnt.toNat ≤ 5) : (s.step i).state = .sIdle ∨
      (s.step i).state = .sSend ∧ (s.step i).beatCnt.toNat = s.beatCnt.toNat + i.mAxisTready.toNat ∧
        (s.step i).beatCnt.toNat ≤ 5 := by
  obtain ⟨hstate, hcnt, -⟩ := step_send i hs
  rw [hstate, hcnt]
  cases i.mAxisTready with
  | false => simp [hc]
  | true =>
      by_cases hlast : s.beatCnt = 5
      · simp [hlast]
      · have hne : s.beatCnt.toNat ≠ 5 := fun he => hlast (BitVec.eq_of_toNat_eq he)
        have hadd : (s.beatCnt + 1).toNat = s.beatCnt.toNat + 1 := by
          rw [BitVec.toNat_add]
          exact Nat.mod_eq_of_lt (by change s.beatCnt.toNat + 1 < 8; omega)
        simp only [hlast, and_false, if_false, ne_eq, not_false_eq_true, and_self, if_true, hadd,
          Bool.toNat_true, reduceCtorEq, true_and, false_or]
        omega

/-- In `S_SEND` the beats taken are counted, until all are. -/
theorem sending_or_idle {s : OuchEngine} {i : Nat → OuchEngineIn} (hs : s.state = .sSend)
    (hc : s.beatCnt = 0) (m : Nat) :
    ((run step s i m).state = .sSend ∧
        (run step s i m).beatCnt.toNat = count (fun k => (i k).mAxisTready) m ∧
        (run step s i m).beatCnt.toNat ≤ 5) ∨
      ∃ c, c ≤ m ∧ (run step s i c).state = .sIdle := by
  induction m with
  | zero => exact .inl ⟨hs, by simp [hc], by simp [hc]⟩
  | succ m ih =>
      obtain ⟨hst, hcnt, hle⟩ | ⟨c, hc, hidle⟩ := ih
      · obtain hidle | ⟨hst', hcnt', hle'⟩ := send_step (i := i m) hst hle
        · exact .inr ⟨m + 1, Nat.le_refl _, hidle⟩
        · exact .inl ⟨hst', by rw [run_succ, hcnt', hcnt, count_succ], hle'⟩
      · exact .inr ⟨c, by omega, hidle⟩

/-- **Progress**: when six beats could be taken, counted from the first cycle of
`S_SEND`, the engine is idle again. -/
theorem exists_idle {s : OuchEngine} {i : Nat → OuchEngineIn} (ha : (s.accepts (i 0)).isSome)
    {m : Nat} (hm : 6 ≤ count (fun k => (i (3 + k)).mAxisTready) m) :
    ∃ c, 0 < c ∧ c ≤ 3 + m ∧ (run step s i c).state = .sIdle := by
  have hyes : s.state = .sIdle ∧ (i 0).riskPass = true := by
    by_contra hno
    simp [accepts, hno] at ha
  obtain ⟨hfetch, -⟩ := step_accept s (i 0) hyes.1 hyes.2
  obtain ⟨hload, -⟩ := step_fetch (s.step (i 0)) (i 1) hfetch
  have hsend : (run step s i 3).state = .sSend ∧ (run step s i 3).beatCnt = 0 := by
    change ((((s.step (i 0)).step (i 1)).step (i 2)).state) = .sSend ∧
      (((s.step (i 0)).step (i 1)).step (i 2)).beatCnt = 0
    rw [OuchEngine.step, hload]
    exact ⟨rfl, rfl⟩
  have hrun := sending_or_idle (i := fun k => i (3 + k)) hsend.1 hsend.2 m
  obtain ⟨-, hcnt, hle⟩ | ⟨c, hc, hidle⟩ := hrun
  · omega
  · exact ⟨3 + c, by omega, by omega, by rwa [run_add]⟩

/-! ## what the receiver reads -/

/-- **Packets**: the beats accepted before a cycle are those of whole packets and a part
of the last one, which is empty when the engine is idle; the packet of the `k`-th accepted
order decodes to that order with token `k` and the template row read for it.  A beat that
waits is stable, and a packet is out once six of its beats could be taken. -/
theorem sent_decodes (t : OuchTemplate (BitVec 7 → BitVec 32) (BitVec 7 → BitVec 64))
    (i : Nat → OuchEngineIn) (n : Nat) :
    (∃ (pkts : List (List Beat)) (rest : List Beat),
      collect (fun k => gave (run step (start t) i k) (i k)) n ++ rest = pkts.flatten ∧
      pkts.map decodePacket =
        (collect (fun k => accepts (run step (start t) i k) (i k)) n).mapIdx
          (fun k o => some (enterOrder (BitVec.ofNat 64 k) o.1 o.2)) ∧
      rest.length ≤ 6 ∧ ((run step (start t) i n).state = .sIdle → rest = [])) ∧
    ((run step (start t) i n).mAxisTvalid = true → (i n).mAxisTready = false →
      (run step (start t) i (n + 1)).mAxisTvalid = true ∧
        (run step (start t) i (n + 1)).outBeat = (run step (start t) i n).outBeat) ∧
    ((accepts (run step (start t) i n) (i n)).isSome →
      ∀ m, 6 ≤ count (fun k => (i (n + (3 + k))).mAxisTready) m →
        ∃ c, n < c ∧ c ≤ n + 3 + m ∧ (run step (start t) i c).state = .sIdle) := by
  have h0 : OnBus (start t) := ⟨by simp [start, reset], by simp [start, reset]⟩
  obtain ⟨hbus, -, hsent⟩ := refines.collect (i := i) h0 n
  refine ⟨⟨_, _, hsent.trans (feed_takeOrder 0 _), decode_packets _, length_due_le _, ?_⟩, ?_, ?_⟩
  · intro hidle
    rw [due, hidle]
  · exact fun hv hr => stalled_step hbus hv hr
  · intro ha m hm
    obtain ⟨c, hpos, hle, hidle⟩ := exists_idle (i := fun k => i (n + k)) ha hm
    exact ⟨n + c, by omega, by omega, by rwa [run_add]⟩

end OuchEngine

end Lliu
